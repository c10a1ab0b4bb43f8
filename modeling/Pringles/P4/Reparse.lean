import Pringles.P4.Packet
import Pringles.P4.Shape

/-!
# From the ingress to the wire

Behind the ingress a packet is emitted, parsed again and emitted once more. The egress parser finds
the headers on its own, from the bytes; what it has found the deparser writes again, so the egress
leaves a packet as it is unless its parser fails or strips a byte (`egress_eq`). Which packets go
wrong is therefore a question about bytes: the first byte, the `app_id` at the front, the order of
the ring type and the view change, and the length (`Reparsable`).

A property of a parser is proved state by state, from the last state to the first; `Reemits`,
`Needs` and `Ensures` have one rule each for a state that extracts a header.
-/

namespace Pringles.P4

open ParserState

variable {α : Type} {hdr hdr' : Headers} {f : BitFormat α} {store : α → Headers → Headers}
  {next : ParserState} {l r payload : List Bool}

/-! ## What a parser has read -/

/-- The headers found, as `E` writes them, and the rest of the packet always make up the packet. -/
def Reemits (E : Headers → List Bool) (P : ParserState) (hdr : Headers) : Prop :=
  ∀ l hdr' r, P hdr l = some (hdr', r) → E hdr' ++ r = E hdr ++ l

variable {E : Headers → List Bool}

theorem Reemits.accept : Reemits E accept hdr := by
  intro l hdr' r h
  simp only [P4.accept, Option.some.injEq, Prod.mk.injEq] at h
  rw [h.1, h.2]

theorem Reemits.extract (hE : ∀ x, E (store x hdr) = E hdr ++ f.emit x)
    (hnext : ∀ x, Reemits E next (store x hdr)) : Reemits E (extract f store next) hdr := by
  intro l hdr' r h
  simp only [P4.extract, Option.bind_eq_some_iff, Prod.exists] at h
  obtain ⟨x, l', hread, h⟩ := h
  rw [hnext x l' hdr' r h, hE x, List.append_assoc, BitFormat.emit_append_of_read hread]

/-- The headers in the order of the extraction, with `view` for the bits of a view change. -/
def wireWith (view : StartViewChange → List Bool) (hdr : Headers) : List Bool :=
  PktgenTimer.format.emit hdr.timer ++ (Ethernet.format.emit hdr.ethernet ++
  (ControlPkt.format.emit hdr.cntrl ++ (Ipv4.format.emit hdr.ipv4 ++ (Udp.format.emit hdr.udp ++
  (RingType.format.emit hdr.ringType ++ (view hdr.startView ++
  (AppendEntry.format.emit hdr.append ++ (ReadEntry.format.emit hdr.read ++
  (TailReq.format.emit hdr.tail ++ (SubscribeReq.format.emit hdr.sub ++
  ControlPktChecker.format.emit hdr.cntrlCheck))))))))))

/-- The bits of the valid headers in the order in which `MyParser` extracts them. -/
def wire (hdr : Headers) : List Bool := wireWith StartViewChange.format.emit hdr

theorem MyDeparser_eq (hdr : Headers) : MyDeparser hdr = wireWith (fun _ => []) hdr := by
  rw [MyDeparser, wireWith, List.nil_append]

/-- The ring types that announce a header. -/
def ringTypes : List (BitVec 16) :=
  [typeControlCheck, typeAppend, typeAppendResp, typeRead, typeReadResp, typeTail, typeSub, typeView]

/-- One case for each ring type, and one for the others. -/
theorem selectType_cases {onView : ParserState}
    {C : BitVec 16 → (List Bool → Option (Headers × List Bool)) → Prop}
    (hcheck : C typeControlCheck (parseControlCheck hdr))
    (happend : C typeAppend (parseAppend hdr)) (hresp : C typeAppendResp (parseAppend hdr))
    (hread : C typeRead (parseRead hdr)) (hreadResp : C typeReadResp (parseRead hdr))
    (htail : C typeTail (parseTail hdr)) (hsub : C typeSub (parseSub hdr))
    (hview : C typeView (onView hdr))
    (hother : ∀ type, type ∉ ringTypes → C type (accept hdr)) :
    C hdr.ringType.type (selectType onView hdr) := by
  unfold selectType
  generalize hdr.ringType.type = type
  by_cases h₁ : type = typeControlCheck
  · rwa [if_pos h₁, h₁]
  by_cases h₂ : type = typeAppend
  · rwa [if_neg h₁, if_pos h₂, h₂]
  by_cases h₃ : type = typeAppendResp
  · rwa [if_neg h₁, if_neg h₂, if_pos h₃, h₃]
  by_cases h₄ : type = typeRead
  · rwa [if_neg h₁, if_neg h₂, if_neg h₃, if_pos h₄, h₄]
  by_cases h₅ : type = typeReadResp
  · rwa [if_neg h₁, if_neg h₂, if_neg h₃, if_neg h₄, if_pos h₅, h₅]
  by_cases h₆ : type = typeTail
  · rwa [if_neg h₁, if_neg h₂, if_neg h₃, if_neg h₄, if_neg h₅, if_pos h₆, h₆]
  by_cases h₇ : type = typeSub
  · rwa [if_neg h₁, if_neg h₂, if_neg h₃, if_neg h₄, if_neg h₅, if_neg h₆, if_pos h₇, h₇]
  by_cases h₈ : type = typeView
  · rwa [if_neg h₁, if_neg h₂, if_neg h₃, if_neg h₄, if_neg h₅, if_neg h₆, if_neg h₇, if_pos h₈,
      h₈]
  · rw [if_neg h₁, if_neg h₂, if_neg h₃, if_neg h₄, if_neg h₅, if_neg h₆, if_neg h₇, if_neg h₈]
    exact hother type (by simp [ringTypes, *])

section
variable {view : StartViewChange → List Bool} {onView : ParserState} (t : PktgenTimer)
  (e : Ethernet) (i : Ipv4) (u : Udp) (rt : RingType)

/-- A packet whose own header is still to be found. -/
def common : Headers := { timer := t, ethernet := e, ipv4 := i, udp := u, ringType := rt }

theorem reemits_parseView : Reemits wire parseView (common t e i u rt) :=
  .extract (by simp [wire, wireWith, common]) fun _ => .accept

variable (hview : ∀ e i u rt, Reemits (wireWith view) onView (common t e i u rt))

include hview in
theorem reemits_selectType :
    Reemits (wireWith view) (selectType onView) (common t e i u rt) := by
  refine selectType_cases (C := fun _ run => ∀ l hdr' r, run l = some (hdr', r) →
    wireWith view hdr' ++ r = wireWith view (common t e i u rt) ++ l)
    ?_ ?_ ?_ ?_ ?_ ?_ ?_ (hview e i u rt) fun _ _ => Reemits.accept
  · exact Reemits.extract (by simp [wireWith, common]) fun _ => .accept
  · exact Reemits.extract (by simp [wireWith, common]) fun _ => .accept
  · exact Reemits.extract (by simp [wireWith, common]) fun _ => .accept
  · exact Reemits.extract (by simp [wireWith, common]) fun _ => .accept
  · exact Reemits.extract (by simp [wireWith, common]) fun _ => .accept
  · exact Reemits.extract (by simp [wireWith, common]) fun _ => .accept
  · exact Reemits.extract (by simp [wireWith, common]) fun _ => .accept

variable (h0 : ∀ v, v.isValid = false → view v = [])

include hview h0 in
theorem reemits_parseEthernet :
    Reemits (wireWith view) (parseEthernet onView) { timer := t } := by
  refine .extract (by simp [wireWith, h0]) ?_
  intro e l hdr' r h
  unfold selectEtherType at h
  split at h
  · exact Reemits.extract (by simp [wireWith, h0]) (fun _ => .accept) l hdr' r h
  · refine Reemits.extract (by simp [wireWith, h0]) (fun i => ?_) l hdr' r h
    refine Reemits.extract (by simp [wireWith, h0]) fun u => ?_
    refine Reemits.extract (by simp [wireWith, h0]) fun rt => ?_
    exact reemits_selectType t e i u rt hview

end

/-! ## What a parser needs -/

/-- The parser accepts exactly the packets that have the bits it asks for. -/
def Needs (P : ParserState) (hdr : Headers) (need : List Bool → Nat) : Prop :=
  ∀ l, (P hdr l).isSome = true ↔ need l ≤ l.length

theorem Needs.accept : Needs accept hdr fun _ => 0 := by simp [Needs, P4.accept]

theorem Needs.extract (d : α) (rest : α → List Bool → Nat) {need : List Bool → Nat}
    (hneed : ∀ l, need l = f.width + rest (f.peek d l) (l.drop f.width))
    (hnext : ∀ x, Needs next (store x hdr) (rest x)) : Needs (extract f store next) hdr need := by
  intro l
  rw [hneed]
  by_cases hle : f.width ≤ l.length
  · have hrest := hnext (f.peek d l) (l.drop f.width)
    rw [List.length_drop] at hrest
    simp only [P4.extract, BitFormat.read_of_le d hle, Option.bind_some, hrest]
    omega
  · have hnone : f.read l = none := BitFormat.read_eq_none_iff.2 (by omega)
    simp only [P4.extract, hnone, Option.bind_none, Option.isSome_none, Bool.false_eq_true,
      false_iff]
    omega

/-- A header behind which the parser accepts. -/
theorem Needs.extract_accept (d : α) : Needs (P4.extract f store P4.accept) hdr fun _ => f.width :=
  .extract d (fun _ _ => 0) (fun _ => rfl) fun _ => .accept

/-- The width of the header that the egress looks for behind a ring type. -/
def ownWidth (type : BitVec 16) : Nat :=
  if type = typeControlCheck then 32
  else if type = typeAppend then 224
  else if type = typeAppendResp then 224
  else if type = typeRead then 240
  else if type = typeReadResp then 240
  else if type = typeTail then 128
  else if type = typeSub then 160
  else 0

theorem ownWidth_eq_zero {type : BitVec 16} (h : type ∉ ringTypes) : ownWidth type = 0 := by
  simp only [ringTypes, List.mem_cons, List.not_mem_nil, or_false, not_or] at h
  simp [ownWidth, h]

theorem needs_selectType (hdr : Headers) :
    Needs (selectType accept) hdr fun _ => ownWidth hdr.ringType.type := by
  refine selectType_cases (C := fun type run => ∀ l, (run l).isSome = true ↔
    ownWidth type ≤ l.length) ?_ ?_ ?_ ?_ ?_ ?_ ?_ Needs.accept ?_
  · exact Needs.extract_accept {}
  · exact Needs.extract_accept {}
  · exact Needs.extract_accept {}
  · exact Needs.extract_accept {}
  · exact Needs.extract_accept {}
  · exact Needs.extract_accept {}
  · exact Needs.extract_accept {}
  · intro type htype
    rw [ownWidth_eq_zero htype]
    exact Needs.accept

/-! The bits that the egress takes for headers, from one state on. -/

def ringTypeWidth (l : List Bool) : Nat := 96 + ownWidth (RingType.format.peek {} l).type

def udpWidth (l : List Bool) : Nat := 64 + ringTypeWidth (l.drop 64)

def ipv4Width (l : List Bool) : Nat := 160 + udpWidth (l.drop 160)

def ethernetWidth (l : List Bool) : Nat :=
  112 + if (Ethernet.format.peek {} l).etherType = typeControl then 112
    else ipv4Width (l.drop 112)

/-- The `app_id` that the egress finds at the front of a packet. -/
def appId (l : List Bool) : BitVec 3 := (PktgenTimer.format.peek {} l).appId

/-- The bits that the egress takes for headers in a packet that it does not take for a mirror copy:
the `app_id` at the front decides whether it finds a timer header. -/
def headersWidth (l : List Bool) : Nat :=
  if appId l = 1 then 48 + ethernetWidth (l.drop 48)
  else ethernetWidth l

theorem needs_parseRingType : Needs (parseRingType accept) hdr ringTypeWidth :=
  .extract {} (fun x _ => ownWidth x.type) (fun _ => rfl) fun _ => needs_selectType _

theorem needs_parseUdp : Needs (parseUdp accept) hdr udpWidth :=
  .extract {} (fun _ => ringTypeWidth) (fun _ => rfl) fun _ => needs_parseRingType

theorem needs_parseIpv4 : Needs (parseIpv4 accept) hdr ipv4Width :=
  .extract {} (fun _ => udpWidth) (fun _ => rfl) fun _ => needs_parseUdp

theorem needs_parseEthernet : Needs (parseEthernet accept) hdr ethernetWidth := by
  refine .extract {} (fun x l => if x.etherType = typeControl then 112 else ipv4Width l)
    (fun _ => rfl) ?_
  intro x l
  unfold selectEtherType
  split
  · exact Needs.extract_accept {} l
  · exact needs_parseIpv4 l

theorem needs_parsePktgenTimer :
    Needs (parsePktgenTimer accept) hdr fun l => 48 + ethernetWidth (l.drop 48) :=
  .extract {} (fun _ => ethernetWidth) (fun _ => rfl) fun _ => needs_parseEthernet

theorem le_headersWidth (l : List Bool) : 48 ≤ headersWidth l := by
  unfold headersWidth ethernetWidth
  split
  · omega
  · omega

/-! ## The egress -/

theorem parseMaybePktgen_isSome :
    (MyEgressParser.parseMaybePktgen l).isSome = true ↔ headersWidth l ≤ l.length := by
  by_cases hle : 48 ≤ l.length
  · unfold MyEgressParser.parseMaybePktgen headersWidth appId
    simp only [Option.bind_eq_bind, BitFormat.read_of_le (f := PktgenTimer.format) {} hle,
      Option.bind_some]
    split
    · exact needs_parsePktgenTimer l
    · exact needs_parseEthernet l
  · have hnone : PktgenTimer.format.read l = none :=
      BitFormat.read_eq_none_iff.2 (by simpa using hle)
    have h48 := le_headersWidth l
    simp [MyEgressParser.parseMaybePktgen, hnone]
    omega

/-- What the egress parser read, the deparser writes again. -/
theorem parseMaybePktgen_reemits (h : MyEgressParser.parseMaybePktgen l = some (hdr, r)) :
    MyDeparser hdr ++ r = l := by
  have hethernet : ∀ t, Reemits (wireWith fun _ => []) (parseEthernet accept) { timer := t } :=
    fun t => reemits_parseEthernet t (fun _ _ _ _ => .accept) fun _ _ => rfl
  simp only [MyEgressParser.parseMaybePktgen, Option.bind_eq_bind, Option.bind_eq_some_iff,
    Prod.exists] at h
  obtain ⟨t, _, -, h⟩ := h
  rw [MyDeparser_eq]
  split at h
  · rw [Reemits.extract (by simp [wireWith]) hethernet l hdr r h]
    rfl
  · rw [hethernet {} l hdr r h]
    rfl

theorem parseMaybePktgen_eq (l : List Bool) :
    (MyEgressParser.parseMaybePktgen l).map (fun p => MyDeparser (MyEgress 0 p.1) ++ p.2) =
      if headersWidth l ≤ l.length then some l else none := by
  have hsome := parseMaybePktgen_isSome (l := l)
  cases h : MyEgressParser.parseMaybePktgen l with
  | none =>
    rw [h] at hsome
    rw [if_neg (by simpa using hsome)]
    rfl
  | some q =>
    rw [h] at hsome
    rw [if_pos (by simpa using hsome), Option.map_some, ← parseMaybePktgen_reemits h]
    rfl

/-- The byte by which the egress recognizes a mirror copy. -/
def firstByte (l : List Bool) : BitVec 8 := mirrorFormat.peek 0 l

/-- **The egress leaves a packet as it is or loses it**; it loses the first byte of what it takes for
a mirror copy. -/
theorem egress_eq (l : List Bool) : egress l =
    if firstByte l = pktTypeMirror then
      if headersWidth (l.drop 8) ≤ (l.drop 8).length then some (l.drop 8) else none
    else if headersWidth l ≤ l.length then some l else none := by
  rw [← parseMaybePktgen_eq, ← parseMaybePktgen_eq]
  unfold egress MyEgressParser
  by_cases hle : 8 ≤ l.length
  · have hread : mirrorFormat.read l = some (firstByte l, l.drop 8) :=
      BitFormat.read_of_le (f := mirrorFormat) 0 hle
    simp only [hread, Option.bind_eq_bind, Option.bind_some, Option.pure_def,
      MyEgressParser.parseMirror]
    split
    · rw [Option.map_eq_bind]; rfl
    · rw [Option.map_eq_bind]; rfl
  · have hnone : mirrorFormat.read l = none :=
      BitFormat.read_eq_none_iff.2 (by simpa [mirrorFormat, BitFormat.field] using hle)
    have hbyte : firstByte l ≠ pktTypeMirror := by
      simp [firstByte, BitFormat.peek, hnone, pktTypeMirror]
    have h48 := le_headersWidth l
    rw [if_neg hbyte, parseMaybePktgen_eq, if_neg (by omega)]
    simp [hnone]

/-! ## What `MyParser` accepts -/

/-- What holds of the headers whenever the parser accepts. -/
def Ensures (P : ParserState) (hdr : Headers) (Q : Headers → Prop) : Prop :=
  ∀ l hdr' r, P hdr l = some (hdr', r) → Q hdr'

variable {Q : Headers → Prop}

theorem Ensures.accept (h : Q hdr) : Ensures accept hdr Q := by
  intro l hdr' r heq
  simp only [P4.accept, Option.some.injEq, Prod.mk.injEq] at heq
  exact heq.1 ▸ h

theorem Ensures.extract (hnext : ∀ x, f.valid x = true → Ensures next (store x hdr) Q) :
    Ensures (extract f store next) hdr Q := by
  intro l hdr' r h
  simp only [P4.extract, Option.bind_eq_some_iff, Prod.exists] at h
  obtain ⟨x, l', hread, h⟩ := h
  exact hnext x (f.read_eq_some_iff.1 hread).1 l' hdr' r h

/-- The validity bits of the headers that a ring type announces. -/
def ownBits (hdr : Headers) : List Bool :=
  [hdr.cntrlCheck.isValid, hdr.append.isValid, hdr.read.isValid, hdr.tail.isValid,
    hdr.sub.isValid, hdr.startView.isValid]

/-- What they are for each ring type. -/
def announced (type : BitVec 16) : List Bool :=
  [type == typeControlCheck, type == typeAppend || type == typeAppendResp,
    type == typeRead || type == typeReadResp, type == typeTail, type == typeSub, type == typeView]

theorem announced_of_not_mem {type : BitVec 16} (h : type ∉ ringTypes) :
    announced type = List.replicate 6 false := by
  simp only [ringTypes, List.mem_cons, List.not_mem_nil, or_false, not_or] at h
  simp [announced, h, List.replicate]

theorem parsed_of_ownBits (he : hdr.ethernet.isValid = true)
    (htype : hdr.ethernet.etherType ≠ typeControl) (hc : hdr.cntrl.isValid = false)
    (hi : hdr.ipv4.isValid = true) (hu : hdr.udp.isValid = true)
    (hrt : hdr.ringType.isValid = true) (hown : ownBits hdr = announced hdr.ringType.type) :
    hdr.Parsed := by
  simp only [ownBits, announced, List.cons.injEq, and_true] at hown
  obtain ⟨hcheck, happ, hread, htail, hsub, hview⟩ := hown
  constructor <;> simp [*]

/-- A well-formed packet with this timer header. -/
structure Accepted (t : PktgenTimer) (hdr : Headers) : Prop where
  timer : hdr.timer = t
  parsed : hdr.Parsed

section
variable {t : PktgenTimer} {e : Ethernet} {i : Ipv4} {u : Udp} {rt : RingType}
  (he : e.isValid = true) (htype : e.etherType ≠ typeControl) (hi : i.isValid = true)
  (hu : u.isValid = true) (hrt : rt.isValid = true)
include he htype hi hu hrt

/-- The last header is stored beside the others, and is the one that the ring type announces. -/
theorem ensures_own {type : BitVec 16} (hrtype : rt.type = type)
    (hstore : ∀ x, store x (common t e i u rt) = { store x (common t e i u rt) with
      timer := t, ethernet := e, cntrl := {}, ipv4 := i, udp := u, ringType := rt })
    (hown : ∀ x, f.valid x = true → ownBits (store x (common t e i u rt)) = announced type) :
    Ensures (extract f store accept) (common t e i u rt) (Accepted t) := by
  refine .extract fun x hx => .accept ?_
  have hbits := hown x hx
  rw [hstore x, ← hrtype] at hbits
  rw [hstore x]
  exact ⟨rfl, parsed_of_ownBits he htype rfl hi hu hrt hbits⟩

/-- What is found behind a ring type is what it announces. -/
theorem ensures_selectType :
    Ensures (selectType parseView) (common t e i u rt) (Accepted t) := by
  refine selectType_cases (C := fun type run => rt.type = type → ∀ l hdr' r,
    run l = some (hdr', r) → Accepted t hdr') ?_ ?_ ?_ ?_ ?_ ?_ ?_ ?_ ?_ rfl
  · intro hrtype
    refine ensures_own he htype hi hu hrt hrtype (fun _ => rfl) fun x hx => ?_
    exact congrArg (fun b => [b, false, false, false, false, false]) hx
  · intro hrtype
    refine ensures_own he htype hi hu hrt hrtype (fun _ => rfl) fun x hx => ?_
    exact congrArg (fun b => [false, b, false, false, false, false]) hx
  · intro hrtype
    refine ensures_own he htype hi hu hrt hrtype (fun _ => rfl) fun x hx => ?_
    exact congrArg (fun b => [false, b, false, false, false, false]) hx
  · intro hrtype
    refine ensures_own he htype hi hu hrt hrtype (fun _ => rfl) fun x hx => ?_
    exact congrArg (fun b => [false, false, b, false, false, false]) hx
  · intro hrtype
    refine ensures_own he htype hi hu hrt hrtype (fun _ => rfl) fun x hx => ?_
    exact congrArg (fun b => [false, false, b, false, false, false]) hx
  · intro hrtype
    refine ensures_own he htype hi hu hrt hrtype (fun _ => rfl) fun x hx => ?_
    exact congrArg (fun b => [false, false, false, b, false, false]) hx
  · intro hrtype
    refine ensures_own he htype hi hu hrt hrtype (fun _ => rfl) fun x hx => ?_
    exact congrArg (fun b => [false, false, false, false, b, false]) hx
  · intro hrtype
    refine ensures_own he htype hi hu hrt hrtype (fun _ => rfl) fun x hx => ?_
    exact congrArg (fun b => [false, false, false, false, false, b]) hx
  · intro type hother hrtype
    refine Ensures.accept ⟨rfl, parsed_of_ownBits he htype rfl hi hu hrt ?_⟩
    exact (announced_of_not_mem (hrtype ▸ hother)).symm

end

theorem ensures_parseEthernet (t : PktgenTimer) : Ensures (parseEthernet parseView) { timer := t }
    (Accepted t) := by
  refine .extract ?_
  intro e he l hdr' r h
  unfold selectEtherType at h
  split at h
  · rename_i htype
    refine Ensures.extract (Q := Accepted t) (fun c hc => .accept ⟨rfl, ?_⟩) l hdr' r h
    have he' : e.isValid = true := he
    have hc' : c.isValid = true := hc
    have htype' : e.etherType = typeControl := htype
    constructor <;> simp [he', hc', htype']
  · rename_i htype
    refine Ensures.extract (Q := Accepted t) (fun i hi => ?_) l hdr' r h
    exact .extract fun u hu => .extract fun rt hrt => ensures_selectType he htype hi hu hrt

/-- **What `MyParser` accepts is well formed, and nothing of it is lost.** -/
theorem MyParser_some {port : BitVec 9} (h : MyParser port l = some (hdr, payload)) :
    hdr.Parsed ∧ (hdr.timer.isValid = true ↔ port ∈ pktgenPorts) ∧ wire hdr ++ payload = l := by
  have hwire : ∀ t, Reemits wire (parseEthernet parseView) { timer := t } := fun t =>
    reemits_parseEthernet t (reemits_parseView t) fun _ => StartViewChange.emit_format
  unfold MyParser at h
  split at h
  · rename_i hport
    have hens : Ensures (parsePktgenTimer parseView) {}
        fun hdr => hdr.timer.isValid = true ∧ hdr.Parsed := by
      refine .extract fun t ht l' hdr' r' h' => ?_
      obtain ⟨htimer, hparsed⟩ := ensures_parseEthernet t l' hdr' r' h'
      exact ⟨htimer ▸ ht, hparsed⟩
    obtain ⟨ht, hparsed⟩ := hens l hdr payload h
    refine ⟨hparsed, iff_of_true ht hport, ?_⟩
    rw [Reemits.extract (by simp [wire, wireWith]) hwire l hdr payload h]
    rfl
  · rename_i hport
    obtain ⟨ht, hparsed⟩ := ensures_parseEthernet {} l hdr payload h
    refine ⟨hparsed, iff_of_false (by simp [ht]) hport, ?_⟩
    rw [hwire {} l hdr payload h]
    rfl

/-! ## What the ingress emits -/

/-- The ingress deparser writes a view change in front of its ring type. -/
theorem MyIngressDeparser_eq_iff (hp : hdr.Parsed) : MyIngressDeparser hdr = wire hdr ↔
    (hdr.startView.isValid = true →
      StartViewChange.format.write hdr.startView = RingType.format.write hdr.ringType) := by
  unfold MyIngressDeparser wire wireWith
  simp only [List.append_cancel_left_eq]
  cases hv : hdr.startView.isValid with
  | false =>
    rw [StartViewChange.emit_format hv, List.nil_append, List.nil_append]
    exact iff_of_true rfl fun h => absurd h Bool.false_ne_true
  | true =>
    have hrt : hdr.ringType.isValid = true := by
      have hview := hp.startView
      rw [hv] at hview
      have hcntrl : (!hdr.cntrl.isValid) = true := by
        simp only [Bool.true_eq, Bool.and_eq_true] at hview
        exact hview.1
      rw [hp.ringType, hcntrl]
    rw [BitFormat.emit_valid (f := StartViewChange.format) hv,
      BitFormat.emit_valid (f := RingType.format) hrt]
    simp only [true_imp_iff]
    constructor
    · intro h
      refine (List.append_inj h ?_).1
      rw [StartViewChange.format.length_write, RingType.format.length_write]
      rfl
    · intro h
      rw [h]

/-- The bits behind the timer header. -/
def body (hdr : Headers) : List Bool := wire { hdr with timer := {} }

theorem wire_eq (hdr : Headers) : wire hdr = PktgenTimer.format.emit hdr.timer ++ body hdr := by
  have h0 : PktgenTimer.format.emit {} = [] := rfl
  rw [body, wire, wire, wireWith, wireWith, h0, List.nil_append]

theorem ownWidth_le (hp : hdr.Parsed) (hc : hdr.cntrl.isValid = false) :
    ownWidth hdr.ringType.type ≤ (AppendEntry.format.emit hdr.append ++
      (ReadEntry.format.emit hdr.read ++ (TailReq.format.emit hdr.tail ++
      (SubscribeReq.format.emit hdr.sub ++
        ControlPktChecker.format.emit hdr.cntrlCheck)))).length := by
  simp only [List.length_append, BitFormat.length_emit, AppendEntry.valid_format,
    ReadEntry.valid_format, TailReq.valid_format, SubscribeReq.valid_format,
    ControlPktChecker.valid_format, AppendEntry.width_format, ReadEntry.width_format,
    TailReq.width_format, SubscribeReq.width_format, ControlPktChecker.width_format, hp.append,
    hp.read, hp.tail, hp.sub, hp.cntrlCheck, hc]
  generalize hdr.ringType.type = type
  unfold ownWidth
  split
  · subst type
    decide
  split
  · subst type
    decide
  split
  · subst type
    decide
  split
  · subst type
    decide
  split
  · subst type
    decide
  split
  · subst type
    decide
  split
  · subst type
    decide
  · exact Nat.zero_le _

theorem ringTypeWidth_write {rt : RingType} (hrt : rt.isValid = true) (l : List Bool) :
    ringTypeWidth (RingType.format.write rt ++ l) = 96 + ownWidth rt.type := by
  rw [ringTypeWidth, BitFormat.peek_write (f := RingType.format) hrt]

theorem udpWidth_write (u : Udp) (l : List Bool) :
    udpWidth (Udp.format.write u ++ l) = 64 + ringTypeWidth l :=
  congrArg (fun l => 64 + ringTypeWidth l) (BitFormat.drop_write (f := Udp.format) u l)

theorem ipv4Width_write (i : Ipv4) (l : List Bool) :
    ipv4Width (Ipv4.format.write i ++ l) = 160 + udpWidth l :=
  congrArg (fun l => 160 + udpWidth l) (BitFormat.drop_write (f := Ipv4.format) i l)

theorem ethernetWidth_write {e : Ethernet} (he : e.isValid = true) (l : List Bool) :
    ethernetWidth (Ethernet.format.write e ++ l) =
      112 + if e.etherType = typeControl then 112 else ipv4Width l := by
  have hdrop : (Ethernet.format.write e ++ l).drop 112 = l :=
    BitFormat.drop_write (f := Ethernet.format) e l
  rw [ethernetWidth, BitFormat.peek_write (f := Ethernet.format) he, hdrop]

/-- A packet that is parsed again as what it is has all the bits that are asked for. -/
theorem ethernetWidth_le (hp : hdr.Parsed) :
    ethernetWidth (body hdr ++ payload) ≤ (body hdr ++ payload).length := by
  have h0 : PktgenTimer.format.emit {} = [] := rfl
  unfold body wire wireWith
  rw [h0, List.nil_append, BitFormat.emit_valid (f := Ethernet.format) hp.ethernet,
    List.append_assoc, ethernetWidth_write hp.ethernet, List.length_append,
    Ethernet.format.length_write, Ethernet.width_format]
  cases hc : hdr.cntrl.isValid with
  | true =>
    have htype : hdr.ethernet.etherType = typeControl := by
      simpa [hc] using hp.cntrl
    rw [if_pos htype, BitFormat.emit_valid (f := ControlPkt.format) hc, List.append_assoc,
      List.length_append, ControlPkt.format.length_write, ControlPkt.width_format]
    omega
  | false =>
    have htype : hdr.ethernet.etherType ≠ typeControl := by
      simpa [hc] using hp.cntrl
    have hi : hdr.ipv4.isValid = true := by rw [hp.ipv4, hc]; rfl
    have hu : hdr.udp.isValid = true := by rw [hp.udp, hc]; rfl
    have hrt : hdr.ringType.isValid = true := by rw [hp.ringType, hc]; rfl
    have hown := ownWidth_le hp hc
    rw [if_neg htype, BitFormat.emit_valid (f := Ipv4.format) hi,
      BitFormat.emit_valid (f := Udp.format) hu, BitFormat.emit_valid (f := RingType.format) hrt,
      ControlPkt.emit_format hc, List.nil_append, List.append_assoc, ipv4Width_write,
      List.append_assoc, udpWidth_write, List.append_assoc, ringTypeWidth_write hrt,
      List.length_append, List.length_append, List.length_append, List.append_assoc,
      List.length_append, List.length_append, Ipv4.format.length_write, Udp.format.length_write,
      RingType.format.length_write]
    simp only [Ipv4.width_format, Udp.width_format, RingType.width_format]
    omega

/-- A packet that shows its timer header as the egress expects it has all the bits that are asked
for. -/
theorem headersWidth_le (hp : hdr.Parsed)
    (ht : hdr.timer.isValid = true ↔ appId (wire hdr ++ payload) = 1) :
    headersWidth (wire hdr ++ payload) ≤ (wire hdr ++ payload).length := by
  have hbody : ethernetWidth (body hdr ++ payload) ≤ (body hdr ++ payload).length :=
    ethernetWidth_le hp
  unfold headersWidth
  rw [wire_eq] at ht ⊢
  cases hv : hdr.timer.isValid with
  | true =>
    rw [BitFormat.emit_valid (f := PktgenTimer.format) hv, List.append_assoc] at ht ⊢
    have hdrop : (PktgenTimer.format.write hdr.timer ++ (body hdr ++ payload)).drop 48 =
        body hdr ++ payload := BitFormat.drop_write (f := PktgenTimer.format) hdr.timer _
    rw [if_pos (ht.1 hv), hdrop, List.length_append, PktgenTimer.format.length_write,
      PktgenTimer.width_format]
    omega
  | false =>
    rw [PktgenTimer.emit_format hv, List.nil_append] at ht ⊢
    have happ : ¬ appId (body hdr ++ payload) = 1 := by
      rw [← ht, hv]
      exact Bool.false_ne_true
    rw [if_neg happ]
    exact hbody

/-! ## The way of a packet -/

/-- The condition under which the egress sends out what the ingress has left: the packet is not
taken for a mirror copy, the view change could stand in the place of the ring type, and the timer
header is recognized, or the packet is long enough for the headers that are found instead. -/
structure Reparsable (hdr : Headers) (payload : List Bool) : Prop where
  notMirror : firstByte (MyIngressDeparser hdr ++ payload) ≠ pktTypeMirror
  view : hdr.startView.isValid = true →
    StartViewChange.format.write hdr.startView = RingType.format.write hdr.ringType
  timer : (hdr.timer.isValid = true ↔ appId (MyIngressDeparser hdr ++ payload) = 1) ∨
    headersWidth (MyIngressDeparser hdr ++ payload) ≤
      (MyIngressDeparser hdr ++ payload).length

theorem length_MyIngressDeparser (hdr : Headers) :
    (MyIngressDeparser hdr).length = (wire hdr).length := by
  simp only [MyIngressDeparser, wire, wireWith, List.length_append]
  omega

theorem egress_iff (hp : hdr.Parsed) (payload : List Bool) :
    egress (MyIngressDeparser hdr ++ payload) = some (wire hdr ++ payload) ↔
      Reparsable hdr payload := by
  have hlen : (MyIngressDeparser hdr ++ payload).length = (wire hdr ++ payload).length := by
    rw [List.length_append, List.length_append, length_MyIngressDeparser]
  rw [egress_eq]
  by_cases hm : firstByte (MyIngressDeparser hdr ++ payload) = pktTypeMirror
  · -- a byte is missing
    refine iff_of_false ?_ fun h => h.notMirror hm
    rw [if_pos hm]
    split
    · rename_i hle
      have h48 := le_headersWidth ((MyIngressDeparser hdr ++ payload).drop 8)
      intro heq
      rw [Option.some.injEq] at heq
      rw [← heq] at hlen
      rw [List.length_drop] at hlen hle
      omega
    · exact (Option.some_ne_none _).symm
  rw [if_neg hm]
  constructor
  · intro h
    split at h
    · rename_i hle
      rw [Option.some.injEq, List.append_cancel_right_eq] at h
      exact ⟨hm, (MyIngressDeparser_eq_iff hp).1 h, .inr hle⟩
    · cases h
  · rintro ⟨-, hview, htimer⟩
    have heq := (MyIngressDeparser_eq_iff hp).2 hview
    rw [heq] at htimer ⊢
    rw [if_pos]
    rcases htimer with ht | hle
    · exact headersWidth_le hp ht
    · exact hle

/-- **Exactly the reparsable packets leave the switch as the ingress has left them.** -/
theorem reparse_iff {port : BitVec 9} {packet : List Bool} {p : Program} {t : Tables}
    {tstamp : BitVec 48} {regs : Registers} {out : Pipe}
    (h : MyParser port packet = some (hdr, payload))
    (ha : MyIngress.apply p t tstamp regs hdr = some out) :
    egress (MyIngressDeparser out.hdr ++ payload) = some (wire out.hdr ++ payload) ↔
      Reparsable out.hdr payload :=
  egress_iff (MyIngress.apply_parsed (MyParser_some h).1 ha) payload

/-! ## Two tail requests -/

/-- A tail request for the machine with this address. -/
def tailTo (dstAddr : BitVec 48) : Headers :=
  { Headers.tailPkt with ethernet := { isValid := true, dstAddr := dstAddr } }

/-- It goes on to the next switch. -/
def tailTables : Tables := { processTail := fun _ => .forwardTail 1 }

theorem extract_emit {x : α} (hx : f.valid x = true) (l : List Bool) :
    extract f store next hdr (f.emit x ++ l) = next (store x hdr) l := by
  rw [extract, BitFormat.emit_valid hx, BitFormat.read_write hx, Option.bind_some]

theorem selectType_tail {onView : ParserState} (h : hdr.ringType.type = typeTail) :
    selectType onView hdr = parseTail hdr := by
  unfold selectType
  simp only [h]
  rw [if_neg (by decide), if_neg (by decide), if_neg (by decide), if_neg (by decide),
    if_neg (by decide), if_pos trivial]

theorem MyParser_tailTo (dstAddr : BitVec 48) :
    MyParser 1 (wire (tailTo dstAddr)) = some (tailTo dstAddr, []) := by
  have hwire : wire (tailTo dstAddr) = Ethernet.format.emit (tailTo dstAddr).ethernet ++
      (Ipv4.format.emit (tailTo dstAddr).ipv4 ++ (Udp.format.emit (tailTo dstAddr).udp ++
      (RingType.format.emit (tailTo dstAddr).ringType ++
      (TailReq.format.emit (tailTo dstAddr).tail ++ [])))) := rfl
  have hport : (1 : BitVec 9) ∉ pktgenPorts := by decide
  have hipv4 : ¬ (0 : BitVec 16) = typeControl := by decide
  rw [MyParser, if_neg hport, hwire, parseEthernet, extract_emit rfl]
  refine (congrFun (if_neg hipv4) _).trans ?_
  rw [parseIpv4, extract_emit rfl, parseUdp, extract_emit rfl, parseRingType, extract_emit rfl]
  refine (congrFun (selectType_tail rfl) _).trans ?_
  exact extract_emit (f := TailReq.format) rfl []

theorem apply_tailTo (dstAddr : BitVec 48) : ∃ out,
    MyIngress.apply .sequencingOnly tailTables 0 {} (tailTo dstAddr) = some out ∧
      out.tm.ucastEgressPort = some 1 ∧ out.dprsr.dropCtl = 0 ∧ out.dprsr.mirrorType = 0 ∧
      out.hdr.timer = {} ∧ out.hdr.startView = {} ∧
      out.hdr.ethernet = { isValid := true, dstAddr := dstAddr } := by
  refine ⟨_, MyIngress.apply_tail_eq ⟨rfl, rfl, rfl, rfl, rfl⟩ _ _ _ _, ?_⟩
  rw [MyIngress.route_of_none rfl rfl rfl rfl rfl rfl]
  exact ⟨rfl, rfl, rfl, rfl, rfl, rfl⟩

/-- What the egress sees first is the address. -/
theorem MyIngressDeparser_tail {dstAddr : BitVec 48} (ht : hdr.timer = {})
    (he : hdr.ethernet = { isValid := true, dstAddr := dstAddr }) : ∃ l,
      MyIngressDeparser hdr = Bits.write dstAddr ++ l := by
  have htimer : hdr.timer.isValid = false := by rw [ht]
  have hethernet : Ethernet.format.emit hdr.ethernet =
      Bits.write dstAddr ++ (Bits.write (0 : BitVec 48) ++ Bits.write (0 : BitVec 16)) := by
    rw [he]
    rfl
  rw [MyIngressDeparser, PktgenTimer.emit_format htimer, List.nil_append, hethernet,
    List.append_assoc]
  exact ⟨_, rfl⟩

theorem write_zero_timer : Bits.write (0 : BitVec 48) =
    PktgenTimer.format.write { isValid := true } := by
  have hsplit : (0 : BitVec 48) = (0 : BitVec 3) ++ ((0 : BitVec 2) ++ ((0 : BitVec 3) ++
    ((0 : BitVec 8) ++ ((0 : BitVec 16) ++ (0 : BitVec 16))))) := by decide
  rw [hsplit]
  simp only [Bits.write_append]
  rfl

/-- An address begins with its first byte. -/
theorem firstByte_address (b : BitVec 8) (x : BitVec 40) (l : List Bool) :
    firstByte (Bits.write (b ++ x) ++ l) = b := by
  rw [Bits.write_append, List.append_assoc]
  exact BitFormat.peek_write (f := mirrorFormat) rfl _ _

theorem reparse_iff_tail : ∃ packet out, MyParser 1 packet = some (tailTo 0, []) ∧
    MyIngress.apply .sequencingOnly tailTables 0 {} (tailTo 0) = some out ∧
      egress (MyIngressDeparser out.hdr ++ []) = some (wire out.hdr ++ []) := by
  obtain ⟨out, ha, -, -, -, ht, hv, he⟩ := apply_tailTo 0
  obtain ⟨l, hl⟩ := MyIngressDeparser_tail ht he
  refine ⟨_, out, MyParser_tailTo 0, ha, (reparse_iff (MyParser_tailTo 0) ha).2 ?_⟩
  have hfirst : firstByte (MyIngressDeparser out.hdr ++ []) = 0 := by
    have hsplit : (0 : BitVec 48) = (0 : BitVec 8) ++ (0 : BitVec 40) := by decide
    rw [hl, List.append_assoc, hsplit, firstByte_address]
  have happ : appId (MyIngressDeparser out.hdr ++ []) = 0 := by
    rw [hl, List.append_assoc, write_zero_timer]
    exact congrArg _ (BitFormat.peek_write (f := PktgenTimer.format) rfl _ _)
  constructor
  · rw [hfirst]
    decide
  · rw [hv]
    exact fun h => absurd h Bool.false_ne_true
  · refine .inl (iff_of_false ?_ ?_)
    · rw [ht]
      exact Bool.false_ne_true
    · rw [happ]
      decide

/-- The first byte of an address is taken for the header of a mirror copy. -/
theorem mirror_address_lost : ∃ packet hdr out, MyParser 1 packet = some (hdr, []) ∧
    MyIngress.apply .sequencingOnly tailTables 0 {} hdr = some out ∧
      out.tm.ucastEgressPort = some 1 ∧ out.dprsr.dropCtl = 0 ∧ out.dprsr.mirrorType = 0 ∧
      egress (MyIngressDeparser out.hdr ++ []) ≠ some (wire out.hdr ++ []) := by
  obtain ⟨out, ha, hport, hdrop, hm, ht, -, he⟩ := apply_tailTo 0x020000000000
  obtain ⟨l, hl⟩ := MyIngressDeparser_tail ht he
  have hp := MyIngress.apply_parsed (MyParser_some (MyParser_tailTo _)).1 ha
  refine ⟨_, _, out, MyParser_tailTo 0x020000000000, ha, hport, hdrop, hm, fun h => ?_⟩
  refine ((egress_iff hp []).1 h).notMirror ?_
  have hsplit : (0x020000000000 : BitVec 48) = pktTypeMirror ++ (0 : BitVec 40) := by decide
  rw [hl, List.append_assoc, hsplit, firstByte_address]

end Pringles.P4
