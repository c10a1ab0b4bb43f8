import Pringles.Lib.Grouping
import Pringles.Lib.Machine
import Pringles.Software.Network

/-!
# Packets sent in batches

`Network::send_udp_packet` collects packets in one buffer until a call completes the batch: by its
size, by the number of packets, or because the timer has run out. Then the datagram has all packets
that were collected, in their order, and their number in its first header (`batches_run`). It goes to
where the completing call sends, and the other packets in it go there with it (`delivered_iff`).
-/

namespace Pringles.Software

open Bytes

/-- A call of `send_udp_packet`: the address, the packet, and whether the timer is still running. -/
structure SendCall (δ : Type) where
  dest : δ
  packet : List Byte
  timely : Bool

/-- The members of `Network` that have to do with batches. -/
structure SendBatch where
  finalSendPacket : List Byte
  runningPktSize : Nat
  numPkts : Nat

namespace SendBatch

structure Config where
  batchOn : Bool
  batchSize : Nat

variable {δ : Type}

/-- The packet goes behind those in the buffer, or takes their place. -/
def load (cfg : Config) (s : SendBatch) (packet : List Byte) : Option SendBatch :=
  if packet = [] then some s
  else if cfg.batchOn then
    (memcpy s.finalSendPacket s.runningPktSize packet).map fun buf =>
      ⟨buf, s.runningPktSize + packet.length, s.numPkts + 1⟩
  else (memcpy s.finalSendPacket 0 packet).map fun buf => ⟨buf, packet.length, 1⟩

/-- Whether a call leaves the packet in the buffer. -/
def Waits (cfg : Config) (s : SendBatch) (c : SendCall δ) : Prop :=
  cfg.batchOn = true ∧ s.numPkts < cfg.batchSize ∧
    s.runningPktSize + c.packet.length < maxPacketSize ∧ c.timely = true

instance (cfg : Config) (s : SendBatch) (c : SendCall δ) : Decidable (s.Waits cfg c) :=
  inferInstanceAs (Decidable (_ ∧ _ ∧ _ ∧ _))

/-- `Network::send_udp_packet`, with the datagram that it sends. -/
def sendUdpPacket (cfg : Config) (s : SendBatch) (c : SendCall δ) :
    Option (SendBatch × Option (δ × List Byte)) :=
  (s.load cfg c.packet).map fun s =>
    if s.Waits cfg c then (s, none)
    else if s.runningPktSize = 0 ∨ s.numPkts = 0 then (s, none)
    else
      let buf := setNumEntries s.finalSendPacket (htons (BitVec.ofNat 16 s.numPkts))
      (⟨buf, 0, 0⟩, some (c.dest, buf.take s.runningPktSize))

/-- What a call found, and the datagram that it sent. -/
abbrev Output (δ : Type) := SendBatch × Option (δ × List Byte)

variable (δ) in
def machine (cfg : Config) : Machine SendBatch (SendCall δ) (Output δ) :=
  ⟨fun s c => (s.sendUdpPacket cfg c).map fun q => (q.1, s, q.2)⟩

/-- What the constructor leaves. -/
structure Fresh (s : SendBatch) : Prop where
  length : s.finalSendPacket.length = maxPacketSize
  size : s.runningPktSize = 0
  num : s.numPkts = 0

/-! ## What was given and what was sent -/

/-- The call, unless it has no packet. -/
def given (c : SendCall δ) : List (SendCall δ) := if c.packet = [] then [] else [c]

/-- The bytes of some packets, one after the other. -/
def bytes (g : List (SendCall δ)) : List Byte := g.flatMap SendCall.packet

/-- The datagrams of a run. -/
def datagrams (tr : List (SendCall δ × Output δ)) : List (δ × List Byte) :=
  tr.filterMap fun x => x.2.2

/-- The calls whose packets went together, and those whose packets are pending. -/
def batches (tr : List (SendCall δ × Output δ)) : Grouping (SendCall δ) :=
  Grouping.group (fun x => given x.1) (fun x => x.2.2) tr

/-- The bytes in the buffer that have not been sent. -/
def pending (s : SendBatch) : List Byte := s.finalSendPacket.take s.runningPktSize

/-- A datagram is what some calls were given, but for the field `num_entries` in front. -/
def Carries (d : List Byte) (g : List (SendCall δ)) : Prop := ∃ v, d = setNumEntries (bytes g) v

/-- The field `num_entries` is the number of packets. -/
def Numbers (d : List Byte) (g : List (SendCall δ)) : Prop :=
  (ntohs (numEntries d)).toNat = g.length

/-- All packets of a datagram were given for the address that it goes to. -/
def Delivers (d : δ × List Byte) (g : List (SendCall δ)) : Prop := ∀ c ∈ g, c.dest = d.1

/-- The call is the last one of its batch: it brings the number of packets or of bytes to the limit,
or the timer has run out. -/
def Completes (batchSize : Nat) (s : SendBatch) (c : SendCall δ) : Prop :=
  batchSize ≤ s.numPkts + (given c).length ∨
    maxPacketSize ≤ s.runningPktSize + c.packet.length + c.packet.length ∨ c.timely = false

instance (batchSize : Nat) (s : SendBatch) (c : SendCall δ) :
    Decidable (s.Completes batchSize c) :=
  inferInstanceAs (Decidable (_ ∨ _ ∨ _))

variable {cfg : Config} {batchSize : Nat} {s s' found : SendBatch} {c : SendCall δ}
  {g : List (SendCall δ)} {o : Option (δ × List Byte)} {d : δ × List Byte}
  {tr : List (SendCall δ × Output δ)}

theorem bytes_given (c : SendCall δ) : bytes (given c) = c.packet := by
  unfold given
  split
  · next h => rw [h]; rfl
  · exact List.flatMap_singleton ..

theorem bytes_append (g g' : List (SendCall δ)) : bytes (g ++ g') = bytes g ++ bytes g' :=
  List.flatMap_append

theorem bytes_flatten (gs : List (List (SendCall δ))) : bytes gs.flatten = gs.flatMap bytes := by
  induction gs with
  | nil => rfl
  | cons g gs ih => rw [List.flatten_cons, bytes_append, ih, List.flatMap_cons]

theorem bytes_flatMap_given (tr : List (SendCall δ × Output δ)) :
    bytes (tr.flatMap fun x => given x.1) = tr.flatMap fun x => x.1.packet := by
  induction tr with
  | nil => rfl
  | cons x tr ih => rw [List.flatMap_cons, bytes_append, ih, bytes_given, List.flatMap_cons]

theorem packet_of_mem_given {c' : SendCall δ} (h : c' ∈ given c) : c' = c ∧ c.packet ≠ [] := by
  unfold given at h
  split at h
  · cases h
  · next hne => exact ⟨List.mem_singleton.1 h, hne⟩

/-- A batch that carries no byte has no packet. -/
theorem eq_nil_of_bytes (hne : ∀ c ∈ g, c.packet ≠ []) (h : bytes g = []) : g = [] := by
  cases g with
  | nil => rfl
  | cons c g =>
    simp only [bytes, List.flatMap_cons, List.append_eq_nil_iff] at h
    exact absurd h.1 (hne c (.head _))

theorem length_bytes_ge {n : Nat} (h : ∀ c ∈ g, n ≤ c.packet.length) :
    n * g.length ≤ (bytes g).length := by
  induction g with
  | nil => simp
  | cons c g ih =>
    obtain ⟨hc, hg⟩ := List.forall_mem_cons.1 h
    have hrest := ih hg
    simp only [bytes, List.flatMap_cons, List.length_append, List.length_cons] at hrest ⊢
    rw [Nat.mul_succ]
    omega

/-- All calls with a packet, in order. -/
theorem flatten_batches (tr : List (SendCall δ × Output δ)) :
    (batches tr).closed.flatten ++ (batches tr).opened = tr.flatMap fun x => given x.1 :=
  Grouping.flatten_group tr

/-! ## What the buffer holds -/

/-- The buffer holds the packets of the calls `g`. -/
structure Holds (s : SendBatch) (g : List (SendCall δ)) : Prop where
  length : s.finalSendPacket.length = maxPacketSize
  size : s.runningPktSize = (bytes g).length
  num : s.numPkts = g.length
  pending : s.pending = bytes g
  packets : ∀ c ∈ g, c.packet ≠ []

theorem Fresh.holds (h : s.Fresh) : s.Holds ([] : List (SendCall δ)) where
  length := h.length
  size := h.size
  num := h.num
  pending := by rw [SendBatch.pending, h.size]; rfl
  packets _ hc := nomatch hc

namespace Holds

/-- Without batches the packet takes the place of nothing. -/
theorem load_eq (h : s.Holds g) (hoff : cfg.batchOn = false → g = []) (packet : List Byte) :
    s.load cfg packet = if packet = [] then some s else
      (memcpy s.finalSendPacket s.runningPktSize packet).map fun buf =>
        ⟨buf, s.runningPktSize + packet.length, s.numPkts + 1⟩ := by
  unfold SendBatch.load
  cases hon : cfg.batchOn with
  | true => rfl
  | false =>
    have hg := hoff hon
    have hsize := h.size
    have hnum := h.num
    subst hg
    simp only [bytes, List.flatMap_nil, List.length_nil] at hsize hnum
    rw [hsize, hnum]
    simp

/-- Only a packet that would not fit in the buffer is not taken. -/
theorem isSome_load (h : s.Holds g) (hoff : cfg.batchOn = false → g = []) (packet : List Byte) :
    (s.load cfg packet).isSome ↔ packet = [] ∨
      s.runningPktSize + packet.length ≤ maxPacketSize := by
  rw [h.load_eq hoff, ← h.length]
  split
  · next hnil => simp [hnil]
  · next hne => simp [hne, isSome_memcpy]

theorem load (h : s.Holds g) (hoff : cfg.batchOn = false → g = [])
    (hl : s.load cfg c.packet = some s') : s'.Holds (g ++ given c) := by
  rw [h.load_eq hoff] at hl
  unfold given
  split at hl
  · next hnil =>
    cases hl
    rwa [if_pos hnil, List.append_nil]
  · next hne =>
    obtain ⟨buf, hbuf, rfl⟩ := Option.map_eq_some_iff.1 hl
    obtain ⟨hlen, htake⟩ := memcpy_spec hbuf
    have hone : bytes (g ++ [c]) = bytes g ++ c.packet := by
      rw [bytes_append]
      exact congrArg (bytes g ++ ·) (List.flatMap_singleton ..)
    rw [if_neg hne]
    constructor
    · exact hlen.trans h.length
    · rw [hone, List.length_append, ← h.size]
    · rw [List.length_append, ← h.num]
      rfl
    · rw [hone, ← h.pending]
      exact htake
    · intro c' hc'
      rcases List.mem_append.1 hc' with hc' | hc'
      · exact h.packets c' hc'
      · exact List.mem_singleton.1 hc' ▸ hne

theorem empty_iff (h : s.Holds g) : (s.runningPktSize = 0 ∨ s.numPkts = 0) ↔ g = [] := by
  rw [h.size, h.num, List.length_eq_zero_iff, List.length_eq_zero_iff]
  refine ⟨?_, fun hg => .inr hg⟩
  rintro (hbytes | hg)
  · exact eq_nil_of_bytes h.packets hbytes
  · exact hg

theorem length_le (h : s.Holds g) : (bytes g).length ≤ maxPacketSize := by
  rw [← h.pending, ← h.length]
  exact List.length_take_le' ..

/-- What a call does to the buffer, and the datagram that it sends. -/
theorem send (h : s.Holds g) (hoff : cfg.batchOn = false → g = [])
    (hs : s.sendUdpPacket cfg c = some (s', o)) :
    (o = none ∧ s'.Holds (g ++ given c) ∧ (cfg.batchOn = false → g ++ given c = [])) ∨
      (s'.Holds ([] : List (SendCall δ)) ∧ g ++ given c ≠ [] ∧
        (bytes (g ++ given c)).length ≤ maxPacketSize ∧ o = some (c.dest,
        setNumEntries (bytes (g ++ given c)) (htons (BitVec.ofNat 16 (g ++ given c).length)))) := by
  obtain ⟨m, hm, heq⟩ := Option.map_eq_some_iff.1 hs
  have hload := h.load hoff hm
  split at heq
  · next hwait =>
    cases heq
    exact .inl ⟨rfl, hload, fun hfalse => nomatch hfalse.symm.trans hwait.1⟩
  · split at heq
    · next hempty =>
      cases heq
      exact .inl ⟨rfl, hload, fun _ => hload.empty_iff.1 hempty⟩
    · next hempty =>
      obtain ⟨rfl, rfl⟩ := Prod.mk.inj heq
      refine .inr ⟨⟨?_, rfl, rfl, rfl, fun _ hc => nomatch hc⟩, ?_, hload.length_le, ?_⟩
      · exact (length_store16 _).trans hload.length
      · exact fun hnil => hempty (hload.empty_iff.2 hnil)
      · rw [← hload.pending, ← hload.num, setNumEntries, take_store16]
        rfl

/-- A call with a packet that fits in the buffer returns. -/
theorem exists_send (h : s.Holds g) (hoff : cfg.batchOn = false → g = [])
    (hfit : s.runningPktSize + c.packet.length ≤ maxPacketSize) :
    ∃ s' o, s.sendUdpPacket cfg c = some (s', o) := by
  obtain ⟨m, hm⟩ := Option.isSome_iff_exists.1 ((h.isSome_load hoff c.packet).2 (.inr hfit))
  exact ⟨_, _, by rw [sendUdpPacket, hm]; rfl⟩

/-- The datagram that a call sends. -/
theorem sent {d : δ × List Byte} (h : s.Holds g) (hoff : cfg.batchOn = false → g = [])
    (hs : s.sendUdpPacket cfg c = some (s', some d)) :
    g ++ given c ≠ [] ∧ (bytes (g ++ given c)).length ≤ maxPacketSize ∧
      d = (c.dest,
        setNumEntries (bytes (g ++ given c)) (htons (BitVec.ofNat 16 (g ++ given c).length))) := by
  rcases h.send hoff hs with ⟨hnone, -⟩ | ⟨-, hne, hle, hsome⟩
  · cases hnone
  · exact ⟨hne, hle, Option.some.inj hsome⟩

/-- With batches, a call sends when it completes one that has a packet. -/
theorem send_isSome (h : s.Holds g)
    (hs : s.sendUdpPacket ⟨true, batchSize⟩ c = some (s', o)) :
    o.isSome ↔ s.Completes batchSize c ∧ g ++ given c ≠ [] := by
  have hoff : (⟨true, batchSize⟩ : Config).batchOn = false → g = [] := fun hf => nomatch hf
  obtain ⟨m, hm, heq⟩ := Option.map_eq_some_iff.1 hs
  have hload := h.load hoff hm
  have hnum : m.numPkts = s.numPkts + (given c).length := by
    rw [hload.num, h.num, List.length_append]
  have hsize : m.runningPktSize = s.runningPktSize + c.packet.length := by
    rw [hload.size, h.size, bytes_append, List.length_append, bytes_given]
  have hwaits : m.Waits ⟨true, batchSize⟩ c ↔ ¬ s.Completes batchSize c := by
    simp only [Waits, Completes, hnum, hsize, true_and, not_or, Nat.not_le, Bool.not_eq_false]
  split at heq
  · next hwait =>
    cases heq
    simp [hwaits.1 hwait]
  · next hwait =>
    rw [hwaits, not_not] at hwait
    split at heq
    · next hempty =>
      cases heq
      simp [hload.empty_iff.1 hempty]
    · next hempty =>
      cases heq
      exact ⟨fun _ => ⟨hwait, fun hg => hempty (hload.empty_iff.2 hg)⟩, fun _ => rfl⟩

end Holds

/-! ## Runs -/

theorem machine_eq_some {x : SendCall δ × Output δ}
    (h : (machine δ cfg).step s x.1 = some (s', x.2)) :
    x.2.1 = s ∧ s.sendUdpPacket cfg x.1 = some (s', x.2.2) := by
  obtain ⟨q, hq, heq⟩ := Option.map_eq_some_iff.1 h
  obtain ⟨rfl, hx⟩ := Prod.mk.inj heq
  rw [← hx]
  exact ⟨rfl, hq⟩

theorem machine_step (h : s.sendUdpPacket cfg c = some (s', o)) :
    (machine δ cfg).step s c = some (s', (s, o)) := by
  simp only [machine, h]
  rfl

/-- The buffer holds what has been given since the last datagram. -/
theorem holds_run (hr : (machine δ cfg).Run s tr s') (h : s.Fresh) :
    s'.Holds (batches tr).opened ∧ (cfg.batchOn = false → (batches tr).opened = []) := by
  induction hr with
  | nil => exact ⟨h.holds, fun _ => rfl⟩
  | @snoc m m' tr c o hr hs ih =>
    obtain ⟨hm, hoff⟩ := ih
    obtain ⟨-, hs⟩ := machine_eq_some (x := (c, o)) hs
    rcases hm.send hoff hs with ⟨hnone, hholds, hoff'⟩ | ⟨hholds, -, -, hsome⟩
    · rw [batches, Grouping.group_snoc_none (by exact hnone)]
      exact ⟨hholds, hoff'⟩
    · rw [batches, Grouping.group_snoc_some (by exact hsome)]
      exact ⟨hholds, fun _ => rfl⟩

/-- The step of a run at which a call is made. -/
theorem holds_at {pre post : List (SendCall δ × Output δ)} {x : SendCall δ × Output δ}
    (hr : (machine δ cfg).Run s (pre ++ x :: post) s') (h : s.Fresh) :
    x.2.1.Holds (batches pre).opened ∧ (cfg.batchOn = false → (batches pre).opened = []) ∧
      ∃ m, x.2.1.sendUdpPacket cfg x.1 = some (m, x.2.2) := by
  obtain ⟨m, m', hpre, hs, -⟩ := hr.split_cons
  obtain ⟨rfl, hs⟩ := machine_eq_some hs
  exact ⟨(holds_run hpre h).1, (holds_run hpre h).2, m', hs⟩

/-- The datagrams, and then the bytes that are pending, are what was given, in order; every datagram
has the number of its packets in front. -/
structure Batched (tr : List (SendCall δ × Output δ)) (s : SendBatch) : Prop where
  order : (tr.flatMap fun x => x.1.packet) = (batches tr).closed.flatMap bytes ++ s.pending
  carried : List.Forall₂ (fun d g => Carries d.2 g ∧ Numbers d.2 g) (datagrams tr)
    (batches tr).closed

/-- Every packet of a batch was given by a call of the run. -/
theorem mem_opened_snoc {pre : List (SendCall δ × Output δ)} {x : SendCall δ × Output δ}
    (h : c ∈ (batches pre).opened ++ given x.1) :
    ∃ y ∈ pre ++ [x], c = y.1 ∧ y.1.packet ≠ [] := by
  have hmem : c ∈ (pre ++ [x]).flatMap fun y => given y.1 := by
    rw [List.flatMap_append, List.flatMap_singleton, ← flatten_batches, List.append_assoc]
    exact List.mem_append_right _ h
  obtain ⟨y, hy, hc⟩ := List.mem_flatMap.1 hmem
  exact ⟨y, hy, packet_of_mem_given hc⟩

theorem numbers_setNumEntries {g : List (SendCall δ)} (hg : g ≠ [])
    (hsize : ∀ c ∈ g, sizeofRingType ≤ c.packet.length) (hle : (bytes g).length ≤ maxPacketSize) :
    Numbers (setNumEntries (bytes g) (htons (BitVec.ofNat 16 g.length))) g := by
  have hlen := length_bytes_ge hsize
  have hpos := List.length_pos_iff.2 hg
  simp only [sizeofRingType, maxPacketSize] at hlen hle
  rw [Numbers, numEntries, setNumEntries, load16_store16 (by omega), ntohs_htons,
    BitVec.toNat_ofNat, Nat.mod_eq_of_lt (by omega)]

/-- **Batching keeps packets and their order.** -/
theorem batches_run (hr : (machine δ cfg).Run s tr s') (h : s.Fresh)
    (hsize : ∀ x ∈ tr, x.1.packet ≠ [] → sizeofRingType ≤ x.1.packet.length) :
    Batched tr s' := by
  constructor
  · rw [(holds_run hr h).1.pending]
    rw [← bytes_flatMap_given, ← flatten_batches, bytes_append, bytes_flatten]
  · refine Grouping.forall₂_group_iff.2 ?_
    intro pre x post heq d hd
    subst heq
    obtain ⟨hm, hoff, m, hs⟩ := holds_at hr h
    rw [hd] at hs
    obtain ⟨hne, hle, rfl⟩ := hm.sent hoff hs
    refine ⟨⟨_, rfl⟩, numbers_setNumEntries hne ?_ hle⟩
    intro c hc
    obtain ⟨y, hy, rfl, hpacket⟩ := mem_opened_snoc hc
    refine hsize y ?_ hpacket
    rw [List.append_cons]
    exact List.mem_append_left _ hy

/-- **Packets go to the address that they were given for, exactly when every batch is completed by a
call for the address of its packets.** -/
theorem delivered_iff (hr : (machine δ ⟨true, batchSize⟩).Run s tr s') (h : s.Fresh) :
    List.Forall₂ (fun d g => Carries d.2 g ∧ Delivers d g) (datagrams tr) (batches tr).closed ↔
      ∀ pre x post, tr = pre ++ x :: post → x.2.1.Completes batchSize x.1 →
        ∀ c ∈ (batches pre).opened, c.dest = x.1.dest := by
  refine Grouping.forall₂_group_iff.trans ?_
  constructor
  · intro hall pre x post heq hcompletes c hc
    obtain ⟨hm, hoff, m, hs⟩ := holds_at (heq ▸ hr) h
    have hne : (batches pre).opened ++ given x.1 ≠ [] := by
      intro hnil
      rw [(List.append_eq_nil_iff.1 hnil).1] at hc
      cases hc
    obtain ⟨d, hd⟩ := Option.isSome_iff_exists.1 ((hm.send_isSome hs).2 ⟨hcompletes, hne⟩)
    have hdeliver := (hall pre x post heq d hd).2
    rw [hd] at hs
    obtain ⟨-, -, rfl⟩ := hm.sent hoff hs
    exact hdeliver c (List.mem_append_left _ hc)
  · intro hall pre x post heq d hd
    obtain ⟨hm, hoff, m, hs⟩ := holds_at (heq ▸ hr) h
    rw [hd] at hs
    have hcompletes := ((hm.send_isSome hs).1 rfl).1
    obtain ⟨-, -, rfl⟩ := hm.sent hoff hs
    refine ⟨⟨_, rfl⟩, ?_⟩
    intro c hc
    rcases List.mem_append.1 hc with hc | hc
    · exact hall pre x post heq hcompletes c hc
    · rw [(packet_of_mem_given hc).1]

/-! ## Two calls -/

def emptyBatch : SendBatch := ⟨List.replicate maxPacketSize 0, 0, 0⟩

theorem fresh_emptyBatch : emptyBatch.Fresh := ⟨List.length_replicate, rfl, rfl⟩

/-- A call for an address, in time, with a packet of the size of a header. -/
def headerCall (dest : δ) : SendCall δ := ⟨dest, List.replicate sizeofRingType 1, true⟩

theorem given_headerCall (a : δ) : given (headerCall a) = [headerCall a] := rfl

theorem length_headerCall (a : δ) : (headerCall a).packet.length = sizeofRingType :=
  List.length_replicate

theorem eq_headerCall {tr : List (SendCall δ × Output δ)} {x : SendCall δ × Output δ} {a : δ}
    (hcalls : tr.map Prod.fst = [headerCall a, headerCall a]) (hx : x ∈ tr) :
    x.1 = headerCall a := by
  have hmem : x.1 ∈ tr.map Prod.fst := List.mem_map_of_mem hx
  rw [hcalls] at hmem
  simpa using hmem

/-- Two calls fill a batch of two, which goes to the address of the second. -/
theorem two_calls (a b : δ) : ∃ tr s d, (machine δ ⟨true, 2⟩).Run emptyBatch tr s ∧
    tr.map Prod.fst = [headerCall a, headerCall b] ∧ datagrams tr = [(b, d)] ∧
      (batches tr).closed = [[headerCall a, headerCall b]] := by
  have hoff : ∀ g : List (SendCall δ), (⟨true, 2⟩ : Config).batchOn = false → g = [] :=
    fun _ hf => nomatch hf
  have h₀ := fresh_emptyBatch.holds (δ := δ)
  obtain ⟨s₁, o₁, hs₁⟩ := h₀.exists_send (hoff _) (c := headerCall a)
    (by rw [length_headerCall]; decide)
  have hnone : o₁ = none := by
    rw [← Option.not_isSome_iff_eq_none, h₀.send_isSome hs₁]
    rintro ⟨hcompletes, -⟩
    rw [Completes, given_headerCall, length_headerCall] at hcompletes
    obtain hnum | hsize | htimely := hcompletes
    · change 2 ≤ 0 + 1 at hnum
      omega
    · change 8192 ≤ 0 + 16 + 16 at hsize
      omega
    · cases htimely
  obtain ⟨-, h₁, -⟩ | ⟨-, -, -, hsome⟩ := h₀.send (hoff _) hs₁
  · rw [given_headerCall, List.nil_append] at h₁
    have hsize : s₁.runningPktSize = sizeofRingType := h₁.size
    have hnum : s₁.numPkts = 1 := h₁.num
    obtain ⟨s₂, o₂, hs₂⟩ := h₁.exists_send (hoff _) (c := headerCall b)
      (by rw [hsize, length_headerCall]; decide)
    obtain ⟨d, rfl⟩ := Option.isSome_iff_exists.1
      ((h₁.send_isSome hs₂).2 ⟨.inl (by rw [hnum]; exact Nat.le_refl 2), by simp⟩)
    obtain ⟨-, -, rfl⟩ := h₁.sent (hoff _) hs₂
    subst hnone
    exact ⟨_, _, _, (Machine.Run.single (machine_step hs₁)).snoc (machine_step hs₂), rfl, rfl, rfl⟩
  · rw [hnone] at hsome
    cases hsome

/-- A batch of two packets for one address: both are in the datagram, which says so. -/
theorem batches_run_two : ∃ tr s, (machine Nat ⟨true, 2⟩).Run emptyBatch tr s ∧
    tr.map Prod.fst = [headerCall 1, headerCall 1] ∧ Batched tr s := by
  obtain ⟨tr, s, d, hr, hcalls, -, -⟩ := two_calls 1 1
  refine ⟨tr, s, hr, hcalls, batches_run hr fresh_emptyBatch ?_⟩
  intro x hx _
  rw [eq_headerCall hcalls hx, length_headerCall]

/-- A batch of two packets for one address goes there. -/
theorem delivered_two : ∃ tr s, (machine Nat ⟨true, 2⟩).Run emptyBatch tr s ∧
    tr.map Prod.fst = [headerCall 1, headerCall 1] ∧
    List.Forall₂ (fun d g => Carries d.2 g ∧ Delivers d g) (datagrams tr) (batches tr).closed := by
  obtain ⟨tr, s, d, hr, hcalls, -, -⟩ := two_calls 1 1
  have hdest : ∀ x ∈ tr, x.1.dest = 1 := by
    intro x hx
    rw [eq_headerCall hcalls hx]
    rfl
  refine ⟨tr, s, hr, hcalls, (delivered_iff hr fresh_emptyBatch).2 ?_⟩
  rintro pre x post rfl - c hc
  obtain ⟨y, hy, rfl, -⟩ := mem_opened_snoc (x := x) (List.mem_append_left _ hc)
  rw [List.append_cons] at hdest
  rw [hdest y (List.mem_append_left _ hy), hdest x (by simp)]

/-- A batch of a packet for the address 1 and one for the address 2 goes to 2. -/
theorem not_delivered : ∃ tr s d, (machine Nat ⟨true, 2⟩).Run emptyBatch tr s ∧
    tr.map Prod.fst = [headerCall 1, headerCall 2] ∧ datagrams tr = [(2, d)] ∧
      ¬ List.Forall₂ (fun d g => Carries d.2 g ∧ Delivers d g) (datagrams tr)
        (batches tr).closed := by
  obtain ⟨tr, s, d, hr, hcalls, hdatagrams, hclosed⟩ := two_calls 1 2
  refine ⟨tr, s, d, hr, hcalls, hdatagrams, ?_⟩
  rw [hdatagrams, hclosed, List.forall₂_cons]
  rintro ⟨⟨-, hdeliver⟩, -⟩
  exact nomatch hdeliver _ (.head _)

end SendBatch

end Pringles.Software
