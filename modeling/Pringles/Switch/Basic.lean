import Pringles.Lib.Machine
import Pringles.P4.IngressSpec

/-!
# One switch

A switch processes one packet at a time. A packet arrives from outside, or it comes back from the
loopback port after a pass that set `meta.circulate`; the packets on the loopback port may come back
in any order, with the headers that their last pass left.

Beside its registers the state keeps a history that no pass reads: the packets that have drawn a
number since the batch counter was last taken (`pending`), and the batches that control packets have
closed, with the `global_seq_no` that each control packet brought (`batches`).

`Slots` relates the registers to the history. It holds in every reachable state, whatever well-formed
packets arrive and however long the run is.
-/

namespace Pringles.P4

/-- A packet with the identity under which it entered. -/
structure Flight where
  id : Nat
  hdr : Headers

/-- A closed batch: the base it starts from and the packets that drew its numbers, in order. -/
structure Batch where
  base : BitVec 32
  tickets : List Flight

structure Switch where
  regs : Registers := {}
  circ : List Flight := []
  pending : List Flight := []
  batches : List Batch := []

/-- A pass: the packet, the registers it found and what it left. -/
structure Pass where
  flight : Flight
  found : Registers
  out : Pipe

namespace Switch

/-- The pass is a control visit that finds `local_seq_no` different from zero. -/
def Closes (s : Switch) (hdr : Headers) : Prop := hdr.IsControl ∧ s.regs.localSeqNo ≠ 0

instance (s : Switch) (hdr : Headers) : Decidable (s.Closes hdr) :=
  inferInstanceAs (Decidable (_ ∧ _))

/-- The state behind a pass of `f` that left `out`. -/
def after (s : Switch) (f : Flight) (out : Pipe) : Switch where
  regs := out.regs
  circ := if out.metadata.circulate then s.circ ++ [⟨f.id, out.hdr⟩] else s.circ
  pending :=
    if s.Closes f.hdr then [] else if f.hdr.Draws then s.pending ++ [f] else s.pending
  batches :=
    if s.Closes f.hdr then s.batches ++ [⟨f.hdr.cntrl.globalSeqNo, s.pending⟩] else s.batches

inductive Event where
  | arrive (tstamp : BitVec 48) (f : Flight)
  | recirc (tstamp : BitVec 48) (k : Nat)

namespace Event

def tstamp : Event → BitVec 48
  | arrive tstamp _ => tstamp
  | recirc tstamp _ => tstamp

/-- What arrives satisfies `P`. -/
def Arrives (P : Headers → Prop) : Event → Prop
  | arrive _ f => P f.hdr
  | recirc _ _ => True

end Event

/-- The packet that an event presents to the pipeline, and the switch without it. -/
def present (s : Switch) : Event → Option (Flight × Switch)
  | .arrive _ f => some (f, s)
  | .recirc _ k => (s.circ[k]?).map fun f => (f, { s with circ := s.circ.eraseIdx k })

variable (p : Program) (t : Tables)

/-- The pass of `f`. -/
def pass (tstamp : BitVec 48) (f : Flight) (s : Switch) : Option (Switch × Pass) :=
  (MyIngress.apply p t tstamp s.regs f.hdr).map fun out => (s.after f out, ⟨f, s.regs, out⟩)

def step (s : Switch) (e : Event) : Option (Switch × Pass) :=
  (s.present e).bind fun q => q.2.pass p t e.tstamp q.1

def machine : Machine Switch Event Pass := ⟨step p t⟩

variable {p : Program} {t : Tables} {tstamp : BitVec 48} {s s' s₀ : Switch} {f g : Flight}
  {out : Pipe} {e : Event} {o : Pass}

/-- A step presents a packet and makes a pass of it. -/
theorem step_eq_some (h : (machine p t).step s e = some (s', o)) :
    ∃ f s₀ out, s.present e = some (f, s₀) ∧
      MyIngress.apply p t e.tstamp s.regs f.hdr = some out ∧
      s' = s₀.after f out ∧ o = ⟨f, s.regs, out⟩ := by
  simp only [machine, step, pass, Option.bind_eq_some_iff, Option.map_eq_some_iff] at h
  obtain ⟨⟨f, s₀⟩, hf, out, hout, heq⟩ := h
  simp only [Prod.mk.injEq] at heq
  obtain ⟨rfl, rfl⟩ := heq
  have hregs : s₀.regs = s.regs := by
    cases e with
    | arrive ts g => simp only [present, Option.some.injEq, Prod.mk.injEq] at hf; rw [← hf.2]
    | recirc ts k =>
      simp only [present, Option.map_eq_some_iff, Prod.mk.injEq] at hf
      obtain ⟨_, -, -, rfl⟩ := hf
      rfl
  rw [hregs] at hout
  exact ⟨f, s₀, out, hf, hout, rfl, by rw [hregs]⟩

/-- A step is possible when the pass of the presented packet is. -/
theorem step_isSome_iff (hp : s.present e = some (f, s₀)) :
    (∃ q, (machine p t).step s e = some q) ↔
      ∃ out, MyIngress.apply p t e.tstamp s₀.regs f.hdr = some out := by
  simp [machine, step, pass, hp]

/-- Presenting a packet takes at most one packet off the loopback port. -/
structure Presented (s : Switch) (f : Flight) (s₀ : Switch) : Prop where
  regs : s₀.regs = s.regs
  pending : s₀.pending = s.pending
  batches : s₀.batches = s.batches
  circ : s₀.circ.Sublist s.circ

theorem presented (h : s.present e = some (f, s₀)) : Presented s f s₀ := by
  cases e with
  | arrive ts g =>
    simp only [present, Option.some.injEq, Prod.mk.injEq] at h
    obtain ⟨-, rfl⟩ := h
    exact ⟨rfl, rfl, rfl, .refl _⟩
  | recirc ts k =>
    simp only [present, Option.map_eq_some_iff, Prod.mk.injEq] at h
    obtain ⟨_, -, -, rfl⟩ := h
    exact ⟨rfl, rfl, rfl, List.eraseIdx_sublist ..⟩

/-- A presented packet arrives or was on the loopback port. -/
theorem present_origin (h : s.present e = some (f, s₀)) :
    (∃ ts, e = .arrive ts f) ∨ f ∈ s.circ := by
  cases e with
  | arrive ts g =>
    simp only [present, Option.some.injEq, Prod.mk.injEq] at h
    exact .inl ⟨ts, by rw [h.1]⟩
  | recirc ts k =>
    simp only [present, Option.map_eq_some_iff, Prod.mk.injEq] at h
    obtain ⟨g, hg, rfl, -⟩ := h
    exact .inr (List.mem_of_getElem? hg)

/-- A packet that comes back leaves the rest of the loopback port behind. -/
theorem present_recirc {ts : BitVec 48} {k : Nat} (h : s.present (.recirc ts k) = some (f, s₀)) :
    (f :: s₀.circ).Perm s.circ := by
  simp only [present, Option.map_eq_some_iff, Prod.mk.injEq] at h
  obtain ⟨g, hg, rfl, rfl⟩ := h
  obtain ⟨hk, rfl⟩ := List.getElem?_eq_some_iff.1 hg
  exact List.getElem_cons_eraseIdx_perm hk

/-! ## The history behind a pass -/

section
variable (s f out)

@[simp] theorem regs_after : (s.after f out).regs = out.regs := rfl

theorem mem_circ_after : g ∈ (s.after f out).circ ↔
    g ∈ s.circ ∨ out.metadata.circulate = true ∧ g = ⟨f.id, out.hdr⟩ := by
  unfold after
  split <;> simp_all

end

theorem not_draws_of_closes (h : s.Closes f.hdr) : ¬ f.hdr.Draws := by
  intro hd
  have hc : f.hdr.cntrl.isValid = true := h.1
  simp [Headers.Draws, hc] at hd

theorem pending_closes (h : s.Closes f.hdr) : (s.after f out).pending = [] := by
  simp [after, h]

theorem batches_closes (h : s.Closes f.hdr) :
    (s.after f out).batches = s.batches ++ [⟨f.hdr.cntrl.globalSeqNo, s.pending⟩] := by
  simp [after, h]

theorem pending_draws (h : f.hdr.Draws) : (s.after f out).pending = s.pending ++ [f] := by
  have hc : ¬ s.Closes f.hdr := fun hc => not_draws_of_closes hc h
  simp [after, hc, h]

theorem pending_quiet (hc : ¬ s.Closes f.hdr) (hd : ¬ f.hdr.Draws) :
    (s.after f out).pending = s.pending := by
  simp [after, hc, hd]

theorem batches_quiet (h : ¬ s.Closes f.hdr) : (s.after f out).batches = s.batches := by
  simp [after, h]

theorem not_closes (h : f.hdr.cntrl.isValid = false) : ¬ s.Closes f.hdr := by
  rintro ⟨hc, -⟩
  exact hc.not_data h

/-! ### Epochs -/

/-- The batches in the order of their slots, the open one last. -/
def epochs (s : Switch) : List (List Flight) := s.batches.map Batch.tickets ++ [s.pending]

theorem epochs_closed {k : Nat} {b : Batch} (h : s.batches[k]? = some b) :
    s.epochs[k]? = some b.tickets := by
  have hk : k < s.batches.length := (List.getElem?_eq_some_iff.1 h).1
  rw [epochs, List.getElem?_append_left (by simpa using hk), List.getElem?_map, h]
  rfl

theorem epochs_open : s.epochs[s.batches.length]? = some s.pending := by
  simp [epochs]

theorem epochs_cases {k : Nat} {l : List Flight} (h : s.epochs[k]? = some l) :
    (∃ b, s.batches[k]? = some b ∧ b.tickets = l) ∨ k = s.batches.length ∧ s.pending = l := by
  have hk : k < s.batches.length + 1 := by
    simpa [epochs] using (List.getElem?_eq_some_iff.1 h).1
  by_cases hlt : k < s.batches.length
  · left
    have hb : s.batches[k]? = some s.batches[k] := List.getElem?_eq_getElem hlt
    rw [epochs_closed hb, Option.some.injEq] at h
    exact ⟨_, hb, h⟩
  · right
    obtain rfl : k = s.batches.length := by omega
    rw [epochs_open, Option.some.injEq] at h
    exact ⟨rfl, h⟩

/-- A pass only adds to the epochs. -/
theorem epochs_after (s : Switch) (f : Flight) (out : Pipe) {k : Nat} {l : List Flight}
    (h : s.epochs[k]? = some l) : ∃ l', (s.after f out).epochs[k]? = some l' ∧ l <+: l' := by
  by_cases hc : s.Closes f.hdr
  · refine ⟨l, ?_, List.prefix_rfl⟩
    rw [epochs, batches_closes hc, pending_closes hc, List.map_append, List.map_cons, List.map_nil]
    exact (List.getElem?_append_left (List.getElem?_eq_some_iff.1 h).1).trans h
  rcases epochs_cases h with ⟨b, hb, rfl⟩ | ⟨rfl, rfl⟩
  · refine ⟨b.tickets, epochs_closed ?_, List.prefix_rfl⟩
    rw [batches_quiet hc, hb]
  · refine ⟨(s.after f out).pending, ?_, ?_⟩
    · have hb : (s.after f out).batches = s.batches := batches_quiet hc
      rw [← hb]
      exact epochs_open
    · by_cases hd : f.hdr.Draws
      · rw [pending_draws hd]
        exact List.prefix_append ..
      · rw [pending_quiet hc hd]

/-- `f` holds the `j`-th number of the batch whose slot it carries: it drew that number when it was
an append request without one. -/
def HoldsNumber (s : Switch) (f : Flight) (j : Nat) : Prop :=
  ∃ l g, s.epochs[f.hdr.append.cntrlPktIt.toNat]? = some l ∧ l[j]? = some g ∧ g.id = f.id ∧
    g.hdr.IsAppend

theorem HoldsNumber.after {j : Nat} (h : s.HoldsNumber g j) (f : Flight) (out : Pipe) :
    (s.after f out).HoldsNumber g j := by
  obtain ⟨l, t, hl, ht, hid⟩ := h
  obtain ⟨l', hl', r, rfl⟩ := epochs_after s f out hl
  refine ⟨_, t, hl', ?_, hid⟩
  rw [List.getElem?_append_left (List.getElem?_eq_some_iff.1 ht).1, ht]

theorem Presented.holdsNumber {j : Nat} (hp : Presented s f s₀) (h : s.HoldsNumber g j) :
    s₀.HoldsNumber g j := by
  unfold HoldsNumber epochs at *
  rw [hp.batches, hp.pending]
  exact h

/-! ## The slots -/

/-- The batch counter counts the pending packets, the slot counter the closed batches; a closed
batch has its base in its slot, and the slots beyond the current one have not been written. -/
structure Slots (s : Switch) : Prop where
  drawn : s.regs.localSeqNo = BitVec.ofNat 32 s.pending.length
  count : s.regs.cntrlPktIt.toNat = s.batches.length
  base : ∀ k b, s.batches[k]? = some b → s.regs.mapFromGsn.get k = b.base
  unused : ∀ k, s.batches.length < k → s.regs.mapFromGsn.get k = 0
  circ : ∀ g ∈ s.circ, g.hdr.CanCirculate

theorem slots_init : Slots {} where
  drawn := rfl
  count := rfl
  base := by simp
  unused := by simp
  circ := by simp

theorem Slots.presented (h : s.Slots) (hp : Presented s f s₀) : s₀.Slots where
  drawn := by rw [hp.regs, hp.pending]; exact h.drawn
  count := by rw [hp.regs, hp.batches]; exact h.count
  base := by rw [hp.regs, hp.batches]; exact h.base
  unused := by rw [hp.regs, hp.batches]; exact h.unused
  circ g hg := h.circ g (hp.circ.subset hg)

/-- What a pass puts on the loopback port is an append request or response again. -/
theorem circulates_append (hw : f.hdr.WellFormed) (hk : MyIngress.PassKind s.regs f.hdr out)
    (hcirc : out.metadata.circulate = true) : out.hdr.cntrl.isValid = false ∧
      out.hdr.append.isValid = true ∧ (out.hdr.IsAppend ∨ out.hdr.IsAppendResp) := by
  cases hk with
  | control _ pass => simp [pass.circulate] at hcirc
  | fresh kind _ pass =>
    exact ⟨pass.notControl, pass.appendValid, .inl ⟨pass.notControl, pass.ringType ▸ kind.2⟩⟩
  | circulating kind _ pass =>
    refine ⟨pass.notControl, pass.appendValid.trans ((hw kind.1).2 (.inl kind.2)), ?_⟩
    by_cases hopen : f.hdr.append.cntrlPktIt = s.regs.cntrlPktIt
    · exact .inl ⟨pass.notControl, (pass.openBatch hopen).2.2⟩
    cases htimer : f.hdr.timer.isValid with
    | false => simp [(pass.closedBatch hopen htimer).1] at hcirc
    | true => exact .inr ⟨pass.notControl, (pass.generated hopen htimer).2.2⟩
  | response kind valid pass =>
    exact ⟨pass.notControl, pass.append ▸ valid, .inr ⟨pass.notControl, pass.ringType ▸ kind.2⟩⟩
  | idle _ _ _ _ pass => simp [pass.circulate] at hcirc

theorem canCirculate_out (hw : f.hdr.WellFormed) (hk : MyIngress.PassKind s.regs f.hdr out)
    (hcirc : out.metadata.circulate = true) : out.hdr.CanCirculate := by
  obtain ⟨hc, hv, ha | hr⟩ := circulates_append hw hk hcirc
  · exact ⟨fun _ => by simp [hv, ha.2], hc, hv⟩
  · exact ⟨fun _ => by simp [hv, hr.2], hc, hv⟩

/-- A pass that leaves both counters and the table alone, and draws nothing, keeps the slots. -/
theorem Slots.quiet (h : s.Slots) (hc : ¬ s.Closes f.hdr) (hd : ¬ f.hdr.Draws)
    (hlocal : out.regs.localSeqNo = s.regs.localSeqNo)
    (hit : out.regs.cntrlPktIt = s.regs.cntrlPktIt)
    (hmap : ∀ k, k ≠ s.batches.length →
      out.regs.mapFromGsn.get k = s.regs.mapFromGsn.get k)
    (hcirc : ∀ g ∈ (s.after f out).circ, g.hdr.CanCirculate) :
    (s.after f out).Slots where
  drawn := by rw [regs_after, hlocal, pending_quiet hc hd, h.drawn]
  count := by rw [regs_after, hit, batches_quiet hc, h.count]
  base k b hb := by
    rw [batches_quiet hc] at hb
    have hk : k < s.batches.length := (List.getElem?_eq_some_iff.1 hb).1
    rw [regs_after, hmap k (by omega), h.base k b hb]
  unused k hk := by
    rw [batches_quiet hc] at hk
    rw [regs_after, hmap k (by omega), h.unused k hk]
  circ := hcirc

/-- A pass that draws a number. -/
theorem Slots.draws (h : s.Slots) (hd : f.hdr.Draws)
    (hlocal : out.regs.localSeqNo = s.regs.localSeqNo + 1)
    (hit : out.regs.cntrlPktIt = s.regs.cntrlPktIt)
    (hmap : ∀ k, k ≠ s.batches.length →
      out.regs.mapFromGsn.get k = s.regs.mapFromGsn.get k)
    (hcirc : ∀ g ∈ (s.after f out).circ, g.hdr.CanCirculate) :
    (s.after f out).Slots where
  drawn := by
    rw [regs_after, hlocal, pending_draws hd, h.drawn, List.length_append, BitVec.ofNat_add]
    rfl
  count := by rw [regs_after, hit, batches_quiet (not_closes hd.1), h.count]
  base k b hb := by
    rw [batches_quiet (not_closes hd.1)] at hb
    have hk : k < s.batches.length := (List.getElem?_eq_some_iff.1 hb).1
    rw [regs_after, hmap k (by omega), h.base k b hb]
  unused k hk := by
    rw [batches_quiet (not_closes hd.1)] at hk
    rw [regs_after, hmap k (by omega), h.unused k hk]
  circ := hcirc

/-- A control visit that closes a batch. -/
theorem Slots.closes (h : s.Slots) (hc : s.Closes f.hdr)
    (pass : MyIngress.ControlPass s.regs f.hdr out)
    (hcirc : ∀ g ∈ (s.after f out).circ, g.hdr.CanCirculate) :
    (s.after f out).Slots := by
  have hlen : (s.after f out).batches.length = s.batches.length + 1 := by simp [batches_closes hc]
  have hlt : s.batches.length < maxGsnMapSize := h.count ▸ pass.inRange
  constructor
  · rw [regs_after, pass.localSeqNo, pending_closes hc]
    rfl
  · rw [regs_after, pass.cntrlPktIt, if_neg hc.2, hlen, BitVec.toNat_add, h.count]
    change (s.batches.length + 1) % 65536 = s.batches.length + 1
    unfold maxGsnMapSize at hlt
    omega
  · intro k b hb
    rw [batches_closes hc] at hb
    rw [regs_after, pass.mapFromGsn, RegArray.get_set pass.inRange, h.count]
    by_cases hk : k = s.batches.length
    · subst hk
      rw [List.getElem?_concat_length, Option.some.injEq] at hb
      rw [if_pos rfl, ← hb]
    · have hlt' : k < s.batches.length := by
        have := (List.getElem?_eq_some_iff.1 hb).1
        rw [List.length_append, List.length_singleton] at this
        omega
      rw [List.getElem?_append_left hlt'] at hb
      rw [if_neg hk, h.base k b hb]
  · intro k hk
    rw [hlen] at hk
    rw [regs_after, pass.mapFromGsn, RegArray.get_set_ne (by rw [h.count]; omega),
      h.unused k (by omega)]
  · exact hcirc

/-- **A pass keeps the slots.** -/
theorem Slots.pass (h : s.Slots) (hw : f.hdr.WellFormed)
    (hp : MyIngress.apply p t tstamp s.regs f.hdr = some out) : (s.after f out).Slots := by
  have hk := MyIngress.passKind hw hp
  have hcirc : ∀ g ∈ (s.after f out).circ, g.hdr.CanCirculate := by
    intro g hg
    rcases (mem_circ_after s f out).1 hg with hg | ⟨hout, rfl⟩
    · exact h.circ g hg
    · exact canCirculate_out hw hk hout
  have hne : ∀ k, k ≠ s.batches.length → k ≠ s.regs.cntrlPktIt.toNat := by
    rw [h.count]
    exact fun _ hk => hk
  cases hk with
  | control kind pass =>
    by_cases h0 : s.regs.localSeqNo = 0
    · refine h.quiet (fun hc => hc.2 h0) kind.not_draws (pass.localSeqNo.trans h0.symm) ?_ ?_ hcirc
      · rw [pass.cntrlPktIt, if_pos h0]
      · intro k hk
        rw [pass.mapFromGsn, RegArray.get_set_ne (hne k hk)]
    · exact h.closes ⟨kind, h0⟩ pass hcirc
  | fresh kind draws pass =>
    refine h.draws draws pass.localSeqNo pass.cntrlPktIt ?_ hcirc
    intro k hk
    rw [pass.mapFromGsn, RegArray.get_set_ne (hne k hk)]
  | circulating kind numbered pass =>
    exact h.quiet (not_closes kind.1) (fun hd => numbered hd.2.2) pass.localSeqNo pass.cntrlPktIt
      (fun k _ => by rw [pass.mapFromGsn]) hcirc
  | response kind valid pass =>
    by_cases h0 : f.hdr.append.gIdx = 0
    · exact h.draws ⟨kind.1, valid, h0⟩ (pass.localSeqNo.trans (if_pos h0)) pass.cntrlPktIt
        (fun k _ => by rw [pass.mapFromGsn]) hcirc
    · exact h.quiet (not_closes kind.1) (fun hd => h0 hd.2.2) (pass.localSeqNo.trans (if_neg h0))
        pass.cntrlPktIt (fun k _ => by rw [pass.mapFromGsn]) hcirc
  | idle notControl invalid _ _ pass =>
    have hd : ¬ f.hdr.Draws := Headers.not_draws_of_invalid invalid
    exact h.quiet (not_closes notControl) hd pass.localSeqNo pass.cntrlPktIt
      (fun k _ => by rw [pass.mapFromGsn]) hcirc

/-- The packet that a step presents is well formed. -/
theorem Slots.present (h : s.Slots) (hA : e.Arrives Headers.WellFormed)
    (hp : s.present e = some (f, s₀)) : f.hdr.WellFormed := by
  rcases present_origin hp with ⟨ts, rfl⟩ | hmem
  · exact hA
  · exact (h.circ f hmem).1

theorem Slots.step (h : s.Slots) (hA : e.Arrives Headers.WellFormed)
    (hs : (machine p t).step s e = some (s', o)) : s'.Slots := by
  obtain ⟨f, s₀, out, hp, hout, rfl, -⟩ := step_eq_some hs
  have hpres := Switch.presented hp
  rw [← hpres.regs] at hout
  exact (h.presented hpres).pass (h.present hA hp) hout

/-- **The slots hold in every reachable state.** -/
theorem slots_run {tr : List (Event × Pass)} (hr : (machine p t).Run {} tr s)
    (hA : ∀ x ∈ tr, x.1.Arrives Headers.WellFormed) : s.Slots :=
  hr.invariant (I := fun _ s => s.Slots) (B := fun _ => True) (fun _ _ _ _ _ _ _ => trivial)
    (fun _ _ _ _ _ hA h _ hs => h.step hA hs) hA slots_init trivial

/-- No batch is forgotten. -/
theorem batches_isPrefixOf {tr : List (Event × Pass)}
    (hr : (machine p t).Run s tr s') : s.batches <+: s'.batches := by
  induction hr with
  | nil => exact List.prefix_rfl
  | snoc _ hs ih =>
    obtain ⟨f, s₀, out, hp, -, rfl, -⟩ := step_eq_some hs
    refine ih.trans ?_
    rw [← (Switch.presented hp).batches]
    by_cases hc : s₀.Closes f.hdr
    · rw [batches_closes hc]
      exact List.prefix_append ..
    · rw [batches_quiet hc]

/-! ### Numbers of packets on the loopback port -/

/-- An append without a number takes the next one of the open batch. -/
theorem Slots.holdsNumber_fresh (h : s.Slots) (ha : f.hdr.IsAppend) (hd : f.hdr.Draws)
    (pass : MyIngress.FreshPass s.regs f.hdr out) :
    (s.after f out).HoldsNumber ⟨f.id, out.hdr⟩ s.pending.length := by
  refine ⟨s.pending ++ [f], f, ?_, List.getElem?_concat_length .., rfl, ha⟩
  have hb : (s.after f out).batches = s.batches := batches_quiet (not_closes hd.1)
  have hopen : (s.after f out).epochs[(s.after f out).batches.length]? = _ := epochs_open
  rw [pending_draws hd, hb] at hopen
  rw [pass.stored, h.count]
  exact hopen

/-- A circulating append keeps its number. -/
theorem holdsNumber_circulating {j : Nat} (h : s.HoldsNumber f j)
    (pass : MyIngress.CirculatingPass s.regs f.hdr out) :
    (s.after f out).HoldsNumber ⟨f.id, out.hdr⟩ j := by
  obtain ⟨l, g, hl, hg, hid⟩ := h.after f out
  exact ⟨l, g, by rw [pass.stored]; exact hl, hg, hid⟩

end Switch

end Pringles.P4
