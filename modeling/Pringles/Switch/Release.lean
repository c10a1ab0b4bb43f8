import Pringles.Switch.Basic

/-!
# When a response is released

A response passes the readiness test when its number is at most the content of the open slot. A
control visit leaves its number there only if it finds the batch counter at zero: a visit that
closes a batch writes its number into the slot that it then leaves, and the next slot is still zero.
An append request without a number clears the open slot again. So the numbers that the last control
packet made known are releasable as long as that visit closed no batch and no append has arrived
since, and at no other time.
-/

namespace Pringles.P4

namespace Switch

variable {p : Program} {t : Tables} {tstamp : BitVec 48} {s s' s₀ s₁ : Switch} {f : Flight}
  {out : Pipe} {e : Event} {visit : Pass} {tr tr₁ tr₂ : List (Event × Pass)} {hdr : Headers}

/-- What the slot of the open batch holds. -/
def openSlot (s : Switch) : BitVec 32 := s.regs.mapFromGsn.get s.regs.cntrlPktIt.toNat

/-! ## The open slot -/

/-- Behind a control visit the open slot holds the number of the control packet if the visit closed
no batch, and nothing otherwise. -/
theorem openSlot_visit (h : s.Slots) (hc : f.hdr.IsControl)
    (hp : MyIngress.apply p t tstamp s.regs f.hdr = some out) : (s.after f out).openSlot =
      if s.regs.localSeqNo = 0 then out.hdr.cntrl.globalSeqNo else 0 := by
  have pass := MyIngress.apply_control hc hp
  rw [openSlot, regs_after]
  by_cases h0 : s.regs.localSeqNo = 0
  · rw [if_pos h0, pass.cntrlPktIt, if_pos h0, pass.mapFromGsn, RegArray.get_set_self pass.inRange,
      pass.globalSeqNo, h0]
    exact (BitVec.add_zero _).symm
  · have hcount : out.regs.cntrlPktIt.toNat = s.batches.length + 1 := by
      have := (h.pass hc.wellFormed hp).count
      rwa [batches_closes ⟨hc, h0⟩, List.length_append, List.length_singleton] at this
    rw [if_neg h0, hcount, pass.mapFromGsn, RegArray.get_set_ne (by rw [h.count]; omega)]
    exact h.unused _ (Nat.lt_succ_self _)

/-- Between control visits only an append without a number touches the open slot. -/
theorem openSlot_pass (hw : f.hdr.WellFormed) (hc : ¬ f.hdr.IsControl)
    (hp : MyIngress.apply p t tstamp s.regs f.hdr = some out) :
    (s.after f out).openSlot = if f.hdr.IsUnnumbered then 0 else s.openSlot := by
  unfold openSlot
  rw [regs_after]
  cases MyIngress.passKind hw hp with
  | control kind => exact absurd kind hc
  | fresh kind draws pass =>
    rw [if_pos ⟨kind, draws.2.2⟩, pass.cntrlPktIt, pass.mapFromGsn,
      RegArray.get_set_self pass.inRange]
  | circulating kind numbered pass =>
    rw [if_neg (fun hu => numbered hu.2), pass.cntrlPktIt, pass.mapFromGsn]
  | response kind valid pass =>
    have hn : ¬ f.hdr.IsUnnumbered := fun hu => kind.not_append hu.1
    rw [if_neg hn, pass.cntrlPktIt, pass.mapFromGsn]
  | idle _ _ notAppend _ pass =>
    rw [if_neg (fun hu => notAppend hu.1.2), pass.cntrlPktIt, pass.mapFromGsn]

theorem openSlot_run (hr : (machine p t).Run s₁ tr s) (h₁ : s₁.Slots)
    (hA : ∀ x ∈ tr, x.1.Arrives Headers.WellFormed)
    (hno : ∀ x ∈ tr, ¬ x.2.flight.hdr.IsControl) :
    s.Slots ∧ s.openSlot =
      if ∀ x ∈ tr, ¬ x.2.flight.hdr.IsUnnumbered then s₁.openSlot else 0 := by
  induction hr with
  | nil => exact ⟨h₁, by simp⟩
  | @snoc s s' tr e o _ hs ih =>
    simp only [List.forall_mem_append, List.forall_mem_singleton] at hA hno
    obtain ⟨hslots, hopen⟩ := ih hA.1 hno.1
    refine ⟨hslots.step hA.2 hs, ?_⟩
    obtain ⟨f, s₀, out, hp, hout, rfl, rfl⟩ := step_eq_some hs
    have hpres := Switch.presented hp
    rw [← hpres.regs] at hout
    rw [openSlot_pass (hslots.present hA.2 hp) hno.2 hout]
    have hopen₀ : s₀.openSlot = s.openSlot := by rw [openSlot, openSlot, hpres.regs]
    simp only [List.forall_mem_append, List.forall_mem_singleton]
    by_cases hf : f.hdr.IsUnnumbered
    · rw [if_pos hf, if_neg (fun hall => hall.2 hf)]
    · rw [if_neg hf, hopen₀, hopen]
      simp only [hf, not_false_eq_true, and_true]

/-! ## Release -/

/-- `s` is reached from the initial state, `visit` is the last pass of a control packet on the way,
and `tr` came after it. -/
structure AfterVisit (p : Program) (t : Tables) (visit : Pass) (tr : List (Event × Pass))
    (s : Switch) : Prop where
  reached : ∃ tr₁ e, (machine p t).Run {} (tr₁ ++ (e, visit) :: tr) s ∧
    ∀ x ∈ tr₁ ++ (e, visit) :: tr, x.1.Arrives Headers.WellFormed
  visits : visit.flight.hdr.IsControl
  noVisit : ∀ x ∈ tr, ¬ x.2.flight.hdr.IsControl

theorem AfterVisit.openSlot (h : AfterVisit p t visit tr s) : s.Slots ∧ s.openSlot =
    if visit.found.localSeqNo = 0 ∧ ∀ x ∈ tr, ¬ x.2.flight.hdr.IsUnnumbered
    then visit.out.hdr.cntrl.globalSeqNo else 0 := by
  obtain ⟨⟨tr₁, e, hr, hA⟩, hc, hno⟩ := h
  obtain ⟨s₁, s₂, hr₁, hs, hr₂⟩ := hr.split_cons
  simp only [List.forall_mem_append, List.forall_mem_cons] at hA
  have hslots₁ := slots_run hr₁ hA.1
  obtain ⟨f, s₀, out, hp, hout, rfl, rfl⟩ := step_eq_some hs
  have hpres := Switch.presented hp
  have hslots₀ := hslots₁.presented hpres
  rw [← hpres.regs] at hout
  obtain ⟨hslots, hopen⟩ := openSlot_run hr₂ (hslots₀.pass hc.wellFormed hout) hA.2.2 hno
  refine ⟨hslots, ?_⟩
  rw [hopen, openSlot_visit hslots₀ hc hout, hpres.regs]
  by_cases hall : ∀ x ∈ tr, ¬ x.2.flight.hdr.IsUnnumbered
  · simp only [if_pos hall, and_iff_left hall]
  · rw [if_neg hall, if_neg (fun hcond => hall hcond.2)]

/-- **A known number is releasable exactly while no append has taken the slot.** A response whose
number the last control packet covers is released if and only if it carries no number, or that visit
closed no batch and no append request without a number has come since. -/
theorem known_released_iff (h : AfterVisit p t visit tr s)
    (hbatches : s.batches.length < maxGsnMapSize)
    (hresp : hdr.IsAppendResp) (hvalid : hdr.append.isValid = true)
    (hknown : hdr.append.gIdx ≤ visit.out.hdr.cntrl.globalSeqNo) :
    ∃ out, MyIngress.apply p t tstamp s.regs hdr = some out ∧
      (MyIngress.Released out ↔ hdr.append.gIdx = 0 ∨
        visit.found.localSeqNo = 0 ∧ ∀ x ∈ tr, ¬ x.2.flight.hdr.IsUnnumbered) := by
  obtain ⟨hslots, hopen⟩ := h.openSlot
  have hrange : ∀ k, MyIngress.gsnSlot p hdr = some k → k.index s.regs hdr < maxGsnMapSize := by
    intro k hk
    obtain ⟨hc, hty⟩ := hresp
    simp only [MyIngress.gsnSlot, hc, hty, hvalid, Bool.false_eq_true, ↓reduceIte, and_self,
      typeResp_ne_append, Option.some.injEq] at hk
    rw [← hk, MyIngress.GsnSlot.index, hslots.count]
    exact hbatches
  obtain ⟨out, hout⟩ : ∃ out, MyIngress.apply p t tstamp s.regs hdr = some out :=
    MyIngress.apply_isSome_iff.2 hrange
  refine ⟨out, hout, ?_⟩
  rw [(MyIngress.apply_response hresp hvalid hout).released_iff, MyIngress.Ready]
  change hdr.append.gIdx ≤ s.openSlot ↔ _
  rw [hopen]
  split
  · rename_i hcond
    exact iff_of_true hknown (.inr hcond)
  · rename_i hcond
    simp only [hcond, or_false]
    exact BitVec.le_zero_iff

/-- A response behind a visit that closed no batch. -/
theorem known_released_iff_empty_visit : ∃ visit s, AfterVisit .sequencingOnly {} visit [] s ∧
    ∃ out, MyIngress.apply .sequencingOnly {} 0 s.regs (.responsePkt 1) = some out ∧
      (MyIngress.Released out ↔ (1 : BitVec 32) = 0 ∨ visit.found.localSeqNo = 0 ∧
        ∀ x ∈ ([] : List (Event × Pass)), ¬ x.2.flight.hdr.IsUnnumbered) := by
  have hx : (machine .sequencingOnly {}).exec {} [.arrive 0 ⟨0, .controlPkt 1⟩] =
    some (_, _) := rfl
  have h : AfterVisit .sequencingOnly {} _ [] _ :=
    ⟨⟨[], _, .of_exec hx, by simp [Event.Arrives]; decide⟩, by decide, by simp⟩
  exact ⟨_, _, h, known_released_iff h (by decide) (by decide) rfl (by decide)⟩

/-- One append and the control visit that numbers it: the response to the append circulates. -/
theorem not_always_released : ¬ ∀ visit tr s hdr, AfterVisit .sequencingOnly {} visit tr s →
    s.batches.length < maxGsnMapSize → hdr.IsAppendResp → hdr.append.isValid = true →
    hdr.append.gIdx ≤ visit.out.hdr.cntrl.globalSeqNo →
    ∀ out, MyIngress.apply .sequencingOnly {} 0 s.regs hdr = some out →
      MyIngress.Released out := by
  intro hall
  have hx : (machine .sequencingOnly {}).exec {}
    [.arrive 0 ⟨0, .appendPkt⟩, .arrive 0 ⟨1, .controlPkt 0⟩] = some (_, _) := rfl
  have h : AfterVisit .sequencingOnly {} _ [] _ :=
    ⟨⟨[_], _, .of_exec hx, by simp [Event.Arrives]; decide⟩, by decide, by simp⟩
  have hrel := hall _ _ _ (.responsePkt 1) h (by decide) (by decide) rfl (by decide) _ rfl
  exact absurd hrel.2 (by decide)

end Switch

end Pringles.P4
