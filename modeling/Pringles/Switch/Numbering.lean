import Pringles.Switch.Basic

/-!
# Numbers of circulating appends

As long as nothing wraps, every append on the loopback port carries its offset in its batch. While
the batch is open the slot of the batch is zero, so the passes of the append do not change the
offset; once the batch is closed the slot holds the base, and the next pass completes the number.

The bounds (`Bounded`) come from outside: here they are an assumption about the state that a pass
starts from, and the ring discharges it.
-/

namespace Pringles.P4

namespace Switch

variable {p : Program} {t : Tables} {tstamp : BitVec 48} {s s' s₀ : Switch} {f g : Flight}
  {out : Pipe} {e : Event} {o : Pass}

/-- No counter is about to wrap. -/
structure Bounded (s : Switch) : Prop where
  pending : s.pending.length < 2 ^ 32
  closed : ∀ b ∈ s.batches, b.base.toNat + b.tickets.length < 2 ^ 32

theorem Bounded.presented (h : s.Bounded) (hp : Presented s f s₀) : s₀.Bounded where
  pending := by rw [hp.pending]; exact h.pending
  closed := by rw [hp.batches]; exact h.closed

/-- The packet has a number, and an append has the number that it drew. -/
def HasOffset (s : Switch) (g : Flight) : Prop :=
  g.hdr.append.gIdx ≠ 0 ∧
    (g.hdr.IsAppend → ∃ j, g.hdr.append.gIdx.toNat = j + 1 ∧ s.HoldsNumber g j)

/-- The slots, the offsets on the loopback port, and the slot of an open batch with an append. -/
structure Numbered (s : Switch) : Prop where
  slots : s.Slots
  openSlot : (∃ g ∈ s.pending, g.hdr.IsAppend) → s.regs.mapFromGsn.get s.batches.length = 0
  offsets : ∀ g ∈ s.circ, s.HasOffset g

theorem numbered_init : Numbered {} where
  slots := slots_init
  openSlot := by simp
  offsets := by simp

theorem HasOffset.presented (h : s.HasOffset g) (hp : Presented s f s₀) : s₀.HasOffset g := by
  refine ⟨h.1, ?_⟩
  intro ha
  obtain ⟨j, hj, hold⟩ := h.2 ha
  exact ⟨j, hj, hp.holdsNumber hold⟩

theorem HasOffset.after (h : s.HasOffset g) (f : Flight) (out : Pipe) :
    (s.after f out).HasOffset g := by
  refine ⟨h.1, ?_⟩
  intro ha
  obtain ⟨j, hj, hold⟩ := h.2 ha
  exact ⟨j, hj, hold.after f out⟩

theorem Numbered.presented (h : s.Numbered) (hp : Presented s f s₀) : s₀.Numbered where
  slots := h.slots.presented hp
  openSlot := by rw [hp.regs, hp.pending, hp.batches]; exact h.openSlot
  offsets g hg := (h.offsets g (hp.circ.subset hg)).presented hp

/-- `f` drew the number `m` of a closed batch: the base of the batch and the offset of `f` in it. -/
def Assigned (s : Switch) (f : Flight) (m : Nat) : Prop :=
  ∃ b ∈ s.batches, ∃ j, b.tickets[j]? = some f ∧ m = b.base.toNat + j + 1

/-- What an append on the loopback port adds up to: its offset while its batch is open, and from
then on the base of its batch and its offset. -/
theorem Numbered.number (h : s.Numbered) (hb : s.Bounded) (ha : g.hdr.IsAppend)
    (hg : s.HasOffset g) :
    (g.hdr.append.cntrlPktIt = s.regs.cntrlPktIt ∧
      s.regs.mapFromGsn.get g.hdr.append.cntrlPktIt.toNat = 0 ∧ ∃ f ∈ s.pending, f.id = g.id) ∨
    (g.hdr.append.cntrlPktIt ≠ s.regs.cntrlPktIt ∧ ∃ f, f.id = g.id ∧ f.hdr.IsAppend ∧
      s.Assigned f (g.hdr.append.gIdx +
        s.regs.mapFromGsn.get g.hdr.append.cntrlPktIt.toNat).toNat) := by
  obtain ⟨j, hj, l, f, hl, hf, hid, happ⟩ := hg.2 ha
  have hcount := h.slots.count
  rcases epochs_cases hl with ⟨b, hbatch, rfl⟩ | ⟨hk, rfl⟩
  · right
    obtain ⟨hlt, hbk⟩ := List.getElem?_eq_some_iff.1 hbatch
    have hjlt := (List.getElem?_eq_some_iff.1 hf).1
    have hbound := hb.closed b (List.mem_of_getElem? hbatch)
    refine ⟨?_, f, hid, happ, b, List.mem_of_getElem? hbatch, j, hf, ?_⟩
    · intro heq
      rw [heq, hcount] at hlt
      exact absurd hlt (Nat.lt_irrefl _)
    · rw [h.slots.base _ b hbatch, BitVec.toNat_add, hj]
      omega
  · left
    refine ⟨?_, ?_, f, List.mem_of_getElem? hf, hid⟩
    · rw [← BitVec.toNat_inj, hk, hcount]
    · rw [hk]
      exact h.openSlot ⟨f, List.mem_of_getElem? hf, happ⟩

/-- The counter is zero exactly when no number is pending. -/
theorem Slots.pending_eq_nil_iff (h : s.Slots) (hb : s.pending.length < 2 ^ 32) :
    s.pending = [] ↔ s.regs.localSeqNo = 0 := by
  rw [h.drawn, ← BitVec.toNat_inj, BitVec.toNat_ofNat, Nat.mod_eq_of_lt hb]
  exact List.length_eq_zero_iff.symm

/-- What a pass puts back on the loopback port has a number. -/
theorem Numbered.offset_after (h : s.Numbered) (hb : s.Bounded)
    (hd : f.hdr.Draws → s.pending.length + 1 < 2 ^ 32)
    (hf : f.hdr.IsAppend → f.hdr.append.gIdx ≠ 0 → s.HasOffset f)
    (hk : MyIngress.PassKind s.regs f.hdr out) (hcirc : out.metadata.circulate = true) :
    (s.after f out).HasOffset ⟨f.id, out.hdr⟩ := by
  cases hk with
  | control _ pass => simp [pass.circulate] at hcirc
  | fresh kind draws pass =>
    have hpend := hd draws
    have hnum : out.hdr.append.gIdx.toNat = s.pending.length + 1 := by
      rw [pass.gIdx, h.slots.drawn, BitVec.toNat_add, BitVec.toNat_ofNat]
      change (s.pending.length % 2 ^ 32 + 1) % 2 ^ 32 = s.pending.length + 1
      omega
    refine ⟨?_, fun _ => ⟨_, hnum, h.slots.holdsNumber_fresh kind draws pass⟩⟩
    intro h0
    simp only at h0
    rw [h0] at hnum
    simp at hnum
  | circulating kind numbered pass =>
    have hoff := hf kind numbered
    rcases h.number hb kind hoff with ⟨hopen, hzero, -⟩ | ⟨hclosed, _, -, -, b, -, j, -, hnum⟩
    · have hidx : out.hdr.append.gIdx = f.hdr.append.gIdx := by
        rw [pass.gIdx, hzero]
        exact BitVec.add_zero _
      refine ⟨hidx ▸ numbered, ?_⟩
      intro _
      obtain ⟨j, hj, hold⟩ := hoff.2 kind
      exact ⟨j, hidx ▸ hj, holdsNumber_circulating hold pass⟩
    · -- the batch is closed, so only a generated append circulates on, as a response
      cases htimer : f.hdr.timer.isValid with
      | false => simp [(pass.closedBatch hclosed htimer).1] at hcirc
      | true =>
        have hresp := (pass.generated hclosed htimer).2.2
        refine ⟨?_, fun ha => absurd (hresp.symm.trans ha.2) typeResp_ne_append⟩
        intro h0
        simp only at h0
        rw [← pass.gIdx, h0] at hnum
        simp at hnum
  | response kind valid pass =>
    have hr : ¬ MyIngress.Ready s.regs f.hdr := by
      intro hr
      simp [(pass.released hr).1] at hcirc
    refine ⟨fun h0 => hr ?_, ?_⟩
    · simp only [pass.append] at h0
      rw [MyIngress.Ready, h0]
      exact BitVec.le_def.2 (Nat.zero_le _)
    · intro ha
      have hty := ha.2
      rw [pass.ringType, kind.2] at hty
      exact absurd hty typeResp_ne_append
  | idle _ _ _ _ pass => simp [pass.circulate] at hcirc

/-- The slot of the open batch stays zero from its first append on. -/
theorem Numbered.openSlot_after (h : s.Numbered) (hb : s.Bounded)
    (hk : MyIngress.PassKind s.regs f.hdr out)
    (hex : ∃ g ∈ (s.after f out).pending, g.hdr.IsAppend) :
    out.regs.mapFromGsn.get (s.after f out).batches.length = 0 := by
  have hcount := h.slots.count
  cases hk with
  | control kind pass =>
    have hpend : (s.after f out).pending = [] := by
      by_cases h0 : s.regs.localSeqNo = 0
      · rw [pending_quiet (fun hc => hc.2 h0) kind.not_draws,
          h.slots.pending_eq_nil_iff hb.pending, h0]
      · exact pending_closes ⟨kind, h0⟩
    simp [hpend] at hex
  | fresh kind draws pass =>
    rw [batches_quiet (not_closes kind.1), pass.mapFromGsn, ← hcount,
      RegArray.get_set_self pass.inRange]
  | circulating kind numbered pass =>
    rw [pending_quiet (not_closes kind.1) (fun hd => numbered hd.2.2)] at hex
    rw [batches_quiet (not_closes kind.1), pass.mapFromGsn]
    exact h.openSlot hex
  | response kind valid pass =>
    rw [batches_quiet (not_closes kind.1), pass.mapFromGsn]
    refine h.openSlot ?_
    by_cases hd : f.hdr.Draws
    · -- a response that draws a number is no append
      rw [pending_draws hd] at hex
      obtain ⟨g, hg, ha⟩ := hex
      rcases List.mem_append.1 hg with hg | hg
      · exact ⟨g, hg, ha⟩
      · rw [List.mem_singleton.1 hg] at ha
        exact absurd ha kind.not_append
    · rwa [pending_quiet (not_closes kind.1) hd] at hex
  | idle notControl invalid _ _ pass =>
    have hnd : ¬ f.hdr.Draws := Headers.not_draws_of_invalid invalid
    rw [pending_quiet (not_closes notControl) hnd] at hex
    rw [batches_quiet (not_closes notControl), pass.mapFromGsn]
    exact h.openSlot hex

/-- **A pass keeps the numbers.** -/
theorem Numbered.pass (h : s.Numbered) (hb : s.Bounded) (hw : f.hdr.WellFormed)
    (hd : f.hdr.Draws → s.pending.length + 1 < 2 ^ 32)
    (hf : f.hdr.IsAppend → f.hdr.append.gIdx ≠ 0 → s.HasOffset f)
    (hp : MyIngress.apply p t tstamp s.regs f.hdr = some out) : (s.after f out).Numbered where
  slots := h.slots.pass hw hp
  openSlot := h.openSlot_after hb (MyIngress.passKind hw hp)
  offsets g hg := by
    rcases (mem_circ_after s f out).1 hg with hg | ⟨hcirc, rfl⟩
    · exact (h.offsets g hg).after f out
    · exact h.offset_after hb hd hf (MyIngress.passKind hw hp) hcirc

end Switch

end Pringles.P4
