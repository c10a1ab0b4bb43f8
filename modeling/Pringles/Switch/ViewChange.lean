import Pringles.Switch.OpenSlot

/-!
# View changes

The answer to a view-change request reports the slot before the open one. That slot holds the base
of the batch closed last, which is the number that the control packet brought before that batch was
added to it. So the answer misses the appends of the last batch, and it covers the batches before
only if their numbers are not above this base (`view_covers_iff`). One control packet alone sees to
the second, any other that is behind breaks it.
-/

namespace Pringles.P4

/-! ## Final numbers -/

namespace Batch

variable {b : Batch} {j : Nat}

/-- The number of the packet that drew the offset `j + 1`. -/
def number (b : Batch) (j : Nat) : BitVec 32 := b.base + BitVec.ofNat 32 (j + 1)

/-- The offset is not zero, and adding it to the base does not wrap. -/
def Fits (b : Batch) (j : Nat) : Prop :=
  0 < (j + 1) % 2 ^ 32 ∧ b.base.toNat + (j + 1) % 2 ^ 32 < 2 ^ 32

theorem toNat_number : (b.number j).toNat = (b.base.toNat + (j + 1) % 2 ^ 32) % 2 ^ 32 := by
  rw [number, BitVec.toNat_add, BitVec.toNat_ofNat]

/-- A number is above its base unless it wraps. -/
theorem number_le_base_iff : b.number j ≤ b.base ↔ ¬ b.Fits j := by
  have hbase := b.base.isLt
  have hoff : (j + 1) % 2 ^ 32 < 2 ^ 32 := Nat.mod_lt _ (by decide)
  rw [BitVec.le_def, toNat_number, Fits]
  omega

end Batch

namespace Switch

variable {p : Program} {t : Tables} {tstamp : BitVec 48} {s s' s₀ : Switch} {f g : Flight}
  {out : Pipe} {e : Event} {o : Pass} {tr : List (Event × Pass)} {q : Headers} {n : BitVec 32}

/-- An append on the loopback port that has the offset of its place in its batch. -/
def Placed (s : Switch) (g : Flight) : Prop :=
  ∃ j, g.hdr.append.gIdx = BitVec.ofNat 32 (j + 1) ∧ s.HoldsNumber g j

/-- The pass completed the number of an append whose batch is closed. -/
def Completed (s : Switch) (o : Pass) : Prop :=
  o.flight.hdr.IsAppend → o.flight.hdr.append.gIdx ≠ 0 →
    o.flight.hdr.append.cntrlPktIt ≠ o.found.cntrlPktIt →
    ∃ b ∈ s.batches, ∃ j f, b.tickets[j]? = some f ∧ f.id = o.flight.id ∧ f.hdr.IsAppend ∧
      o.out.hdr.append.gIdx = b.number j

/-- What a pass of an append on the loopback port reads is the base of its batch. -/
theorem Offsets.completed (h : Offsets tr s) (hplaced : s.Placed f)
    (hk : MyIngress.PassKind s.regs f.hdr out) : s.Completed ⟨f, s.regs, out⟩ := by
  intro ha hne hclosed
  obtain ⟨j, hj, l, g, hl, hg, hid, happ⟩ := hplaced
  have hslots := h.table.slots
  rcases epochs_cases hl with ⟨b, hb, rfl⟩ | ⟨hopen, rfl⟩
  · refine ⟨b, List.mem_of_getElem? hb, j, g, hg, hid, happ, ?_⟩
    cases hk with
    | control kind _ => exact absurd ha kind.not_append
    | fresh _ draws _ => exact absurd draws.2.2 hne
    | circulating _ _ pass =>
      rw [pass.gIdx, hslots.base _ b hb, hj, Batch.number, BitVec.add_comm]
    | response kind _ _ => exact absurd ha kind.not_append
    | idle _ _ notAppend _ _ => exact absurd ha.2 notAppend
  · refine absurd ?_ hclosed
    rw [← BitVec.toNat_inj]
    exact hopen.trans hslots.count.symm

/-- What goes back to the loopback port as an append has the offset of its place. -/
theorem Offsets.placed_after (h : Offsets tr s) (hbound : appends tr < 2 ^ 32)
    (hpres : Presented s f s₀) (hw : f.hdr.WellFormed)
    (hf : f.hdr.IsAppend → f.hdr.append.gIdx ≠ 0 → f ∈ s.circ ∧ s.Placed f)
    (hk : MyIngress.PassKind s.regs f.hdr out) (hcirc : out.metadata.circulate = true)
    (ha : out.hdr.IsAppend) : (s₀.after f out).Placed ⟨f.id, out.hdr⟩ := by
  rcases circulates_cases hk hcirc ha with ⟨hu, pass⟩ | ⟨happ, hne, pass, hopen⟩
  · have hslots := h.table.slots.presented hpres
    have hdraws : f.hdr.Draws := ⟨hu.1.1, (hw hu.1.1).2 (.inl hu.1.2), hu.2⟩
    rw [← hpres.regs] at pass
    refine ⟨s₀.pending.length, ?_, hslots.holdsNumber_fresh hu.1 hdraws pass⟩
    rw [pass.gIdx, hslots.drawn, BitVec.ofNat_add]
    rfl
  · obtain ⟨hmem, j, hj, hold⟩ := hf happ hne
    have hkept := h.gIdx_kept hbound hmem happ pass hopen
    rw [← hpres.regs] at pass
    exact ⟨j, hkept.trans hj, holdsNumber_circulating (hpres.holdsNumber hold) pass⟩

/-- No batch is forgotten, and none is changed. -/
theorem Completed.mono (h : s.Completed o) (hle : s.batches <+: s'.batches) : s'.Completed o := by
  intro ha hne hclosed
  obtain ⟨b, hb, hnumber⟩ := h ha hne hclosed
  exact ⟨b, hle.subset hb, hnumber⟩

/-- **The numbers that appends leave with**: every append that finds its batch closed leaves with the
number of its place in a batch of the history. -/
theorem completed_run (hr : (machine p t).Run {} tr s)
    (hA : ∀ x ∈ tr, x.1.Arrives Headers.Sent)
    (hresp : ∀ x ∈ tr, x.2.flight.hdr.IsAppendResp → x.2.flight.hdr.append.gIdx ≠ 0)
    (hbound : appends tr < 2 ^ 32) :
    (∀ g ∈ s.circ, g.hdr.IsAppend → s.Placed g) ∧ ∀ x ∈ tr, s.Completed x.2 := by
  induction hr with
  | nil => exact ⟨fun _ hg => absurd hg List.not_mem_nil, fun _ hx => absurd hx List.not_mem_nil⟩
  | @snoc s s' tr e o hr hs ih =>
    have hbefore := hbound
    rw [appends_snoc] at hbefore
    have hold : appends tr < 2 ^ 32 := by omega
    simp only [List.forall_mem_append, List.forall_mem_singleton] at hA hresp ⊢
    have h : Offsets tr s := offsets_run hr hA.1 hresp.1 hold
    obtain ⟨hplaced, hcompleted⟩ := ih hA.1 hresp.1 hold
    have hle := batches_isPrefixOf (.single hs)
    obtain ⟨f, s₀, out, hp, hout, rfl, rfl⟩ := step_eq_some hs
    have hpres := Switch.presented hp
    have hw : f.hdr.WellFormed := (h.table.present hA.2 hp).1
    have hk : MyIngress.PassKind s.regs f.hdr out := MyIngress.passKind hw hout
    have hf : f.hdr.IsAppend → f.hdr.append.gIdx ≠ 0 → f ∈ s.circ ∧ s.Placed f := by
      intro ha hne
      have hmem : f ∈ s.circ := mem_circ_of_numbered hA.2 hp ha hne
      exact ⟨hmem, hplaced f hmem ha⟩
    refine ⟨?_, fun x hx => (hcompleted x hx).mono hle, ?_⟩
    · intro g hg ha
      rcases (mem_circ_after s₀ f out).1 hg with hg | ⟨hc, rfl⟩
      · obtain ⟨j, hj, hnumber⟩ := hplaced g (hpres.circ.subset hg) ha
        exact ⟨j, hj, (hpres.holdsNumber hnumber).after f out⟩
      · exact h.placed_after hold hpres hw hf hk hc ha
    · refine Completed.mono ?_ hle
      intro ha hne
      exact h.completed (hf ha hne).2 hk ha hne

/-! ## The answer -/

/-- `n` is at least the final number of every append whose batch the switch has closed. -/
def Covers (s : Switch) (n : BitVec 32) : Prop :=
  ∀ b ∈ s.batches, ∀ j f, b.tickets[j]? = some f → f.hdr.IsAppend → b.number j ≤ n

/-- The batch closed last has no append, unless one whose number wraps, and the control packet that
closed it came with a number that is at least the number of every append of the batches before. -/
structure LastCovers (s : Switch) (last : Batch) : Prop where
  none : ∀ j f, last.tickets[j]? = some f → f.hdr.IsAppend → ¬ last.Fits j
  earlier : ∀ b ∈ s.batches.dropLast, ∀ j f, b.tickets[j]? = some f → f.hdr.IsAppend →
    b.number j ≤ last.base

/-- The answer is the base of the batch closed last. -/
theorem Slots.view_eq_base (h : s.Slots) (hne : s.batches ≠ []) (hq : MyIngress.Answered p q)
    (hout : MyIngress.apply p t tstamp s.regs q = some out) :
    out.hdr.startView.highestSeenSeqNo = (s.batches.getLast hne).base := by
  obtain ⟨-, hhigh⟩ := MyIngress.apply_view hq hout
  have hpos : 0 < s.batches.length := List.length_pos_iff.2 hne
  have hprev : (s.regs.cntrlPktIt - 1).toNat = s.batches.length - 1 := by
    have hsub : (s.regs.cntrlPktIt - 1).toNat =
        (65536 - 1 + s.regs.cntrlPktIt.toNat) % 65536 := BitVec.toNat_sub ..
    have hlt := s.regs.cntrlPktIt.isLt
    rw [h.count] at hsub hlt
    omega
  rw [hhigh, hprev]
  exact h.base _ _ (by rw [← List.getLast?_eq_getElem?, List.getLast?_eq_some_getLast hne])

/-- The base of the last batch covers the others if their numbers are not above it. -/
theorem covers_base_iff (hne : s.batches ≠ []) :
    s.Covers (s.batches.getLast hne).base ↔ s.LastCovers (s.batches.getLast hne) := by
  constructor
  · intro hall
    constructor
    · intro j f hf ha
      exact Batch.number_le_base_iff.1 (hall _ (List.getLast_mem hne) j f hf ha)
    · intro b hb
      exact hall b (List.mem_of_mem_dropLast hb)
  · rintro ⟨hnone, hearlier⟩ b hb j f hf ha
    rw [← List.dropLast_append_getLast hne] at hb
    rcases List.mem_append.1 hb with hb | hb
    · exact hearlier b hb j f hf ha
    · obtain rfl := List.mem_singleton.1 hb
      exact Batch.number_le_base_iff.2 (hnone j f hf ha)

/-- It is enough that the batches before the last one end below its base. -/
theorem lastCovers_of_le {last : Batch} (hnone : ∀ f ∈ last.tickets, ¬ f.hdr.IsAppend)
    (hle : ∀ b ∈ s.batches.dropLast, b.base.toNat + b.tickets.length ≤ last.base.toNat) :
    s.LastCovers last where
  none j f hf ha := absurd ha (hnone f (List.mem_of_getElem? hf))
  earlier b hb j f hf _ := by
    have hj : j < b.tickets.length := (List.getElem?_eq_some_iff.1 hf).1
    have hend := hle b hb
    have hoff : (j + 1) % 2 ^ 32 ≤ j + 1 := Nat.mod_le ..
    have hwrap := Nat.mod_le (b.base.toNat + (j + 1) % 2 ^ 32) (2 ^ 32)
    rw [BitVec.le_def, Batch.toNat_number]
    omega

/-- **What a view change forgets.** A switch that has closed a batch answers, whatever control
packets have come by, and the answer covers every append that it has numbered if and only if the
batch closed last has none of them and came with a number that covers the batches before. -/
theorem view_covers_iff (hr : (machine p t).Run {} tr s)
    (hA : ∀ x ∈ tr, x.1.Arrives Headers.WellFormed) (hne : s.batches ≠ [])
    (hq : MyIngress.Answered p q) : ∃ out, MyIngress.apply p t tstamp s.regs q = some out ∧
      (s.Covers out.hdr.startView.highestSeenSeqNo ↔ s.LastCovers (s.batches.getLast hne)) := by
  have h := slots_run hr hA
  have hcount : s.regs.cntrlPktIt.toNat ≠ 0 := by
    rw [h.count]
    exact (List.length_pos_iff.2 hne).ne'
  obtain ⟨out, hout⟩ := exists_answer hq hcount t tstamp
  refine ⟨out, hout, ?_⟩
  rw [h.view_eq_base hne hq hout]
  exact covers_base_iff hne

/-- Two control packets, and a response without a number in the last batch: the answer covers the
append of the batch before. -/
theorem view_covers_iff_response : ∃ tr s out, ∃ hne : s.batches ≠ [],
    (machine .failure {}).Run {} tr s ∧
      MyIngress.apply .failure {} 0 s.regs (.viewPkt 2) = some out ∧
      (s.Covers out.hdr.startView.highestSeenSeqNo ↔ s.LastCovers (s.batches.getLast hne)) ∧
      s.LastCovers (s.batches.getLast hne) := by
  have hx : (machine .failure {}).exec {} [.arrive 0 ⟨0, .appendPkt⟩, .arrive 0 ⟨1, .controlPkt 4⟩,
    .arrive 0 ⟨2, .responsePkt 0⟩, .arrive 0 ⟨3, .controlPkt 9⟩] = some (_, _) := rfl
  obtain ⟨tr, s, hr, hA, hne, hlast⟩ : ∃ tr s, (machine .failure {}).Run {} tr s ∧
      (∀ x ∈ tr, x.1.Arrives Headers.WellFormed) ∧ ∃ hne : s.batches ≠ [],
        s.LastCovers (s.batches.getLast hne) := by
    refine ⟨_, _, .of_exec hx, by simp [Event.Arrives]; decide, by decide, lastCovers_of_le ?_ ?_⟩
    · decide
    · decide
  obtain ⟨out, hout, hiff⟩ : ∃ out, MyIngress.apply .failure {} 0 s.regs (.viewPkt 2) = some out ∧
      (s.Covers out.hdr.startView.highestSeenSeqNo ↔ s.LastCovers (s.batches.getLast hne)) :=
    view_covers_iff hr hA hne (by decide)
  exact ⟨tr, s, out, hne, hr, hout, hiff, hlast⟩

/-- One append and the control visit that numbers it: the answer is zero, the append has number
one. -/
theorem view_forgets : ¬ ∀ tr s out, (machine .failure {}).Run {} tr s →
    (∀ x ∈ tr, x.1.Arrives Headers.WellFormed) → s.batches ≠ [] →
    s.batches.length < maxGsnMapSize →
    MyIngress.apply .failure {} 0 s.regs (.viewPkt 2) = some out →
    s.Covers out.hdr.startView.highestSeenSeqNo := by
  intro hall
  have hx : (machine .failure {}).exec {} [.arrive 0 ⟨0, .appendPkt⟩,
    .arrive 0 ⟨1, .controlPkt 0⟩] = some (_, _) := rfl
  have h := hall _ _ _ (.of_exec hx) (by simp [Event.Arrives]; decide) (by decide) (by decide) rfl
    _ (List.mem_singleton_self _) 0 _ rfl (by decide)
  exact absurd h (by decide)

end Switch

end Pringles.P4
