import Pringles.Switch.GsnTable

/-!
# The slot of the open batch

A circulating append adds what the slot of its batch holds to its own offset on every pass, so the
slot has to be zero as long as the batch is open. Empty control visits write the slot that the next
batch is going to use; the first append of the batch clears it again (`SlotClear`). While no counter
of a batch wraps, the batch of an append that still finds its own slot number in the register is
open, so the append leaves every such pass with the offset of its first one (`offset_kept`).
-/

namespace Pringles.P4

/-- While `local_seq_no` counts appends, the current slot is clear. -/
def SlotClear (regs : Registers) : Prop :=
  regs.localSeqNo ≠ 0 → regs.mapFromGsn.get regs.cntrlPktIt.toNat = 0

/-- A pass keeps that, unless it is that of a response without a number. -/
theorem SlotClear.pass {regs : Registers} {hdr : Headers} {out : Pipe} (h : SlotClear regs)
    (hk : MyIngress.PassKind regs hdr out)
    (hresp : hdr.IsAppendResp → hdr.append.gIdx ≠ 0) : SlotClear out.regs := by
  unfold SlotClear at h ⊢
  cases hk with
  | control _ pass => exact fun hne => absurd pass.localSeqNo hne
  | fresh _ _ pass =>
    intro _
    rw [pass.mapFromGsn, pass.cntrlPktIt, RegArray.get_set_self pass.inRange]
  | circulating _ _ pass =>
    rw [pass.localSeqNo, pass.mapFromGsn, pass.cntrlPktIt]
    exact h
  | response kind _ pass =>
    rw [pass.localSeqNo, if_neg (hresp kind), pass.mapFromGsn, pass.cntrlPktIt]
    exact h
  | idle _ _ _ _ pass =>
    rw [pass.localSeqNo, pass.mapFromGsn, pass.cntrlPktIt]
    exact h

namespace Switch

variable {p : Program} {t : Tables} {tstamp : BitVec 48} {s s' s₀ : Switch} {f g : Flight}
  {out : Pipe} {e : Event} {o : Pass} {tr tr' : List (Event × Pass)} {x : Event × Pass}

/-- An append enters the switch. -/
def Event.isAppend : Event → Bool
  | arrive _ f => f.hdr.IsAppend
  | recirc _ _ => false

def Event.isRecirc : Event → Bool
  | arrive _ _ => false
  | recirc _ _ => true

/-- The number of appends that have entered. -/
def appends (tr : List (Event × Pass)) : Nat := tr.countP fun x => x.1.isAppend

theorem appends_snoc (tr : List (Event × Pass)) (x : Event × Pass) :
    appends (tr ++ [x]) = appends tr + if x.1.isAppend then 1 else 0 := by
  rw [appends, List.countP_append, List.countP_singleton]
  rfl

/-- `g` has the offset and the slot that the first pass of the append gave it. -/
def Entered (tr : List (Event × Pass)) (g : Flight) : Prop :=
  ∃ x ∈ tr, x.2.flight.id = g.id ∧ x.2.flight.hdr.IsUnnumbered ∧
    x.2.out.hdr.append.gIdx = g.hdr.append.gIdx ∧
    x.2.out.hdr.append.cntrlPktIt = g.hdr.append.cntrlPktIt

theorem Entered.append_right (h : Entered tr g) (tr' : List (Event × Pass)) :
    Entered (tr ++ tr') g := by
  obtain ⟨x, hx, hent⟩ := h
  exact ⟨x, List.mem_append_left _ hx, hent⟩

/-- A recirculated append that finds its own slot number in the register leaves with the offset that
it came with, the one of its first pass. -/
def KeepsOffset (tr : List (Event × Pass)) (x : Event × Pass) : Prop :=
  x.1.isRecirc → x.2.flight.hdr.IsAppend →
    x.2.flight.hdr.append.cntrlPktIt = x.2.found.cntrlPktIt →
    x.2.out.hdr.append.gIdx = x.2.flight.hdr.append.gIdx ∧ Entered tr x.2.flight

/-- The slots, the clear one among them, and the offsets of the appends on the loopback port. -/
structure Offsets (tr : List (Event × Pass)) (s : Switch) : Prop where
  table : s.Table
  clear : SlotClear s.regs
  drawn : s.pending.length ≤ appends tr
  numbered : ∀ g ∈ s.circ, g.hdr.IsAppend → g.hdr.append.gIdx ≠ 0
  entered : ∀ g ∈ s.circ, g.hdr.IsAppend → Entered tr g
  kept : ∀ x ∈ tr, KeepsOffset tr x

theorem offsets_init : Offsets [] {} where
  table := ⟨slots_init, fun _ hg => absurd hg List.not_mem_nil⟩
  clear h := absurd rfl h
  drawn := Nat.zero_le _
  numbered _ hg := absurd hg List.not_mem_nil
  entered _ hg := absurd hg List.not_mem_nil
  kept _ hx := absurd hx List.not_mem_nil

/-- The batch of an append that finds its own slot number in the register is open, so it reads zero
there. -/
theorem Offsets.reads_zero (h : Offsets tr s) (hbound : appends tr < 2 ^ 32) {j : Nat}
    (hj : s.HoldsNumber g j) (hopen : g.hdr.append.cntrlPktIt = s.regs.cntrlPktIt) :
    s.regs.mapFromGsn.get g.hdr.append.cntrlPktIt.toNat = 0 := by
  obtain ⟨l, f, hl, hf, -⟩ := hj
  have hcount : g.hdr.append.cntrlPktIt.toNat = s.batches.length := by
    rw [hopen, h.table.slots.count]
  rw [hcount, epochs_open, Option.some.injEq] at hl
  have hpending : 0 < s.pending.length := by
    rw [hl]
    exact Nat.zero_lt_of_lt (List.getElem?_eq_some_iff.1 hf).1
  have hlt : s.pending.length < 2 ^ 32 := Nat.lt_of_le_of_lt h.drawn hbound
  have hlocal : s.regs.localSeqNo ≠ 0 := by
    intro hzero
    rw [h.table.slots.drawn, ← BitVec.toNat_inj, BitVec.toNat_ofNat, Nat.mod_eq_of_lt hlt] at hzero
    exact absurd hzero hpending.ne'
  rw [hopen]
  exact h.clear hlocal

theorem Offsets.circulating (h : Offsets tr s) (hf : f ∈ s.circ) (ha : f.hdr.IsAppend)
    (hk : MyIngress.PassKind s.regs f.hdr out) : MyIngress.CirculatingPass s.regs f.hdr out := by
  cases hk with
  | control kind _ => exact absurd ha kind.not_append
  | fresh _ draws _ => exact absurd draws.2.2 (h.numbered f hf ha)
  | circulating _ _ pass => exact pass
  | response kind _ _ => exact absurd ha kind.not_append
  | idle _ _ notAppend _ _ => exact absurd ha.2 notAppend

/-- A recirculated append keeps its offset while its batch is open. -/
theorem Offsets.gIdx_kept (h : Offsets tr s) (hbound : appends tr < 2 ^ 32) (hf : f ∈ s.circ)
    (ha : f.hdr.IsAppend) (pass : MyIngress.CirculatingPass s.regs f.hdr out)
    (hopen : f.hdr.append.cntrlPktIt = s.regs.cntrlPktIt) :
    out.hdr.append.gIdx = f.hdr.append.gIdx := by
  obtain ⟨-, j, hj⟩ := h.table.carries f hf ha
  rw [pass.gIdx, h.reads_zero hbound hj hopen]
  exact BitVec.add_zero _

/-- An append that goes back to the loopback port was without a number, or its batch is open. -/
theorem circulates_cases (hk : MyIngress.PassKind s.regs f.hdr out)
    (hcirc : out.metadata.circulate = true) (ha : out.hdr.IsAppend) :
    f.hdr.IsUnnumbered ∧ MyIngress.FreshPass s.regs f.hdr out ∨
      f.hdr.IsAppend ∧ f.hdr.append.gIdx ≠ 0 ∧ MyIngress.CirculatingPass s.regs f.hdr out ∧
        f.hdr.append.cntrlPktIt = s.regs.cntrlPktIt := by
  cases hk with
  | control _ pass => simp [pass.circulate] at hcirc
  | fresh kind draws pass => exact .inl ⟨⟨kind, draws.2.2⟩, pass⟩
  | circulating kind numbered pass =>
    refine .inr ⟨kind, numbered, pass, ?_⟩
    by_contra hclosed
    cases htimer : f.hdr.timer.isValid with
    | false => simp [(pass.closedBatch hclosed htimer).1] at hcirc
    | true =>
      exact typeResp_ne_append ((pass.generated hclosed htimer).2.2.symm.trans ha.2)
  | response kind _ pass =>
    exact absurd (kind.2.symm.trans (pass.ringType ▸ ha.2)) typeResp_ne_append
  | idle _ _ _ _ pass => simp [pass.circulate] at hcirc

/-- An append with a number comes from the loopback port. -/
theorem mem_circ_of_numbered (hA : e.Arrives Headers.Sent) (hp : s.present e = some (f, s₀))
    (ha : f.hdr.IsAppend) (hne : f.hdr.append.gIdx ≠ 0) : f ∈ s.circ := by
  rcases present_origin hp with ⟨ts, rfl⟩ | hmem
  · rcases hA with hc | he
    · exact absurd ha hc.not_append
    · exact absurd (he.2.2 ha) hne
  · exact hmem

theorem mem_circ_of_isRecirc (hrec : e.isRecirc = true) (hp : s.present e = some (f, s₀)) :
    f ∈ s.circ := by
  rcases present_origin hp with ⟨ts, rfl⟩ | hmem
  · cases hrec
  · exact hmem

/-- An append without a number enters. -/
theorem Offsets.isAppend_of_unnumbered (h : Offsets tr s) (hp : s.present e = some (f, s₀))
    (hu : f.hdr.IsUnnumbered) : e.isAppend = true := by
  cases e with
  | arrive ts g =>
    simp only [present, Option.some.injEq, Prod.mk.injEq] at hp
    rw [hp.1]
    exact decide_eq_true hu.1
  | recirc ts k =>
    simp only [present, Option.map_eq_some_iff, Prod.mk.injEq] at hp
    obtain ⟨g, hg, rfl, -⟩ := hp
    exact absurd hu.2 (h.numbered g (List.mem_of_getElem? hg) hu.1)

/-- What goes back to the loopback port as an append has the offset of its first pass. -/
theorem Offsets.circ_after (h : Offsets tr s) (hA : e.Arrives Headers.Sent)
    (hp : s.present e = some (f, s₀)) (hbound : appends (tr ++ [(e, ⟨f, s.regs, out⟩)]) < 2 ^ 32)
    (hk : MyIngress.PassKind s.regs f.hdr out) (hcirc : out.metadata.circulate = true)
    (ha : out.hdr.IsAppend) : out.hdr.append.gIdx ≠ 0 ∧
      Entered (tr ++ [(e, ⟨f, s.regs, out⟩)]) ⟨f.id, out.hdr⟩ := by
  rw [appends_snoc] at hbound
  rcases circulates_cases hk hcirc ha with ⟨hu, pass⟩ | ⟨hf, hne, pass, hopen⟩
  · rw [if_pos (h.isAppend_of_unnumbered hp hu)] at hbound
    have hdrawn := h.drawn
    refine ⟨?_, _, List.mem_append_right _ (List.mem_singleton_self _), rfl, hu, rfl, rfl⟩
    intro hzero
    rw [pass.gIdx, h.table.slots.drawn, ← BitVec.toNat_inj, BitVec.toNat_add,
      BitVec.toNat_ofNat] at hzero
    change (s.pending.length % 2 ^ 32 + 1) % 2 ^ 32 = 0 at hzero
    omega
  · have hmem : f ∈ s.circ := mem_circ_of_numbered hA hp hf hne
    have hidx := h.gIdx_kept (by omega) hmem hf pass hopen
    obtain ⟨x, hx, hid, hu, hgIdx, hslot⟩ := (h.entered f hmem hf).append_right
      [(e, ⟨f, s.regs, out⟩)]
    exact ⟨hidx ▸ hne, x, hx, hid, hu, hgIdx.trans hidx.symm, hslot.trans pass.stored.symm⟩

/-- A pass draws at most one number, for an append that enters. -/
theorem Offsets.drawn_after (h : Offsets tr s) (hp : s.present e = some (f, s₀))
    (hw : f.hdr.WellFormed) (hresp : f.hdr.IsAppendResp → f.hdr.append.gIdx ≠ 0) (o : Pass) :
    (s₀.after f out).pending.length ≤ appends (tr ++ [(e, o)]) := by
  have hdrawn : s₀.pending.length ≤ appends tr := by
    rw [(Switch.presented hp).pending]
    exact h.drawn
  rw [appends_snoc]
  by_cases hc : s₀.Closes f.hdr
  · rw [pending_closes hc]
    exact Nat.zero_le _
  by_cases hd : f.hdr.Draws
  · have hu : f.hdr.IsUnnumbered := by
      refine ⟨⟨hd.1, ((hw hd.1).1 hd.2.1).resolve_right ?_⟩, hd.2.2⟩
      exact fun htype => hresp ⟨hd.1, htype⟩ hd.2.2
    rw [pending_draws hd, if_pos (h.isAppend_of_unnumbered hp hu), List.length_append]
    exact Nat.succ_le_succ hdrawn
  · rw [pending_quiet hc hd]
    omega

theorem KeepsOffset.append_right (h : KeepsOffset tr x) (tr' : List (Event × Pass)) :
    KeepsOffset (tr ++ tr') x := by
  intro hrec ha hopen
  obtain ⟨hidx, hent⟩ := h hrec ha hopen
  exact ⟨hidx, hent.append_right tr'⟩

/-- **A step keeps the offsets.** -/
theorem Offsets.step (h : Offsets tr s) (hA : e.Arrives Headers.Sent)
    (hresp : o.flight.hdr.IsAppendResp → o.flight.hdr.append.gIdx ≠ 0)
    (hbound : appends (tr ++ [(e, o)]) < 2 ^ 32)
    (hs : (machine p t).step s e = some (s', o)) : Offsets (tr ++ [(e, o)]) s' := by
  have htable : s'.Table := h.table.step hA hs
  obtain ⟨f, s₀, out, hp, hout, rfl, rfl⟩ := step_eq_some hs
  have hpres := Switch.presented hp
  have hw : f.hdr.WellFormed := (h.table.present hA hp).1
  have hk : MyIngress.PassKind s.regs f.hdr out := MyIngress.passKind hw hout
  have hold : appends tr < 2 ^ 32 := by
    rw [appends_snoc] at hbound
    omega
  -- an append on the loopback port was there before the step, or it is the one of the step
  have hcirc {P : Flight → Prop} (hbefore : ∀ g ∈ s.circ, g.hdr.IsAppend → P g)
      (hnew : out.metadata.circulate = true → out.hdr.IsAppend → P ⟨f.id, out.hdr⟩) :
      ∀ g ∈ (s₀.after f out).circ, g.hdr.IsAppend → P g := by
    intro g hg ha
    rcases (mem_circ_after s₀ f out).1 hg with hg | ⟨hc, rfl⟩
    · exact hbefore g (hpres.circ.subset hg) ha
    · exact hnew hc ha
  refine ⟨htable, h.clear.pass hk hresp, ?_, ?_, ?_, ?_⟩
  · exact h.drawn_after hp hw hresp _
  · exact hcirc h.numbered fun hc ha => (h.circ_after hA hp hbound hk hc ha).1
  · exact hcirc (fun g hg ha => (h.entered g hg ha).append_right _)
      fun hc ha => (h.circ_after hA hp hbound hk hc ha).2
  · intro x hx
    rcases List.mem_append.1 hx with hx | hx
    · exact (h.kept x hx).append_right _
    · obtain rfl := List.mem_singleton.1 hx
      intro hrec ha hopen
      have hmem : f ∈ s.circ := mem_circ_of_isRecirc hrec hp
      exact ⟨h.gIdx_kept hold hmem ha (h.circulating hmem ha hk) hopen,
        (h.entered f hmem ha).append_right _⟩

/-- The offsets hold in every reachable state. -/
theorem offsets_run (hr : (machine p t).Run {} tr s) (hA : ∀ x ∈ tr, x.1.Arrives Headers.Sent)
    (hresp : ∀ x ∈ tr, x.2.flight.hdr.IsAppendResp → x.2.flight.hdr.append.gIdx ≠ 0)
    (hbound : appends tr < 2 ^ 32) : Offsets tr s := by
  induction hr with
  | nil => exact offsets_init
  | snoc hr hs ih =>
    rw [List.forall_mem_append] at hA hresp
    have hlast := hresp.2 _ (List.mem_singleton_self _)
    have hbefore := hbound
    rw [appends_snoc] at hbefore
    exact (ih hA.1 hresp.1 (by omega)).step (hA.2 _ (List.mem_singleton_self _)) hlast hbound hs

/-- **The slot of the open batch is clear** in every reachable state, and every pass of a recirculated
append whose slot number is that of the register leaves it the offset of its first pass. As long as
the table has a slot left every packet can make its pass, an answered view change aside. -/
theorem offset_kept (hr : (machine p t).Run {} tr s) (hA : ∀ x ∈ tr, x.1.Arrives Headers.Sent)
    (hresp : ∀ x ∈ tr, x.2.flight.hdr.IsAppendResp → x.2.flight.hdr.append.gIdx ≠ 0)
    (hbound : appends tr < 2 ^ 32) :
    (s.regs.localSeqNo ≠ 0 → s.regs.mapFromGsn.get s.regs.cntrlPktIt.toNat = 0) ∧
      (∀ x ∈ tr, KeepsOffset tr x) ∧
      (s.batches.length < maxGsnMapSize → ∀ e f s₀, e.Arrives Headers.Sent →
        s.present e = some (f, s₀) → MyIngress.gsnSlot p f.hdr ≠ some .previous →
        ∃ q, (machine p t).step s e = some q) := by
  have hrun : Offsets tr s := offsets_run hr hA hresp hbound
  refine ⟨hrun.clear, hrun.kept, ?_⟩
  intro hlt e f s₀ hsent hp hview
  exact (hrun.table.step_isSome_iff hsent hp).2 ⟨fun _ => hlt, fun h => absurd h hview⟩

/-- An append goes around twice in the slot that an empty control visit has written. -/
theorem offset_kept_two : ∃ tr s, (machine .sequencingOnly {}).Run {} tr s ∧ tr.length = 4 ∧
    s.regs.localSeqNo = 1 ∧ s.regs.mapFromGsn.get s.regs.cntrlPktIt.toNat = 0 ∧
    ∀ x ∈ tr, KeepsOffset tr x := by
  have hx : (machine .sequencingOnly {}).exec {} [.arrive 0 ⟨0, .controlPkt 7⟩,
    .arrive 0 ⟨1, .appendPkt⟩, .recirc 0 0, .recirc 0 0] = some (_, _) := rfl
  obtain ⟨tr, s, hr, hlen, hlocal, hA, hresp, hbound⟩ : ∃ tr s,
      (machine .sequencingOnly {}).Run {} tr s ∧ tr.length = 4 ∧ s.regs.localSeqNo = 1 ∧
      (∀ x ∈ tr, x.1.Arrives Headers.Sent) ∧
      (∀ x ∈ tr, x.2.flight.hdr.IsAppendResp → x.2.flight.hdr.append.gIdx ≠ 0) ∧
      appends tr < 2 ^ 32 := by
    refine ⟨_, _, .of_exec hx, rfl, rfl, ?_, ?_, ?_⟩
    · simp [Event.Arrives, Headers.Sent]
      decide
    · decide
    · decide
  obtain ⟨hclear, hkept, -⟩ := offset_kept hr hA hresp hbound
  refine ⟨tr, s, hr, hlen, hlocal, hclear ?_, hkept⟩
  rw [hlocal]
  decide

end Switch

end Pringles.P4
