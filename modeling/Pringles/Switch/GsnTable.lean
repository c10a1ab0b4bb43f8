import Pringles.Switch.Basic

/-!
# The table of batch bases

`map_from_gsn` has one cell fewer than `cntrl_pkt_it` has values, and `update_cntrl_pkt_it` wraps
behind the last of these cells and not before it. So a switch may use up its 65535 slots, and from
then on everything that addresses the open batch is out of range. A view change addresses the slot
before the open batch, which is out of range as long as no batch has been closed. These are the only
two ways out of the table (`table_in_range_iff`).

While a switch has slots left, no slot is used twice: a closed batch keeps its base in its slot, and
an append that circulates carries the slot of the batch that it belongs to.
-/

namespace Pringles.P4

namespace Switch

variable {p : Program} {t : Tables} {tstamp : BitVec 48} {s s' s₀ : Switch} {f g : Flight}
  {out : Pipe} {e : Event} {o : Pass} {tr : List (Event × Pass)} {hdr : Headers}

/-- A circulating append carries a slot of the table, the slot of the batch that it belongs to. -/
def CarriesSlot (s : Switch) (g : Flight) : Prop :=
  g.hdr.append.cntrlPktIt.toNat < maxGsnMapSize ∧ ∃ j, s.HoldsNumber g j

/-- The slots, and where the appends on the loopback port belong. -/
structure Table (s : Switch) : Prop where
  slots : s.Slots
  carries : ∀ g ∈ s.circ, g.hdr.IsAppend → s.CarriesSlot g

theorem Table.presented (h : s.Table) (hp : Presented s f s₀) : s₀.Table where
  slots := h.slots.presented hp
  carries g hg ha := by
    obtain ⟨hlt, j, hj⟩ := h.carries g (hp.circ.subset hg) ha
    exact ⟨hlt, j, hp.holdsNumber hj⟩

theorem Table.pass (h : s.Table) (hw : f.hdr.WellFormed)
    (hf : f.hdr.IsAppend → f.hdr.append.gIdx ≠ 0 → s.CarriesSlot f)
    (hp : MyIngress.apply p t tstamp s.regs f.hdr = some out) : (s.after f out).Table where
  slots := h.slots.pass hw hp
  carries g hg ha := by
    rcases (mem_circ_after s f out).1 hg with hg | ⟨hcirc, rfl⟩
    · obtain ⟨hlt, j, hj⟩ := h.carries g hg ha
      exact ⟨hlt, j, hj.after f out⟩
    cases MyIngress.passKind hw hp with
    | control _ pass => simp [pass.circulate] at hcirc
    | fresh kind draws pass =>
      refine ⟨?_, _, h.slots.holdsNumber_fresh kind draws pass⟩
      rw [pass.stored]
      exact pass.inRange
    | circulating kind numbered pass =>
      obtain ⟨hlt, j, hj⟩ := hf kind numbered
      exact ⟨by rw [pass.stored]; exact hlt, j, holdsNumber_circulating hj pass⟩
    | response kind _ pass =>
      exact absurd (kind.2.symm.trans (pass.ringType ▸ ha.2)) typeResp_ne_append
    | idle _ _ _ _ pass => simp [pass.circulate] at hcirc

/-- A presented append that has a number comes from the loopback port. -/
theorem Table.present (h : s.Table) (hA : e.Arrives Headers.Sent)
    (hp : s.present e = some (f, s₀)) :
    f.hdr.WellFormed ∧ (f.hdr.IsAppend → f.hdr.append.gIdx ≠ 0 → s.CarriesSlot f) := by
  rcases present_origin hp with ⟨ts, rfl⟩ | hmem
  · refine ⟨Headers.Sent.wellFormed hA, ?_⟩
    intro ha hne
    rcases hA with hc | he
    · exact absurd ha hc.not_append
    · exact absurd (he.2.2 ha) hne
  · exact ⟨(h.slots.circ f hmem).1, fun ha _ => h.carries f hmem ha⟩

theorem Table.step (h : s.Table) (hA : e.Arrives Headers.Sent)
    (hs : (machine p t).step s e = some (s', o)) : s'.Table := by
  obtain ⟨f, s₀, out, hp, hout, rfl, -⟩ := step_eq_some hs
  have hpres := Switch.presented hp
  obtain ⟨hw, hf⟩ := h.present hA hp
  rw [← hpres.regs] at hout
  refine (h.presented hpres).pass hw ?_ hout
  intro ha hne
  obtain ⟨hlt, j, hj⟩ := hf ha hne
  exact ⟨hlt, j, hpres.holdsNumber hj⟩

theorem table_run (hr : (machine p t).Run {} tr s) (hA : ∀ x ∈ tr, x.1.Arrives Headers.Sent) :
    s.Table :=
  hr.invariant (I := fun _ s => s.Table) (B := fun _ => True) (fun _ _ _ _ _ _ _ => trivial)
    (fun _ _ _ _ _ hA h _ hs => h.step hA hs) hA ⟨slots_init, by simp⟩ trivial

/-- What an append on the loopback port reads from the table: nothing that counts while its batch is
open, and the base of its batch from then on. -/
def ReadsItsBase (s : Switch) (g : Flight) : Prop :=
  g.hdr.append.cntrlPktIt = s.regs.cntrlPktIt ∧ (∃ f ∈ s.pending, f.id = g.id) ∨
    ∃ b, s.batches[g.hdr.append.cntrlPktIt.toNat]? = some b ∧ (∃ f ∈ b.tickets, f.id = g.id) ∧
      s.regs.mapFromGsn.get g.hdr.append.cntrlPktIt.toNat = b.base

theorem Slots.readsItsBase {j : Nat} (h : s.Slots) (hj : s.HoldsNumber g j) :
    s.ReadsItsBase g := by
  obtain ⟨l, f, hl, hf, hid, -⟩ := hj
  rcases epochs_cases hl with ⟨b, hb, rfl⟩ | ⟨hk, rfl⟩
  · exact .inr ⟨b, hb, ⟨f, List.mem_of_getElem? hf, hid⟩, h.base _ b hb⟩
  · refine .inl ⟨?_, f, List.mem_of_getElem? hf, hid⟩
    rw [← BitVec.toNat_inj, hk, h.count]

/-- The condition under which a pass stays inside the table: there is a slot left if the packet uses
the slot of the open batch, and there is a closed batch if it asks for the slot before. -/
def HasSlot (p : Program) (s : Switch) (hdr : Headers) : Prop :=
  (MyIngress.gsnSlot p hdr = some .current → s.batches.length < maxGsnMapSize) ∧
    (MyIngress.gsnSlot p hdr = some .previous → s.batches ≠ [])

theorem latestComplete_lt_iff (it : BitVec 16) :
    (latestCompleteCntrlPktIt it).toNat < maxGsnMapSize ↔ it.toNat ≠ 0 := by
  unfold latestCompleteCntrlPktIt maxGsnMapSize
  have hsub : (it - 1).toNat = (65536 - 1 + it.toNat) % 65536 := BitVec.toNat_sub ..
  have hlt := it.isLt
  omega

/-- A switch that has counted a batch answers a view change. -/
theorem exists_answer {regs : Registers} (hh : MyIngress.Answered p hdr)
    (hne : regs.cntrlPktIt.toNat ≠ 0) (t : Tables) (tstamp : BitVec 48) :
    ∃ out, MyIngress.apply p t tstamp regs hdr = some out := by
  refine Option.ne_none_iff_exists'.1 ?_
  rw [MyIngress.apply_view_eq hh, ne_eq, Option.map_eq_none_iff, MyIngress.viewBranch_eq_none,
    Nat.not_le]
  exact (latestComplete_lt_iff _).2 hne

theorem Slots.index_lt_iff (h : s.Slots)
    (hstored : MyIngress.gsnSlot p hdr = some .stored →
      hdr.append.cntrlPktIt.toNat < maxGsnMapSize) :
    (∀ k, MyIngress.gsnSlot p hdr = some k → k.index s.regs hdr < maxGsnMapSize) ↔
      s.HasSlot p hdr := by
  unfold HasSlot
  cases hk : MyIngress.gsnSlot p hdr with
  | none => simp
  | some k =>
    cases k with
    | current => simp [MyIngress.GsnSlot.index, h.count]
    | stored => simpa [MyIngress.GsnSlot.index] using hstored hk
    | previous =>
      simp [MyIngress.GsnSlot.index, latestComplete_lt_iff, h.count]

theorem Table.index_lt_iff (h : s.Table) (hA : e.Arrives Headers.Sent)
    (hp : s.present e = some (f, s₀)) :
    (∀ k, MyIngress.gsnSlot p f.hdr = some k → k.index s.regs f.hdr < maxGsnMapSize) ↔
      s.HasSlot p f.hdr := by
  refine h.slots.index_lt_iff ?_
  intro hk
  obtain ⟨ha, hne⟩ := MyIngress.gsnSlot_stored hk
  exact ((h.present hA hp).2 ha hne).1

/-- A switch can make a pass whenever the packet finds the slot that it asks for. -/
theorem Table.step_isSome_iff (h : s.Table) (hA : e.Arrives Headers.Sent)
    (hp : s.present e = some (f, s₀)) :
    (∃ q, (machine p t).step s e = some q) ↔ s.HasSlot p f.hdr := by
  rw [Switch.step_isSome_iff hp, ← h.index_lt_iff hA hp, (Switch.presented hp).regs]
  exact MyIngress.apply_isSome_iff

/-- **The ways out of the table.** In every reachable state each closed batch has its base in its
slot and each append on the loopback port reads the base of its own batch. The index that the next
packet uses is in range, and its pass is possible, if and only if the packet finds the slot that it
asks for. -/
theorem table_in_range_iff (hr : (machine p t).Run {} tr s)
    (hA : ∀ x ∈ tr, x.1.Arrives Headers.Sent) :
    (∀ k b, s.batches[k]? = some b → s.regs.mapFromGsn.get k = b.base) ∧
      (∀ g ∈ s.circ, g.hdr.IsAppend → s.ReadsItsBase g) ∧
      ∀ e f s₀, e.Arrives Headers.Sent → s.present e = some (f, s₀) →
        ((∀ k, MyIngress.gsnSlot p f.hdr = some k → k.index s.regs f.hdr < maxGsnMapSize) ↔
          s.HasSlot p f.hdr) ∧
        ((∃ q, (machine p t).step s e = some q) ↔ s.HasSlot p f.hdr) := by
  have h := table_run hr hA
  refine ⟨h.slots.base, ?_, fun e f s₀ hA hp => ⟨h.index_lt_iff hA hp, h.step_isSome_iff hA hp⟩⟩
  intro g hg ha
  obtain ⟨-, j, hj⟩ := h.carries g hg ha
  exact h.slots.readsItsBase hj

/-- A switch that has closed one batch. -/
theorem table_in_range_iff_one_batch : ∃ tr s,
    (machine .sequencingOnly {}).Run {} tr s ∧ s.batches ≠ [] ∧
      (∀ k b, s.batches[k]? = some b → s.regs.mapFromGsn.get k = b.base) ∧
      ∀ g ∈ s.circ, g.hdr.IsAppend → s.ReadsItsBase g := by
  have hx : (machine .sequencingOnly {}).exec {}
    [.arrive 0 ⟨0, .appendPkt⟩, .arrive 0 ⟨1, .controlPkt 0⟩] = some (_, _) := rfl
  obtain ⟨tr, s, hr, hA, hne⟩ : ∃ tr s, (machine .sequencingOnly {}).Run {} tr s ∧
      (∀ x ∈ tr, x.1.Arrives Headers.Sent) ∧ s.batches ≠ [] :=
    ⟨_, _, .of_exec hx, by simp [Event.Arrives, Headers.Sent]; decide, by decide⟩
  obtain ⟨hbase, hreads, -⟩ := table_in_range_iff hr hA
  exact ⟨tr, s, hr, hne, hbase, hreads⟩

/-- The initial state: a view change asks for the slot before slot zero. -/
theorem view_out_of_range : ¬ ∀ tr s e f s₀ k, (machine .sequencingOnly {}).Run {} tr s →
    (∀ x ∈ tr, x.1.Arrives Headers.Sent) → e.Arrives Headers.Sent → s.present e = some (f, s₀) →
    MyIngress.gsnSlot .sequencingOnly f.hdr = some k →
    k.index s.regs f.hdr < maxGsnMapSize := by
  intro hall
  have hA : Event.Arrives Headers.Sent (.arrive 0 ⟨0, .viewPkt 0⟩) := .inr (by decide)
  have h := hall [] {} _ _ _ .previous (.nil _) (by simp) hA rfl (by decide)
  exact absurd h (by decide)

end Switch

end Pringles.P4
