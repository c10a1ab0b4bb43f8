import Pringles.Lib.Custody
import Pringles.Ring.Invariant

/-!
# Sequencing: numbers are unique, dense and in order

Every append that leaves for its shard carries its position in the list of issued numbers
(`Departures.numbers`), and no append leaves twice (`Departures.custody`). When clients send nothing
but appends, every number is held by a packet that has left or is still on a loopback port
(`Complete`). So the packet that holds the number `m` is the one at position `m - 1`
(`hasNumber_iff`), and what the batch order says about positions it says about numbers.
-/

namespace Pringles.P4

namespace Ring

variable {ι : Type} {N : Net ι} {R R' R₀ : Ring ι} {e : Event ι} {o : Served ι} {i j : ι}
  {f : Flight} {s₀ : Switch} {out : Pipe} {ev : Switch.Event} {found : Registers}
  {tr : List (Event ι × Served ι)}

/-- An append that left for its shard. -/
structure Routed where
  id : Nat
  gIdx : BitVec 32

def routedBy (o : Pass) : Option Routed :=
  if o.flight.hdr.IsAppend ∧ o.out.metadata.routeToShard = true then
    some ⟨o.flight.id, o.out.hdr.append.gIdx⟩
  else none

/-- The appends that left for their shards, in this order. -/
def routed (tr : List (Event ι × Served ι)) : List Routed := tr.filterMap fun x => routedBy x.2.pass

/-- The packets on the loopback port of a switch. -/
def live (R : Ring ι) (i : ι) : List Nat := (R.sw i).circ.map Flight.id

/-- Append `id` has the number `m`: it left for its shard with `m`, or it circulates at a switch
that has closed its batch and the base in the slot of the batch completes its offset to `m`. -/
def HasNumber (tr : List (Event ι × Served ι)) (R : Ring ι) (id m : Nat) : Prop :=
  (∃ r ∈ routed tr, r.id = id ∧ r.gIdx.toNat = m) ∨
    ∃ i, ∃ g ∈ (R.sw i).circ, g.id = id ∧
      g.hdr.append.cntrlPktIt ≠ (R.sw i).regs.cntrlPktIt ∧
      (g.hdr.append.gIdx +
        (R.sw i).regs.mapFromGsn.get g.hdr.append.cntrlPktIt.toNat).toNat = m

/-! ## Departures -/

/-- What has left: nothing twice, nothing that is still on a loopback port, and every append with
its position. -/
structure Departures (tr : List (Event ι × Served ι)) (R : Ring ι) : Prop where
  custody : Custody R.live ((routed tr).map Routed.id)
  gone_lt : ∀ r ∈ routed tr, r.id < R.arrived
  numbers : ∀ r ∈ routed tr, ∃ i g, 1 ≤ r.gIdx.toNat ∧
    R.issued[r.gIdx.toNat - 1]? = some (i, g) ∧ g.id = r.id

/-- A packet on a loopback port has been numbered, or its batch is open. -/
theorem Inv.number (h : R.Inv) (hlt : R.arrived < 2 ^ 32) {g : Flight} (ha : g.hdr.IsAppend)
    (hg : (R.sw i).HasOffset g) :
    (g.hdr.append.cntrlPktIt = (R.sw i).regs.cntrlPktIt ∧
      ∃ f ∈ (R.sw i).pending, f.id = g.id) ∨
    (g.hdr.append.cntrlPktIt ≠ (R.sw i).regs.cntrlPktIt ∧ ∃ m f,
      R.issued[m]? = some (i, f) ∧ f.id = g.id ∧ (g.hdr.append.gIdx +
        (R.sw i).regs.mapFromGsn.get g.hdr.append.cntrlPktIt.toNat).toNat = m + 1) := by
  refine ((h.numbered i).number (h.bounded hlt i) ha hg).imp (fun hopen => ⟨hopen.1, hopen.2.2⟩) ?_
  rintro ⟨hclosed, f, hid, -, b, hb, n, hf, hnum⟩
  exact ⟨hclosed, _, f, h.based i b hb n f hf, hid, hnum⟩

/-- An append leaves with its number, and it came back from the loopback port. -/
theorem Inv.routedBy_some (h : R.Inv) (hlt : R.arrived < 2 ^ 32) (hf : R.Fit i f s₀)
    (hk : MyIngress.PassKind s₀.regs f.hdr out) {r : Routed}
    (hr : routedBy ⟨f, found, out⟩ = some r) :
    f.hdr.IsAppend ∧ f.hdr.append.gIdx ≠ 0 ∧ out.metadata.circulate = false ∧ r.id = f.id ∧
      ∃ m g, R.issued[m]? = some (i, g) ∧ g.id = f.id ∧ r.gIdx.toNat = m + 1 := by
  unfold routedBy at hr
  split at hr
  case isFalse => cases hr
  case isTrue hcond =>
    obtain ⟨ha, hshard⟩ := hcond
    simp only [Option.some.injEq] at hr ha hshard
    subst hr
    cases hk with
    | control kind => exact absurd ha kind.not_append
    | fresh _ _ pass => simp [pass.routeToShard] at hshard
    | circulating kind numbered pass =>
      have hoff := hf.offset kind numbered
      have hregs := hf.presented.regs
      rw [pass.gIdx, hregs]
      rcases h.number hlt kind hoff with ⟨hopen, -⟩ | ⟨hclosed, m, g, hm, hid, hnum⟩
      · simp [(pass.openBatch (hregs ▸ hopen)).2.1] at hshard
      refine ⟨kind, numbered, ?_, rfl, m, g, hm, hid, hnum⟩
      cases htimer : f.hdr.timer.isValid with
      | false => exact (pass.closedBatch (hregs ▸ hclosed) htimer).1
      | true => simp [(pass.generated (hregs ▸ hclosed) htimer).2.1] at hshard
    | response kind => exact absurd ha kind.not_append
    | idle _ _ notAppend => exact absurd ha.2 notAppend

/-- A packet that is neither a control packet nor a tail request is a client's append, and it has a
number unless it has just arrived. -/
theorem Inv.append_of_origin (h : R.Inv) (ho : R.Origin i f s₀ e) (hA : e.Arrives Headers.IsFresh)
    (happ : ∀ g ∈ (R.sw i).circ, g.hdr.IsAppend ∧ g.hdr.timer.isValid = false) :
    (f.hdr.IsControl ∨ f.hdr.IsTail) ∨
      f.hdr.IsAppend ∧ f.hdr.timer.isValid = false ∧
        (f.hdr.IsFresh ∧ s₀ = R.sw i ∨ f.hdr.append.gIdx ≠ 0 ∧
          (f :: s₀.circ).Perm (R.sw i).circ) := by
  cases ho with
  | entered ts hdr same flight =>
    subst flight
    exact .inr ⟨hA.1, hA.2.2.1, .inl ⟨hA, same⟩⟩
  | returned ts k perm =>
    have hmem := perm.subset (List.mem_cons_self ..)
    exact .inr ⟨(happ f hmem).1, (happ f hmem).2, .inr ⟨((h.numbered i).offsets f hmem).1, perm⟩⟩
  | visiting ts same kind => exact .inl (.inl kind)
  | travelling ts k same kind => exact .inl (.inr kind)

theorem live_dispatched (hd : Dispatched R R₀) : R₀.live = R.live := by
  funext j
  simp [live, hd.sw]

theorem routed_snoc : routed (tr ++ [(e, o)]) = routed tr ++ (routedBy o.pass).toList := by
  simp only [routed, List.filterMap_append, List.filterMap_cons, List.filterMap_nil]
  cases routedBy o.pass <;> rfl

section
variable [DecidableEq ι]

theorem live_settle : (R.settle N i (s₀.after f out) ⟨f, found, out⟩).live =
    Function.update R.live i
      (s₀.circ.map Flight.id ++ if out.metadata.circulate then [f.id] else []) := by
  funext j
  by_cases hj : j = i
  · subst hj
    rw [Function.update_self]
    unfold live
    rw [settle_self]
    unfold Switch.after
    split <;> simp
  · rw [Function.update_of_ne hj]
    unfold live
    rw [settle_ne hj]

/-- Custody passes on: a packet that comes back is put back, or leaves; a packet that enters may be
put on the port; and nothing else is. -/
theorem Departures.custody_step (h : R.Inv) (hlt : R₀.arrived < 2 ^ 32) (hd : Departures tr R)
    (hdisp : Dispatched R R₀) (hf : R₀.Fit i f s₀) (ho : R.Origin i f s₀ e)
    (hA : e.Arrives Headers.Enters) (hk : MyIngress.PassKind s₀.regs f.hdr out) :
    Custody (R₀.settle N i (s₀.after f out) ⟨f, found, out⟩).live
      ((routed (tr ++ [(e, ⟨i, ev, ⟨f, found, out⟩⟩)])).map Routed.id) := by
  have hsame : s₀ = R.sw i → s₀.circ.map Flight.id = R.live i := by
    rintro rfl
    rfl
  have hperm : (f :: s₀.circ).Perm (R.sw i).circ →
      (f.id :: s₀.circ.map Flight.id).Perm (R.live i) := fun hp => hp.map Flight.id
  rw [live_settle, live_dispatched hdisp, routed_snoc, List.map_append]
  cases hr : routedBy ⟨f, found, out⟩ with
  | some r =>
    obtain ⟨ha, hne, hcirc, hid, -⟩ := (h.dispatched hdisp).routedBy_some hlt hf hk hr
    cases ho with
    | entered ts hdr same flight =>
      subst flight
      exact absurd (hA.2.2 ha) hne
    | returned ts k perm =>
      have := hd.custody.leave (hperm perm)
      simpa [hcirc, hid] using this
    | visiting ts same kind => exact absurd ha kind.not_append
    | travelling ts k same kind => exact absurd ha kind.not_append
  | none =>
    simp only [Option.toList_none, List.map_nil, List.append_nil]
    have hpass : s₀ = R.sw i → f.hdr.IsControl ∨ f.hdr.IsTail →
        Custody (Function.update R.live i (s₀.circ.map Flight.id ++
          if out.metadata.circulate then [f.id] else [])) ((routed tr).map Routed.id) := by
      intro same kind
      rw [hsame same, hk.not_circulate kind, if_neg (by decide), List.append_nil,
        Function.update_eq_self]
      exact hd.custody
    cases ho with
    | entered ts hdr same flight =>
      rw [hsame same]
      split
      · subst flight
        refine hd.custody.enter ?_ ?_
        · intro j hj
          obtain ⟨g, hg, hid⟩ := List.mem_map.1 hj
          exact absurd (h.circ_lt j g hg) (by rw [hid]; exact Nat.lt_irrefl _)
        · intro hgone
          obtain ⟨r, hr, hid⟩ := List.mem_map.1 hgone
          exact absurd (hd.gone_lt r hr) (by rw [hid]; exact Nat.lt_irrefl _)
      · rw [List.append_nil, Function.update_eq_self]
        exact hd.custody
    | returned ts k perm =>
      have hp := hperm perm
      have hnodup := hp.nodup_iff.2 (hd.custody.nodup i)
      split
      · have hp' := (List.perm_append_singleton f.id (s₀.circ.map Flight.id)).trans hp
        exact hd.custody.replace (hp'.nodup_iff.2 (hd.custody.nodup i)) hp'.subset
      · rw [List.append_nil]
        exact hd.custody.replace (List.nodup_cons.1 hnodup).2
          fun a ha => hp.subset (List.mem_cons_of_mem _ ha)
    | visiting ts same kind => exact hpass same (.inl kind)
    | travelling ts k same kind => exact hpass same (.inr kind)

theorem Departures.step (hd : Departures tr R) (h : R.Inv) (hA : e.Arrives Headers.Enters)
    (hlt : R'.arrived < 2 ^ 32) (hs : (machine N).step R e = some (R', o)) :
    Departures (tr ++ [(e, o)]) R' := by
  have hpre := step_issued_prefix hs
  have harr := step_arrived_le hs
  obtain ⟨i, ev, R₀, f, s₀, out, hdisp, hp, hout, rfl, rfl⟩ := step_eq_some hs
  have hdisp' := Ring.dispatched hdisp
  have h₀ := h.dispatched hdisp'
  have hf := h.fit hA hdisp hp
  rw [← hf.presented.regs] at hout
  have hk := MyIngress.passKind hf.wellFormed hout
  have hlt₀ : R₀.arrived < 2 ^ 32 := hlt
  refine ⟨hd.custody_step h hlt₀ hdisp' hf (h.origin hdisp hp) hA hk, ?_, ?_⟩
  · intro r hr
    rw [routed_snoc, List.mem_append, Option.mem_toList] at hr
    rcases hr with hr | hr
    · exact Nat.lt_of_lt_of_le (hd.gone_lt r hr) harr
    · obtain ⟨ha, -, -, hid, -⟩ := h₀.routedBy_some hlt₀ hf hk hr
      rw [hid]
      exact hf.id_lt ha.1
  · intro r hr
    rw [routed_snoc, List.mem_append, Option.mem_toList] at hr
    rcases hr with hr | hr
    · obtain ⟨k, g, h1, hm, hid⟩ := hd.numbers r hr
      exact ⟨k, g, h1, BatchOrder.getElem?_of_prefix hpre hm, hid⟩
    · obtain ⟨-, -, -, hid, m, g, hm, hg, hnum⟩ := h₀.routedBy_some hlt₀ hf hk hr
      rw [hdisp'.issued] at hm
      refine ⟨i, g, by omega, BatchOrder.getElem?_of_prefix hpre ?_, hg.trans hid.symm⟩
      rw [hnum]
      exact hm

theorem departures_run {hdr : Headers} (hr : (machine N).Run (start hdr) tr R)
    (hA : ∀ x ∈ tr, x.1.Arrives Headers.Enters) (hlt : R.arrived < 2 ^ 32) :
    R.Inv ∧ Departures tr R := by
  refine hr.invariant (I := fun tr R => R.Inv ∧ Departures tr R) (B := fun R => R.arrived < 2 ^ 32)
    (fun _ _ _ _ _ hs hlt => Nat.lt_of_le_of_lt (step_arrived_le hs) hlt)
    (fun _ _ _ _ _ hA h hlt hs => ⟨h.1.step hA hlt hs, h.2.step h.1 hA hlt hs⟩) hA
    ⟨inv_start hdr, ?_⟩ hlt
  exact ⟨Custody.empty, by simp [routed], by simp [routed]⟩

/-! ## Completeness

From here on clients send fresh appends only. -/

/-- Append `a` arrived at switch `i`. -/
def ArrivedAt (tr : List (Event ι × Served ι)) (i : ι) (a : Nat) : Prop :=
  ∃ x ∈ tr, ∃ tstamp hdr, x.1 = .arrive i tstamp hdr ∧ x.2.pass.flight.id = a

/-- Nothing but appends of clients is on the loopback ports, every packet that drew a number is
there or has left, and every packet that arrived has drawn its number where it arrived. -/
structure Complete (tr : List (Event ι × Served ι)) (R : Ring ι) : Prop where
  appends : ∀ i, ∀ g ∈ (R.sw i).circ, g.hdr.IsAppend ∧ g.hdr.timer.isValid = false
  held : ∀ i a, R.order.Drawn i a → a ∈ R.live i ∨ ∃ r ∈ routed tr, r.id = a
  arrivals : ∀ i a, ArrivedAt tr i a → R.order.Drawn i a

/-- The pass of a fresh append or of one that comes back, and of nothing else: it circulates, or it
leaves for its shard. -/
theorem append_pass (ha : f.hdr.IsAppend) (htimer : f.hdr.timer.isValid = false)
    (hk : MyIngress.PassKind s₀.regs f.hdr out) :
    out.hdr.timer.isValid = false ∧ (out.metadata.circulate = true ∧ out.hdr.IsAppend ∨
      out.metadata.circulate = false ∧ out.metadata.routeToShard = true) := by
  cases hk with
  | control kind => exact absurd ha kind.not_append
  | fresh kind _ pass =>
    exact ⟨pass.timer ▸ htimer, .inl ⟨pass.circulate, pass.notControl, pass.ringType ▸ ha.2⟩⟩
  | circulating kind numbered pass =>
    refine ⟨pass.timer ▸ htimer, ?_⟩
    by_cases hopen : f.hdr.append.cntrlPktIt = s₀.regs.cntrlPktIt
    · obtain ⟨hcirc, -, hty⟩ := pass.openBatch hopen
      exact .inl ⟨hcirc, pass.notControl, hty⟩
    · obtain ⟨hcirc, hshard, -⟩ := pass.closedBatch hopen htimer
      exact .inr ⟨hcirc, hshard⟩
  | response kind => exact absurd ha kind.not_append
  | idle _ _ notAppend => exact absurd ha.2 notAppend

/-- A packet on a loopback port stays on one or leaves for its shard. -/
theorem live_step (hdisp : Dispatched R R₀) (ho : R.Origin i f s₀ e)
    (happ : ∀ g ∈ (R.sw i).circ, g.hdr.IsAppend ∧ g.hdr.timer.isValid = false)
    (hk : MyIngress.PassKind s₀.regs f.hdr out) {a : Nat} (ha : a ∈ R.live j) :
    a ∈ (R₀.settle N i (s₀.after f out) ⟨f, found, out⟩).live j ∨
      ∃ r, routedBy ⟨f, found, out⟩ = some r ∧ r.id = a := by
  rw [live_settle, live_dispatched hdisp]
  by_cases hj : j = i
  · subst hj
    rw [Function.update_self, List.mem_append]
    have hsame : s₀ = R.sw j → a ∈ s₀.circ.map Flight.id := by
      rintro rfl
      exact ha
    cases ho with
    | entered ts hdr same => exact .inl (.inl (hsame same))
    | visiting ts same => exact .inl (.inl (hsame same))
    | travelling ts k same => exact .inl (.inl (hsame same))
    | returned ts k perm =>
      rcases List.mem_cons.1 ((perm.map Flight.id).symm.subset ha) with rfl | ha'
      · obtain ⟨hf, htimer⟩ := happ f (perm.subset (List.mem_cons_self ..))
        obtain ⟨-, ⟨hcirc, -⟩ | ⟨-, hshard⟩⟩ := append_pass hf htimer hk
        · exact .inl (.inr (by simp [hcirc]))
        · exact .inr ⟨_, if_pos ⟨hf, hshard⟩, rfl⟩
      · exact .inl (.inl ha')
  · rw [Function.update_of_ne hj]
    exact .inl ha

/-- A fresh append draws its number and stays on the loopback port. -/
theorem fresh_live (hfresh : f.hdr.IsFresh) (hk : MyIngress.PassKind s₀.regs f.hdr out) :
    f.id ∈ (R.settle N i (s₀.after f out) ⟨f, found, out⟩).live i := by
  rw [live_settle, Function.update_self, List.mem_append]
  cases hk with
  | control kind => exact absurd hfresh.1 kind.not_append
  | fresh _ _ pass => exact .inr (by simp [pass.circulate])
  | circulating _ numbered => exact absurd hfresh.2.2.2 numbered
  | response kind => exact absurd hfresh.1 kind.not_append
  | idle _ _ notAppend => exact absurd hfresh.1.2 notAppend

/-- A pass puts nothing but clients' appends on the loopback port. -/
theorem append_after (happ : ∀ g ∈ s₀.circ, g.hdr.IsAppend ∧ g.hdr.timer.isValid = false)
    (hkind : (f.hdr.IsControl ∨ f.hdr.IsTail) ∨ f.hdr.IsAppend ∧ f.hdr.timer.isValid = false)
    (hk : MyIngress.PassKind s₀.regs f.hdr out) :
    ∀ g ∈ (s₀.after f out).circ, g.hdr.IsAppend ∧ g.hdr.timer.isValid = false := by
  intro g hg
  rcases (Switch.mem_circ_after s₀ f out).1 hg with hg | ⟨hcirc, rfl⟩
  · exact happ g hg
  · rcases hkind with hpass | ⟨ha, htimer⟩
    · simp [hk.not_circulate hpass] at hcirc
    · obtain ⟨ht, ⟨-, ha'⟩ | ⟨hno, -⟩⟩ := append_pass ha htimer hk
      · exact ⟨ha', ht⟩
      · simp [hno] at hcirc

theorem Complete.step (hcomp : Complete tr R) (h : R.Inv) (hA : e.Arrives Headers.IsFresh)
    (hs : (machine N).step R e = some (R', o)) : Complete (tr ++ [(e, o)]) R' := by
  have hA' := hA.imp fun _ hfresh => Headers.IsFresh.enters hfresh
  obtain ⟨i, ev, R₀, f, s₀, out, hdisp, hp, hout, rfl, rfl⟩ := step_eq_some hs
  have hdisp' := Ring.dispatched hdisp
  have hf := h.fit hA' hdisp hp
  have ho := h.origin hdisp hp
  rw [← hf.presented.regs] at hout
  have hk := MyIngress.passKind hf.wellFormed hout
  have hkind := h.append_of_origin ho hA (hcomp.appends i)
  have hdrawn : ∀ j a, R₀.order.Drawn j a ↔ R.order.Drawn j a := by
    rw [order_dispatched hdisp']
    exact fun _ _ => Iff.rfl
  constructor
  case appends =>
    refine forall_settle
      (P := fun _ s => ∀ g ∈ s.circ, g.hdr.IsAppend ∧ g.hdr.timer.isValid = false)
      (append_after (fun g hg => hcomp.appends i g ?_) ?_ hk) ?_
    · exact hdisp'.sw ▸ hf.presented.circ.subset hg
    · exact hkind.imp_right fun ha => ⟨ha.1, ha.2.1⟩
    · intro j _
      rw [hdisp'.sw]
      exact hcomp.appends j
  case held =>
    intro j a ha
    rw [drawn_settle hf.presented, hdrawn] at ha
    rw [routed_snoc]
    rcases ha with ha | ⟨hd, rfl, rfl⟩
    · rcases hcomp.held j a ha with hlive | ⟨r, hr, hid⟩
      · refine (live_step hdisp' ho (hcomp.appends i) hk hlive).imp_right ?_
        rintro ⟨r, hr, hid⟩
        exact ⟨r, List.mem_append_right _ (Option.mem_toList.2 hr), hid⟩
      · exact .inr ⟨r, List.mem_append_left _ hr, hid⟩
    · rcases hkind with (hctl | htail) | ⟨ha, -, ⟨hfresh, -⟩ | ⟨hne, -⟩⟩
      · exact absurd hd hctl.not_draws
      · have := (hf.wellFormed hd.1).1 hd.2.1
        simp [htail.2] at this
      · exact .inl (fresh_live hfresh hk)
      · exact absurd hd.2.2 hne
  case arrivals =>
    rintro j a ⟨x, hx, ts, hdr, hxe, hid⟩
    rw [drawn_settle hf.presented, hdrawn]
    rcases List.mem_append.1 hx with hx | hx
    · exact .inl (hcomp.arrivals j a ⟨x, hx, ts, hdr, hxe, hid⟩)
    · obtain rfl := List.mem_singleton.1 hx
      simp only at hxe hid
      subst hxe hid
      have hfresh : hdr.IsFresh := hA
      obtain ⟨rfl, -, rfl, -⟩ := dispatch_arrive hdisp hp
      exact .inr ⟨⟨hfresh.1.1, hfresh.2.1, hfresh.2.2.2⟩, rfl, rfl⟩

omit [DecidableEq ι] in
theorem complete_start (hdr : Headers) : Complete [] (start hdr : Ring ι) where
  appends _ := by simp [start]
  held _ _ ha := absurd ha BatchOrder.not_drawn_empty
  arrivals _ _ := by simp [ArrivedAt]

theorem complete_run {hdr : Headers} (hr : (machine N).Run (start hdr) tr R)
    (hA : ∀ x ∈ tr, x.1.Arrives Headers.IsFresh) (hlt : R.arrived < 2 ^ 32) :
    R.Inv ∧ Departures tr R ∧ Complete tr R := by
  have hA' : ∀ x ∈ tr, x.1.Arrives Headers.Enters :=
    fun x hx => (hA x hx).imp fun _ hfresh => Headers.IsFresh.enters hfresh
  refine ⟨inv_run hr hA' hlt, (departures_run hr hA' hlt).2, ?_⟩
  exact (hr.invariant (I := fun tr R => R.Inv ∧ Complete tr R) (B := fun R => R.arrived < 2 ^ 32)
    (fun _ _ _ _ _ hs hlt => Nat.lt_of_le_of_lt (step_arrived_le hs) hlt)
    (fun _ _ _ _ _ hA h hlt hs =>
      ⟨h.1.step (hA.imp fun _ hf => Headers.IsFresh.enters hf) hlt hs, h.2.step h.1 hA hs⟩) hA
    ⟨inv_start hdr, complete_start hdr⟩ hlt).2

/-! ## Numbers and positions -/

omit [DecidableEq ι] in
/-- **The packet with the number `m` is the one at position `m - 1`.** -/
theorem hasNumber_iff (h : R.Inv) (hd : Departures tr R) (hc : Complete tr R)
    (hlt : R.arrived < 2 ^ 32) {id m : Nat} :
    HasNumber tr R id m ↔ ∃ n i g, m = n + 1 ∧ R.issued[n]? = some (i, g) ∧ g.id = id := by
  constructor
  · rintro (⟨r, hr, rfl, rfl⟩ | ⟨i, g, hg, rfl, hclosed, rfl⟩)
    · obtain ⟨i, g, h1, hm, hid⟩ := hd.numbers r hr
      exact ⟨_, i, g, by omega, hm, hid⟩
    · obtain ⟨hopen, -⟩ | ⟨-, m, f, hm, hid, hnum⟩ :=
        h.number hlt (hc.appends i g hg).1 ((h.numbered i).offsets g hg)
      · exact absurd hopen hclosed
      · exact ⟨m, i, f, hnum, hm, hid⟩
  · rintro ⟨n, i, g, rfl, hn, rfl⟩
    have hpos := order_issued_getElem hn
    rcases hc.held i g.id (drawn_of_issued hn) with hlive | ⟨r, hr, hid⟩
    · right
      obtain ⟨g', hg', hid⟩ := List.mem_map.1 hlive
      obtain ⟨-, f, hf, hfid⟩ | ⟨hclosed, m, f, hm, hfid, hnum⟩ :=
        h.number hlt (hc.appends i g' hg').1 ((h.numbered i).offsets g' hg')
      · -- a packet of the open batch has not been issued
        have hpend : g.id ∈ R.order.pending i := List.mem_map.2 ⟨f, hf, hfid.trans hid⟩
        have := h.order.issued_lt_pending i _ _ (List.mem_of_getElem? hpos) hpend
        exact absurd this (Nat.lt_irrefl _)
      · have hpos' := order_issued_getElem hm
        rw [hfid, hid] at hpos'
        obtain rfl := h.order.position_unique hpos hpos'
        exact ⟨i, g', hg', hid, hclosed, hnum⟩
    · left
      obtain ⟨k, f, h1, hm, hfid⟩ := hd.numbers r hr
      have hpos' := order_issued_getElem hm
      rw [hfid, hid] at hpos'
      have := h.order.position_unique hpos hpos'
      exact ⟨r, hr, hid, by omega⟩

variable {hdr : Headers} {R₁ : Ring ι} {tr₁ tr₂ : List (Event ι × Served ι)}

/-- **Ring sequencing is unique and dense.** The appends that have left carry distinct numbers, all
of them between one and the control packet's number, and each of these numbers belongs to exactly
one append. -/
theorem numbers_unique_dense (hr : (machine N).Run (start hdr) tr R)
    (hA : ∀ x ∈ tr, x.1.Arrives Headers.IsFresh) (hlt : R.arrived < 2 ^ 32) :
    ((routed tr).map Routed.gIdx).Nodup ∧
      (∀ r ∈ routed tr, 1 ≤ r.gIdx.toNat ∧ r.gIdx.toNat ≤ R.token.cntrl.globalSeqNo.toNat) ∧
      ∀ m, 1 ≤ m → m ≤ R.token.cntrl.globalSeqNo.toNat → ∃! id, HasNumber tr R id m := by
  obtain ⟨h, hd, hc⟩ := complete_run hr hA hlt
  refine ⟨?_, ?_, ?_⟩
  · have hids := hd.custody.gone_nodup
    rw [List.Nodup, List.pairwise_map] at hids ⊢
    refine hids.imp_of_mem fun {r r'} hr hr' hne heq => hne ?_
    obtain ⟨i, g, -, hm, hid⟩ := hd.numbers r hr
    obtain ⟨j, g', -, hm', hid'⟩ := hd.numbers r' hr'
    rw [heq, hm'] at hm
    cases hm
    exact hid.symm.trans hid'
  · intro r hr
    obtain ⟨i, g, h1, hm, -⟩ := hd.numbers r hr
    have := (List.getElem?_eq_some_iff.1 hm).1
    rw [h.count]
    exact ⟨h1, by omega⟩
  · intro m h1 hm
    rw [h.count] at hm
    obtain ⟨⟨i, g⟩, hg⟩ : ∃ x, R.issued[m - 1]? = some x :=
      ⟨_, List.getElem?_eq_getElem (by omega)⟩
    refine ⟨g.id, (hasNumber_iff h hd hc hlt).2 ⟨m - 1, i, g, by omega, hg, rfl⟩, fun id hid => ?_⟩
    obtain ⟨n, j, g', rfl, hg', rfl⟩ := (hasNumber_iff h hd hc hlt).1 hid
    rw [Nat.add_sub_cancel] at hg
    rw [hg] at hg'
    cases hg'
    rfl

/-- Two appends at two switches: one has left, the other one circulates with its number. -/
theorem numbers_unique_dense_two : ∃ tr R,
    (machine (twoSwitches .sequencingOnly)).Run (start {}) tr R ∧ (routed tr).length = 1 ∧
      R.token.cntrl.globalSeqNo = 2 ∧ ∀ m, 1 ≤ m → m ≤ R.token.cntrl.globalSeqNo.toNat →
        ∃! id, HasNumber tr R id m := by
  have hx : (machine (twoSwitches .sequencingOnly)).exec (start {}) [.arrive true 0 .appendPkt,
    .arrive false 0 .appendPkt, .control false 0, .control true 0, .recirc true 0 0] =
      some (_, _) := rfl
  obtain ⟨tr, R, hr, hA, hlt, hlen, hg⟩ : ∃ tr R,
      (machine (twoSwitches .sequencingOnly)).Run (start {}) tr R ∧
      (∀ x ∈ tr, x.1.Arrives Headers.IsFresh) ∧ R.arrived < 2 ^ 32 ∧ (routed tr).length = 1 ∧
        R.token.cntrl.globalSeqNo = 2 :=
    ⟨_, _, .of_exec hx, by simp [Event.Arrives]; decide, by decide, by decide, by decide⟩
  exact ⟨tr, R, hr, hlen, hg, (numbers_unique_dense hr hA hlt).2.2⟩

/-! ## Order -/

theorem arrived_le_of_arrivedAt (hr : (machine N).Run R₁ tr R) {a : Nat} (ha : ArrivedAt tr i a) :
    R₁.arrived ≤ a := by
  obtain ⟨x, hx, ts, hdr, hxe, rfl⟩ := ha
  obtain ⟨tr₁, tr₂, rfl⟩ := List.append_of_mem hx
  obtain ⟨m, m', hr₁, hs, -⟩ := hr.split_cons
  have hle := arrived_le_run hr₁
  obtain ⟨i, ev, R₀, f, s₀, out, hdisp, hp, -, -, ho⟩ := step_eq_some hs
  rw [hxe] at hdisp
  obtain ⟨-, -, rfl, -⟩ := dispatch_arrive hdisp hp
  rw [ho]
  exact hle

/-- **Sequencing respects real-time order.** Take any moment of a run. An append that has left by
then has a smaller number than every append that arrives later, at whatever switch; and an append
that has arrived by then has a smaller number than every append that arrives later at the same
switch. -/
theorem numbers_respect_time (hr₁ : (machine N).Run (start hdr) tr₁ R₁)
    (hr₂ : (machine N).Run R₁ tr₂ R) (hA : ∀ x ∈ tr₁ ++ tr₂, x.1.Arrives Headers.IsFresh)
    (hlt : R.arrived < 2 ^ 32) {a b m n : Nat} (hm : HasNumber (tr₁ ++ tr₂) R a m)
    (hn : HasNumber (tr₁ ++ tr₂) R b n) :
    (∀ j, (∃ r ∈ routed tr₁, r.id = a) → ArrivedAt tr₂ j b → m < n) ∧
      ∀ i, ArrivedAt tr₁ i a → ArrivedAt tr₂ i b → m < n := by
  have hlt₁ : R₁.arrived < 2 ^ 32 := Nat.lt_of_le_of_lt (arrived_le_run hr₂) hlt
  have hA₁ : ∀ x ∈ tr₁, x.1.Arrives Headers.IsFresh := fun x hx => hA x (List.mem_append_left _ hx)
  obtain ⟨h₁, hd₁, hc₁⟩ := complete_run hr₁ hA₁ hlt₁
  obtain ⟨h, hd, hc⟩ := complete_run (hr₁.append hr₂) hA hlt
  obtain ⟨m, i, f, rfl, hf, rfl⟩ := (hasNumber_iff h hd hc hlt).1 hm
  obtain ⟨n, j, g, rfl, hg, rfl⟩ := (hasNumber_iff h hd hc hlt).1 hn
  constructor
  · intro k hgone hlate
    -- the first append is already in the list, the second one arrives above everything drawn
    obtain ⟨r, hr, hid⟩ := hgone
    obtain ⟨l, f', -, hf', hfid⟩ := hd₁.numbers r hr
    have hpos := order_issued_getElem (BatchOrder.getElem?_of_prefix (issued_prefix_run hr₂) hf')
    rw [hfid, hid] at hpos
    obtain rfl := h.order.position_unique hpos (order_issued_getElem hf)
    have hmiss : (j, g) ∉ R₁.issued := fun hmem => by
      obtain ⟨l, hl⟩ := List.getElem?_of_mem hmem
      have := h₁.drawn_lt j g.id (drawn_of_issued hl)
      have := arrived_le_of_arrivedAt hr₂ hlate
      omega
    have := BatchOrder.position_lt_of_prefix (issued_prefix_run hr₂) hf' hg hmiss
    omega
  · intro k ha hb
    have hlt' : f.id < g.id :=
      Nat.lt_of_lt_of_le (h₁.drawn_lt k f.id (hc₁.arrivals k _ ha))
        (arrived_le_of_arrivedAt hr₂ hb)
    obtain ⟨x, hx, hxa⟩ := ha
    obtain ⟨y, hy, hyb⟩ := hb
    have hka := hc.arrivals k f.id ⟨x, List.mem_append_left _ hx, hxa⟩
    have hkb := hc.arrivals k g.id ⟨y, List.mem_append_right _ hy, hyb⟩
    obtain rfl := h.order.one_lane k i _ hka (drawn_of_issued hf)
    obtain rfl := h.order.one_lane k j _ hkb (drawn_of_issued hg)
    have := h.order.position_lt_of_lane (order_issued_getElem hf) (order_issued_getElem hg) hlt'
    omega

/-- An append leaves, then another one arrives at the other switch and gets its number. -/
theorem numbers_respect_time_two : ∃ tr₁ tr₂ R, HasNumber (tr₁ ++ tr₂) R 0 1 ∧
    HasNumber (tr₁ ++ tr₂) R 1 2 ∧ (∃ r ∈ routed tr₁, r.id = 0) ∧ ArrivedAt tr₂ false 1 ∧
      1 < 2 := by
  have hx₁ : (machine (twoSwitches .sequencingOnly)).exec (start {})
    [.arrive true 0 .appendPkt, .control true 0, .recirc true 0 0] = some (_, _) := rfl
  obtain ⟨tr₁, R₁, hr₁, hA₁, hgone, R, tr₂, hx₂, hA₂, hlt, hlate, hm, hn⟩ :
      ∃ tr₁ R₁, (machine (twoSwitches .sequencingOnly)).Run (start {}) tr₁ R₁ ∧
        (∀ x ∈ tr₁, x.1.Arrives Headers.IsFresh) ∧ (∃ r ∈ routed tr₁, r.id = 0) ∧
        ∃ R tr₂, (machine (twoSwitches .sequencingOnly)).exec R₁
            [.arrive false 0 .appendPkt, .control false 0] = some (R, tr₂) ∧
          (∀ x ∈ tr₂, x.1.Arrives Headers.IsFresh) ∧ R.arrived < 2 ^ 32 ∧
          ArrivedAt tr₂ false 1 ∧ HasNumber (tr₁ ++ tr₂) R 0 1 ∧ HasNumber (tr₁ ++ tr₂) R 1 2 := by
    refine ⟨_, _, .of_exec hx₁, by simp [Event.Arrives]; decide, by decide, _, _, rfl, ?_⟩
    refine ⟨by simp [Event.Arrives]; decide, by decide, ?_, .inl (by decide), .inr ?_⟩
    · exact ⟨_, List.mem_cons_self .., 0, .appendPkt, rfl, rfl⟩
    · exact ⟨false, _, List.mem_cons_self .., rfl, by decide, by decide⟩
  have hA : ∀ x ∈ tr₁ ++ tr₂, x.1.Arrives Headers.IsFresh := fun x hx =>
    (List.mem_append.1 hx).elim (hA₁ x) (hA₂ x)
  exact ⟨tr₁, tr₂, R, hm, hn, hgone, hlate,
    (numbers_respect_time hr₁ (.of_exec hx₂) hA hlt hm hn).1 false hgone hlate⟩

end

end Ring

end Pringles.P4
