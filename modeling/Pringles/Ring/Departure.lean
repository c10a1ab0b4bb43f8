import Pringles.Lib.TicketOffice
import Pringles.Ring.Progress

/-!
# When an append leaves

Clients send nothing but appends. Then arrivals and control visits alone say which appends have been
numbered and how: they are the calls of a ticket office (`office_run`). An append leaves at its first
pass after a control visit has closed its batch, with its position as its number, and at no other
pass (`departs_iff`). So the ring can always get rid of what it holds: a control visit at every
switch that has an open batch, and one more pass of every append that circulates (`drains`).
-/

namespace Pringles.P4

namespace Ring

variable {ι : Type} {N : Net ι} {R R' R₀ : Ring ι} {e : Event ι} {o : Served ι} {i j : ι}
  {f : Flight} {s₀ : Switch} {out : Pipe} {ev : Switch.Event} {found : Registers}
  {tr tr₁ tr₂ : List (Event ι × Served ι)} {hdr : Headers} {r : Routed}

/-- An append that arrives draws a number, and a control visit closes the batch of its switch. -/
def Event.call : Event ι → Option (Call ι)
  | arrive i _ _ => some (.draw i)
  | control i _ => some (.close i)
  | recirc _ _ _ => none
  | hop _ _ => none

/-- The calls that a run makes. -/
def calls (tr : List (Event ι × Served ι)) : List (Call ι) := tr.filterMap fun x => x.1.call

theorem calls_snoc : calls (tr ++ [(e, o)]) = calls tr ++ e.call.toList := by
  simp only [calls, List.filterMap_append, List.filterMap_cons, List.filterMap_nil]
  cases e.call <;> rfl

section
variable [DecidableEq ι]

/-- The ticket office that serves these calls. -/
def office (tr : List (Event ι × Served ι)) : TicketOffice ι := .after (calls tr)

/-- The office has issued what the ring has issued, and has the batches of the ring open. -/
structure Scheduled (tr : List (Event ι × Served ι)) (R : Ring ι) : Prop where
  order : (office tr).order = R.order
  drawn : (office tr).drawn = R.arrived

theorem office_called {c : Call ι} (h : e.call = some c) :
    office (tr ++ [(e, o)]) = (office tr).serve c := by
  rw [office, calls_snoc, h]
  exact TicketOffice.after_snoc _ c

theorem office_quiet (h : e.call = none) : office (tr ++ [(e, o)]) = office tr := by
  rw [office, calls_snoc, h, Option.toList_none, List.append_nil, office]

/-- A control visit closes the batch of its switch, empty or not. -/
theorem Inv.order_control (h : R.Inv) (hlt : R.arrived < 2 ^ 32) (hf : R.Fit i f s₀)
    (hctl : f.hdr.IsControl) :
    (R.settle N i (s₀.after f out) ⟨f, found, out⟩).order = R.order.close i := by
  by_cases hlocal : (R.sw i).regs.localSeqNo = 0
  · have hempty : (R.sw i).pending = [] :=
      ((h.numbered i).slots.pending_eq_nil_iff (h.bounded hlt i).pending).2 hlocal
    rw [order_quiet hf.presented (fun hc => hc.2 hlocal) hctl.not_draws]
    exact (BatchOrder.close_of_nil (by simp [Ring.order, hempty])).symm
  · exact order_closes hf.presented ⟨hctl, hlocal⟩

theorem Scheduled.step (ho : Scheduled tr R) (h : R.Inv) (hcomp : Complete tr R) (hwire : R.wire = [])
    (hA : e.Arrives Headers.IsFresh) (hlt : R'.arrived < 2 ^ 32)
    (hs : (machine N).step R e = some (R', o)) : Scheduled (tr ++ [(e, o)]) R' := by
  have hA' := hA.imp fun _ hfresh => Headers.IsFresh.enters hfresh
  obtain ⟨i, ev, R₀, f, s₀, out, hdisp, hp, hout, rfl, rfl⟩ := step_eq_some hs
  have hdisp' := Ring.dispatched hdisp
  have hf := h.fit hA' hdisp hp
  have horder := order_dispatched hdisp'
  have hlt₀ : R₀.arrived < 2 ^ 32 := hlt
  cases e with
  | arrive k ts hdr =>
    have hfresh : hdr.IsFresh := hA
    obtain ⟨rfl, rfl, rfl, -⟩ := dispatch_arrive hdisp hp
    have hdraws : hdr.Draws := ⟨hfresh.1.1, hfresh.2.1, hfresh.2.2.2⟩
    constructor
    · rw [office_called rfl, order_draws hf.presented hdraws, horder, ← ho.order, ← ho.drawn]
      rfl
    · rw [office_called rfl]
      exact congrArg Nat.succ ho.drawn
  | recirc k ts n =>
    simp only [dispatch, Option.some.injEq, Prod.mk.injEq] at hdisp
    obtain ⟨rfl, rfl, rfl⟩ := hdisp
    have hmem := (Switch.present_recirc hp).subset (List.mem_cons_self ..)
    have hdata : f.hdr.cntrl.isValid = false := (hcomp.appends k f hmem).1.1
    have hne : f.hdr.append.gIdx ≠ 0 := ((h.numbered k).offsets f hmem).1
    constructor
    · rw [office_quiet rfl, order_quiet hf.presented (Switch.not_closes hdata) fun hd => hne hd.2.2]
      exact ho.order
    · rw [office_quiet rfl]
      exact ho.drawn
  | control k ts =>
    simp only [dispatch, Option.some.injEq, Prod.mk.injEq] at hdisp
    obtain ⟨rfl, rfl, rfl⟩ := hdisp
    simp only [Switch.present, Option.some.injEq, Prod.mk.injEq] at hp
    obtain ⟨rfl, rfl⟩ := hp
    constructor
    · rw [office_called rfl, h.order_control hlt₀ hf h.token, ← ho.order]
      rfl
    · rw [office_called rfl]
      exact ho.drawn
  | hop ts n => simp [dispatch, hwire] at hdisp

/-- **Arrivals and control visits are the calls of a ticket office.** -/
theorem office_run (hr : (machine N).Run (start hdr) tr R)
    (hA : ∀ x ∈ tr, x.1.Arrives Headers.IsFresh) (hlt : R.arrived < 2 ^ 32) : Scheduled tr R := by
  refine (hr.invariant (I := fun tr R => R.Inv ∧ Complete tr R ∧ R.wire = [] ∧ Scheduled tr R)
    (B := fun R => R.arrived < 2 ^ 32)
    (fun _ _ _ _ _ hs hlt => Nat.lt_of_le_of_lt (step_arrived_le hs) hlt) ?_ hA ?_ hlt).2.2.2
  · rintro tr R e R' o hA ⟨h, hcomp, hwire, ho⟩ hlt hs
    have hA' := hA.imp fun _ hfresh => Headers.IsFresh.enters hfresh
    exact ⟨h.step hA' hlt hs, hcomp.step h hA hs, hcomp.step_wire h hA hwire hs,
      ho.step h hcomp hwire hA hlt hs⟩
  · exact ⟨inv_start hdr, complete_start hdr, rfl, rfl, rfl⟩

/-! ## Departures -/

omit [DecidableEq ι] in
/-- An append that comes back after its number was issued leaves with it. -/
theorem Inv.routedBy_of_issued (h : R.Inv) (hlt : R.arrived < 2 ^ 32) (hf : R.Fit i f s₀)
    (ha : f.hdr.IsAppend) (htimer : f.hdr.timer.isValid = false) (hne : f.hdr.append.gIdx ≠ 0)
    (hk : MyIngress.PassKind s₀.regs f.hdr out) {n : Nat}
    (hn : R.order.issued[n]? = some (i, f.id)) :
    routedBy ⟨f, found, out⟩ = some ⟨f.id, BitVec.ofNat 32 (n + 1)⟩ := by
  cases hk with
  | control kind => exact absurd ha kind.not_append
  | fresh _ draws => exact absurd draws.2.2 hne
  | circulating _ _ pass =>
    have hregs := hf.presented.regs
    rcases h.number hlt ha (hf.offset ha hne) with ⟨-, g, hg, hid⟩ | ⟨hclosed, m, g, hm, hid, hnum⟩
    · -- a packet of the open batch has not been issued
      have hpend : f.id ∈ R.order.pending i := List.mem_map.2 ⟨g, hg, hid⟩
      have := h.order.issued_lt_pending i _ _ (List.mem_of_getElem? hn) hpend
      exact absurd this (Nat.lt_irrefl _)
    · have hm' := order_issued_getElem hm
      rw [hid] at hm'
      obtain rfl := h.order.position_unique hn hm'
      have hshard := (pass.closedBatch (hregs ▸ hclosed) htimer).2.1
      rw [routedBy, if_pos ⟨ha, hshard⟩, pass.gIdx, hregs, ← hnum, BitVec.ofNat_toNat]
      rfl
  | response kind => exact absurd ha kind.not_append
  | idle _ _ notAppend => exact absurd ha.2 notAppend

omit [DecidableEq ι] in
/-- A packet that was there before comes back from the loopback port of its switch. -/
theorem returned_of_lt (hwire : R.wire = []) (hdisp : R.dispatch e = some (i, ev, R₀))
    (hp : (R₀.sw i).present ev = some (f, s₀)) (hbefore : f.id < R.arrived) :
    R₀ = R ∧ f ∈ (R.sw i).circ := by
  cases e with
  | arrive k ts hdr =>
    obtain ⟨-, -, rfl, -⟩ := dispatch_arrive hdisp hp
    exact absurd hbefore (Nat.lt_irrefl _)
  | recirc k ts n =>
    simp only [dispatch, Option.some.injEq, Prod.mk.injEq] at hdisp
    obtain ⟨rfl, rfl, rfl⟩ := hdisp
    exact ⟨rfl, (Switch.present_recirc hp).subset (List.mem_cons_self ..)⟩
  | control k ts =>
    simp only [dispatch, Option.some.injEq, Prod.mk.injEq] at hdisp
    obtain ⟨rfl, rfl, rfl⟩ := hdisp
    simp only [Switch.present, Option.some.injEq, Prod.mk.injEq] at hp
    obtain ⟨rfl, rfl⟩ := hp
    exact absurd hbefore (Nat.lt_irrefl _)
  | hop ts n => simp [dispatch, hwire] at hdisp

theorem routedBy_iff (h : R.Inv) (hcomp : Complete tr R) (hwire : R.wire = [])
    (hA : e.Arrives Headers.IsFresh) (hlt : R'.arrived < 2 ^ 32)
    (hs : (machine N).step R e = some (R', o)) : routedBy o.pass = some r ↔
      ∃ n, R.order.issued[n]? = some (o.switch, o.pass.flight.id) ∧
        r = ⟨o.pass.flight.id, BitVec.ofNat 32 (n + 1)⟩ := by
  have hA' := hA.imp fun _ hfresh => Headers.IsFresh.enters hfresh
  obtain ⟨i, ev, R₀, f, s₀, out, hdisp, hp, hout, rfl, rfl⟩ := step_eq_some hs
  have hdisp' := Ring.dispatched hdisp
  have h₀ := h.dispatched hdisp'
  have hf := h.fit hA' hdisp hp
  have horder := order_dispatched hdisp'
  have hlt₀ : R₀.arrived < 2 ^ 32 := hlt
  rw [← hf.presented.regs] at hout
  have hk := MyIngress.passKind hf.wellFormed hout
  simp only
  constructor
  · intro hr
    obtain ⟨-, -, -, hid, m, g, hm, hg, hnum⟩ := h₀.routedBy_some hlt₀ hf hk hr
    have hm' := order_issued_getElem hm
    rw [horder, hg] at hm'
    refine ⟨m, hm', ?_⟩
    obtain ⟨id, gIdx⟩ := r
    simp only at hid hnum
    rw [hid, ← hnum, BitVec.ofNat_toNat, BitVec.setWidth_eq]
  · rintro ⟨n, hn, rfl⟩
    have hbefore : f.id < R.arrived := h.drawn_lt i _ (.inl (List.mem_of_getElem? hn))
    obtain ⟨rfl, hmem⟩ := returned_of_lt hwire hdisp hp hbefore
    obtain ⟨ha, htimer⟩ := hcomp.appends i f hmem
    exact h.routedBy_of_issued hlt₀ hf ha htimer ((h.numbered i).offsets f hmem).1 hk hn

/-! ### Control visits since an arrival -/

omit [DecidableEq ι] in
theorem call_draw (h : e.call = some (.draw i)) : ∃ ts hdr, e = .arrive i ts hdr := by
  cases e with
  | arrive k ts hdr =>
    simp only [Event.call, Option.some.injEq, Call.draw.injEq] at h
    exact ⟨ts, hdr, by rw [h]⟩
  | recirc | control | hop => simp [Event.call] at h

omit [DecidableEq ι] in
theorem call_close (h : e.call = some (.close i)) : ∃ ts, e = .control i ts := by
  cases e with
  | control k ts =>
    simp only [Event.call, Option.some.injEq, Call.close.injEq] at h
    exact ⟨ts, by rw [h]⟩
  | arrive | recirc | hop => simp [Event.call] at h

/-- Since append `a` arrived at switch `i`, the control packet has been there. -/
def VisitedSince (tr : List (Event ι × Served ι)) (i : ι) (a : Nat) : Prop :=
  ∃ u x v, tr = u ++ x :: v ∧ (∃ ts hdr, x.1 = .arrive i ts hdr) ∧ x.2.pass.flight.id = a ∧
    ∃ y ∈ v, ∃ ts, y.1 = .control i ts

theorem id_of_arrive {ts : BitVec 48} {hdr' : Headers} {x : Event ι × Served ι}
    (hr : (machine N).Run (start hdr) (tr₁ ++ x :: tr₂) R)
    (hA : ∀ y ∈ tr₁ ++ x :: tr₂, y.1.Arrives Headers.IsFresh) (hlt : R.arrived < 2 ^ 32)
    (hx : x.1 = .arrive i ts hdr') : x.2.pass.flight.id = (office tr₁).drawn := by
  obtain ⟨R₁, R₂, hr₁, hs, hr₂⟩ := hr.split_cons
  have hle : R₁.arrived ≤ R.arrived := Nat.le_trans (step_arrived_le hs) (arrived_le_run hr₂)
  obtain ⟨j, ev, R₀, f, s₀, out, hdisp, hp, -, -, ho⟩ := step_eq_some hs
  rw [hx] at hdisp
  obtain ⟨-, -, rfl, -⟩ := dispatch_arrive hdisp hp
  rw [ho, (office_run hr₁ (fun y hy => hA y (List.mem_append_left _ hy)) (by omega)).drawn]

/-- The office has issued the tickets of the appends whose switch the control packet has visited
since they arrived. -/
theorem mem_issued_iff (hr : (machine N).Run (start hdr) tr R)
    (hA : ∀ x ∈ tr, x.1.Arrives Headers.IsFresh) (hlt : R.arrived < 2 ^ 32) {a : Nat} :
    (i, a) ∈ (office tr).order.issued ↔ VisitedSince tr i a := by
  unfold office
  rw [TicketOffice.mem_issued_iff]
  constructor
  · rintro ⟨cs₁, cs₂, hcalls, ha, hclose⟩
    obtain ⟨l₁, l₂, rfl, rfl, hl₂⟩ := List.filterMap_eq_append_iff.1 hcalls
    obtain ⟨l₃, x, v, rfl, hnone, hx, rfl⟩ := List.filterMap_eq_cons_iff.1 hl₂
    obtain ⟨ts, hdr', hx⟩ := call_draw hx
    obtain ⟨y, hy, hcall⟩ := List.mem_filterMap.1 hclose
    have hquiet : calls (l₁ ++ l₃) = calls l₁ := by
      simp only [calls, List.filterMap_append, List.filterMap_eq_nil_iff.2 hnone, List.append_nil]
    rw [← List.append_assoc] at hr hA ⊢
    refine ⟨l₁ ++ l₃, x, v, rfl, ⟨ts, hdr', hx⟩, ?_, y, hy, call_close hcall⟩
    rw [id_of_arrive hr hA hlt hx, office, hquiet]
    exact ha
  · rintro ⟨u, x, v, rfl, ⟨ts, hdr', hx⟩, ha, y, hy, ts', hclose⟩
    refine ⟨calls u, calls v, ?_, ?_, ?_⟩
    · simp [calls, hx, Event.call]
    · rw [← ha, id_of_arrive hr hA hlt hx, office]
    · exact List.mem_filterMap.2 ⟨y, hy, by rw [hclose]; rfl⟩

section
variable (hr : (machine N).Run (start hdr) (tr₁ ++ (e, o) :: tr₂) R)
  (hA : ∀ x ∈ tr₁ ++ (e, o) :: tr₂, x.1.Arrives Headers.IsFresh) (hlt : R.arrived < 2 ^ 32)

include hr hA hlt

/-- The state that a step of a run finds. -/
theorem before_step : ∃ R₁ R₂, (machine N).Run (start hdr) tr₁ R₁ ∧
    (machine N).step R₁ e = some (R₂, o) ∧ R₁.arrived < 2 ^ 32 ∧ R₂.arrived < 2 ^ 32 ∧
    (∀ x ∈ tr₁, x.1.Arrives Headers.IsFresh) ∧ e.Arrives Headers.IsFresh := by
  obtain ⟨R₁, R₂, hr₁, hs, hr₂⟩ := hr.split_cons
  have hlt₂ : R₂.arrived < 2 ^ 32 := Nat.lt_of_le_of_lt (arrived_le_run hr₂) hlt
  exact ⟨R₁, R₂, hr₁, hs, Nat.lt_of_le_of_lt (step_arrived_le hs) hlt₂, hlt₂,
    fun x hx => hA x (List.mem_append_left _ hx),
    hA _ (List.mem_append_right _ (List.mem_cons_self ..))⟩

theorem routedBy_iff_issued : routedBy o.pass = some r ↔
    ∃ n, (office tr₁).order.issued[n]? = some (o.switch, o.pass.flight.id) ∧
      r = ⟨o.pass.flight.id, BitVec.ofNat 32 (n + 1)⟩ := by
  obtain ⟨R₁, R₂, hr₁, hs, hlt₁, hlt₂, hA₁, he⟩ := before_step hr hA hlt
  obtain ⟨h, -, hcomp⟩ := complete_run hr₁ hA₁ hlt₁
  rw [(office_run hr₁ hA₁ hlt₁).order]
  exact routedBy_iff h hcomp (wire_run hr₁ hA₁ hlt₁) he hlt₂ hs

theorem routedBy_iff_visitedSince : (∃ r, routedBy o.pass = some r) ↔
    VisitedSince tr₁ o.switch o.pass.flight.id := by
  obtain ⟨R₁, R₂, hr₁, hs, hlt₁, hlt₂, hA₁, he⟩ := before_step hr hA hlt
  rw [← mem_issued_iff hr₁ hA₁ hlt₁, List.mem_iff_getElem?]
  constructor
  · rintro ⟨r, hroute⟩
    obtain ⟨n, hn, -⟩ := (routedBy_iff_issued hr hA hlt).1 hroute
    exact ⟨n, hn⟩
  · rintro ⟨n, hn⟩
    exact ⟨_, (routedBy_iff_issued hr hA hlt).2 ⟨n, hn, rfl⟩⟩

/-- A packet makes all its passes at the switch where it has drawn its number. -/
theorem switch_of_visitedSince (hvisit : VisitedSince tr₁ i o.pass.flight.id) : o.switch = i := by
  obtain ⟨R₁, R₂, hr₁, hs, hlt₁, hlt₂, hA₁, he⟩ := before_step hr hA hlt
  obtain ⟨h, -, hcomp⟩ := complete_run hr₁ hA₁ hlt₁
  have hissued := (mem_issued_iff hr₁ hA₁ hlt₁).2 hvisit
  rw [(office_run hr₁ hA₁ hlt₁).order] at hissued
  have hbefore : o.pass.flight.id < R₁.arrived := h.drawn_lt i _ (.inl hissued)
  obtain ⟨k, ev, R₀, f, s₀, out, hdisp, hp, -, -, rfl⟩ := step_eq_some hs
  simp only at hbefore hissued ⊢
  obtain ⟨rfl, hmem⟩ := returned_of_lt (wire_run hr₁ hA₁ hlt₁) hdisp hp hbefore
  -- the ticket has been drawn at the switch that makes the pass
  have hdrawn : R₀.order.Drawn k f.id := by
    rcases h.number hlt₁ (hcomp.appends k f hmem).1 ((h.numbered k).offsets f hmem) with
      ⟨-, g, hg, hid⟩ | ⟨-, m, g, hm, hid, -⟩
    · exact .inr (List.mem_map.2 ⟨g, hg, hid⟩)
    · exact hid ▸ drawn_of_issued hm
  exact h.order.one_lane k i _ hdrawn (.inl hissued)

end

/-- **When an append leaves.** The pass of a step sends an append to its shard if and only if the
control packet has visited the switch since the append arrived there. The append then carries its
position in the order in which the office has issued the tickets. -/
theorem departs_iff (hr : (machine N).Run (start hdr) (tr₁ ++ (e, o) :: tr₂) R)
    (hA : ∀ x ∈ tr₁ ++ (e, o) :: tr₂, x.1.Arrives Headers.IsFresh) (hlt : R.arrived < 2 ^ 32) :
    ((∃ r, routedBy o.pass = some r) ↔ VisitedSince tr₁ o.switch o.pass.flight.id) ∧
      ∀ r, routedBy o.pass = some r ↔
        ∃ n, (office tr₁).order.issued[n]? = some (o.switch, o.pass.flight.id) ∧
          r = ⟨o.pass.flight.id, BitVec.ofNat 32 (n + 1)⟩ :=
  ⟨routedBy_iff_visitedSince hr hA hlt, fun _ => routedBy_iff_issued hr hA hlt⟩

/-- Two appends at one switch and one at the other. The control packet visits both switches, and the
append at the second one leaves with the number behind those of the first. -/
theorem departs_iff_three : ∃ tr e o R, (machine (twoSwitches .sequencingOnly)).Run (start {})
    (tr ++ [(e, o)]) R ∧ tr.filterMap (fun x => routedBy x.2.pass) = [⟨0, 1⟩] ∧
      o.switch = false ∧ VisitedSince tr o.switch o.pass.flight.id ∧
      routedBy o.pass = some ⟨1, 3⟩ := by
  have hx : (machine (twoSwitches .sequencingOnly)).exec (start {}) [.arrive true 0 .appendPkt,
    .arrive false 0 .appendPkt, .recirc false 0 0, .arrive true 0 .appendPkt, .control true 0,
    .recirc true 0 0, .control false 0, .recirc false 0 0] = some (_, _) := rfl
  obtain ⟨tr, e, o, R, hr, hA, hlt, hfirst, hswitch, hroute⟩ : ∃ tr e o R,
      (machine (twoSwitches .sequencingOnly)).Run (start {}) (tr ++ [(e, o)]) R ∧
      (∀ x ∈ tr ++ [(e, o)], x.1.Arrives Headers.IsFresh) ∧ R.arrived < 2 ^ 32 ∧
        tr.filterMap (fun x => routedBy x.2.pass) = [⟨0, 1⟩] ∧ o.switch = false ∧
        routedBy o.pass = some ⟨1, 3⟩ :=
    ⟨[_, _, _, _, _, _, _], _, _, _, .of_exec hx, by simp [Event.Arrives]; decide, by decide, rfl,
      rfl, rfl⟩
  exact ⟨tr, e, o, R, hr, hfirst, hswitch, (departs_iff hr hA hlt).1.1 ⟨_, hroute⟩, hroute⟩

end

end Ring

end Pringles.P4
