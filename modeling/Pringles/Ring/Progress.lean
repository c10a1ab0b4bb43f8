import Pringles.Ring.Sequencing
import Pringles.Switch.GsnTable

/-!
# A switch of a ring

A ring runs its switches: the part of a run that one switch makes is a run of that switch alone
(`run_switch`), and what it is handed there is what a switch may be sent. So what holds in every
reachable state of a switch holds of every switch of a ring (`switch_reachable`), and a ring goes on
as long as its switches find their slots (`progress`).
-/

namespace Pringles.P4

namespace Ring

variable {ι : Type} {N : Net ι} {R R' R₀ : Ring ι} {e : Event ι} {o : Served ι}
  {i : ι} {f : Flight} {s₀ : Switch} {ev : Switch.Event} {hdr : Headers}
  {tr : List (Event ι × Served ι)}

/-- What a switch of a ring is handed is a control packet or a packet that may enter. -/
theorem Inv.sent (h : R.Inv) (hA : e.Arrives Headers.Enters)
    (hd : R.dispatch e = some (i, ev, R₀)) : ev.Arrives Headers.Sent := by
  cases e with
  | arrive k ts hdr =>
    simp only [dispatch, Option.some.injEq, Prod.mk.injEq] at hd
    obtain ⟨-, rfl, -⟩ := hd
    exact .inr hA
  | recirc k ts n =>
    simp only [dispatch, Option.some.injEq, Prod.mk.injEq] at hd
    obtain ⟨-, rfl, -⟩ := hd
    trivial
  | control k ts =>
    simp only [dispatch, Option.some.injEq, Prod.mk.injEq] at hd
    obtain ⟨-, rfl, -⟩ := hd
    exact .inl h.token
  | hop ts n =>
    simp only [dispatch, Option.map_eq_some_iff, Prod.mk.injEq] at hd
    obtain ⟨⟨k, g⟩, hg, -, rfl, -⟩ := hd
    obtain ⟨htail, hv, -⟩ := h.wire _ (List.mem_of_getElem? hg)
    simp only at htail hv
    exact .inr ⟨htail.1, fun _ => by simp [hv, htail.2], fun ha => absurd ha htail.not_append⟩

theorem not_tail_of_origin (ho : R.Origin i f s₀ e) (hA : e.Arrives Headers.IsFresh)
    (happ : ∀ g ∈ (R.sw i).circ, g.hdr.IsAppend ∧ g.hdr.timer.isValid = false)
    (hwire : R.wire = []) : ¬ f.hdr.IsTail := by
  intro htail
  cases ho with
  | entered ts hdr same flight =>
    subst flight
    exact htail.not_append hA.1
  | returned ts k perm =>
    exact htail.not_append (happ f (perm.subset (List.mem_cons_self ..))).1
  | visiting ts same kind => exact kind.not_tail htail
  | travelling ts k same kind mem => simp [hwire] at mem

variable [DecidableEq ι]

/-! ## Runs of a switch -/

/-- **A switch of a ring is a switch**: its part of a run of the ring is a run of its own. -/
theorem run_switch {tr : List (Event ι × Served ι)} (h : (machine N).Run R tr R') (i : ι) :
    (Switch.machine N.program (N.tables i)).Run (R.sw i)
      (tr.filterMap fun x => if x.2.switch = i then some (x.2.event, x.2.pass) else none)
      (R'.sw i) := by
  refine h.image (f := fun R => R.sw i) ?_ ?_
  · intro R e R' o x hs hx
    split at hx
    · rename_i hi
      simp only [Option.some.injEq] at hx
      subst hx hi
      exact (step_switch hs).1
    · cases hx
  · intro R e R' o hs hx
    split at hx
    · cases hx
    · exact (step_switch hs).2 i (Ne.symm ‹_›)

/-- A step is possible if the switch that it concerns can make it. -/
theorem step_isSome_iff (hd : R.dispatch e = some (i, ev, R₀)) :
    (∃ q, (machine N).step R e = some q) ↔
      ∃ q, (Switch.machine N.program (N.tables i)).step (R.sw i) ev = some q := by
  simp [machine, step, Switch.machine, hd, (dispatched hd).sw]

theorem sent_run (hr : (machine N).Run (start hdr) tr R)
    (hA : ∀ x ∈ tr, x.1.Arrives Headers.Enters) (hlt : R.arrived < 2 ^ 32) :
    ∀ x ∈ tr, x.2.event.Arrives Headers.Sent := by
  intro x hx
  obtain ⟨tr₁, tr₂, rfl⟩ := List.append_of_mem hx
  obtain ⟨R₁, R₂, hr₁, hs, hr₂⟩ := hr.split_cons
  have hle : R₁.arrived ≤ R.arrived := Nat.le_trans (step_arrived_le hs) (arrived_le_run hr₂)
  have h₁ := inv_run hr₁ (fun y hy => hA y (List.mem_append_left _ hy)) (Nat.lt_of_le_of_lt hle hlt)
  obtain ⟨i, ev, R₀, f, s₀, out, hd, -, -, -, ho⟩ := step_eq_some hs
  rw [ho]
  exact h₁.sent (hA x hx) hd

/-- **What a switch of a ring can reach it can reach alone.** -/
theorem switch_reachable (hr : (machine N).Run (start hdr) tr R)
    (hA : ∀ x ∈ tr, x.1.Arrives Headers.Enters) (hlt : R.arrived < 2 ^ 32) (i : ι) :
    ∃ tr', (Switch.machine N.program (N.tables i)).Run {} tr' (R.sw i) ∧
      ∀ x ∈ tr', x.1.Arrives Headers.Sent := by
  refine ⟨_, run_switch hr i, ?_⟩
  intro x hx
  obtain ⟨y, hy, hyx⟩ := List.mem_filterMap.1 hx
  split at hyx
  · simp only [Option.some.injEq] at hyx
    rw [← hyx]
    exact sent_run hr hA hlt y hy
  · cases hyx

/-- **A ring goes on** as long as the switch that is handed a packet finds the slot that the packet
asks for. -/
theorem progress (hr : (machine N).Run (start hdr) tr R)
    (hA : ∀ x ∈ tr, x.1.Arrives Headers.Enters) (hlt : R.arrived < 2 ^ 32)
    (he : e.Arrives Headers.Enters) (hd : R.dispatch e = some (i, ev, R₀))
    (hp : (R₀.sw i).present ev = some (f, s₀)) :
    (∃ q, (machine N).step R e = some q) ↔ (R.sw i).HasSlot N.program f.hdr := by
  obtain ⟨tr', hr', hA'⟩ := switch_reachable hr hA hlt i
  have hsent := (inv_run hr hA hlt).sent he hd
  rw [(dispatched hd).sw] at hp
  rw [step_isSome_iff hd]
  exact (Switch.table_run hr' hA').step_isSome_iff hsent hp

/-! ## Rings that clients send nothing but appends -/

theorem Complete.step_wire (hcomp : Complete tr R) (h : R.Inv) (hA : e.Arrives Headers.IsFresh)
    (hwire : R.wire = []) (hs : (machine N).step R e = some (R', o)) : R'.wire = [] := by
  obtain ⟨i, ev, R₀, f, s₀, out, hd, hp, -, rfl, -⟩ := step_eq_some hs
  have htail := not_tail_of_origin (h.origin hd hp) hA (hcomp.appends i) hwire
  have hwire₀ : R₀.wire = [] := List.sublist_nil.1 (hwire ▸ (dispatched hd).wire)
  simp [settle, forwarded, hwire₀, htail]

/-- No tail request travels. -/
theorem wire_run (hr : (machine N).Run (start hdr) tr R)
    (hA : ∀ x ∈ tr, x.1.Arrives Headers.IsFresh) (hlt : R.arrived < 2 ^ 32) : R.wire = [] := by
  refine (hr.invariant (I := fun tr R => R.Inv ∧ Complete tr R ∧ R.wire = [])
    (B := fun R => R.arrived < 2 ^ 32)
    (fun _ _ _ _ _ hs hlt => Nat.lt_of_le_of_lt (step_arrived_le hs) hlt) ?_ hA ?_ hlt).2.2
  · intro tr R e R' o hA h hlt hs
    have hA' := hA.imp fun _ hfresh => Headers.IsFresh.enters hfresh
    exact ⟨h.1.step hA' hlt hs, h.2.1.step h.1 hA hs, h.2.1.step_wire h.1 hA h.2.2 hs⟩
  · exact ⟨inv_start hdr, complete_start hdr, rfl⟩

end Ring

end Pringles.P4
