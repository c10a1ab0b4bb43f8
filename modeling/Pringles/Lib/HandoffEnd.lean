import Pringles.Lib.Handoff

/-!
# The end of a handoff

The flag that tells the threads to stop is raised without a mutex, and so the way from the look at the
flag to the sleep is a gap: who is in it when the flag is raised may fall asleep behind the wakers.
Everybody else gets to its end (`ends_iff`).
-/

universe u v

namespace Handoff

variable {κ : Type u} {α : Type v} [DecidableEq κ] {cfg : Config κ} {s s' : Handoff κ α}
  {e : Event κ α} {o : Done κ α} {k j : κ} {x : α} {tr : List (Event κ α × Done κ α)}

/-! ## The end -/

/-- The flag is up, and a consumer that may still fall asleep, or sleeps, is going to be woken. -/
structure View.Fine (cfg : Config κ) (k : κ) (v : View κ α) : Prop where
  stop : v.stop = true
  peek : v.consumer = .peek → v.queue ≠ [] ∨ v.producer = .lock k
  drowsy : v.consumer = .drowsy → v.producer = .lock k
  asleep : v.consumer = .asleep → v.producer.Serves k ∨ k ∈ v.waking.getD cfg.wakes

omit [DecidableEq κ] in
theorem View.Fine.elsewhere {v : View κ α} (hv : v.Fine cfg k) (hn : ¬ v.producer.Serves k)
    (p : Producer κ) : View.Fine cfg k { v with producer := p } where
  stop := hv.stop
  peek hc := .inl ((hv.peek hc).resolve_right fun h => hn (.inl h))
  drowsy hc := absurd (.inl (hv.drowsy hc)) hn
  asleep hc := .inr ((hv.asleep hc).resolve_left hn)

omit [DecidableEq κ] in
theorem View.Fine.roused {v : View κ α} (hv : v.Fine cfg k) :
    View.Fine cfg k { v with consumer := v.consumer.roused } where
  stop := hv.stop
  peek hc := hv.peek (Consumer.roused_eq_peek.1 hc)
  drowsy hc := hv.drowsy (Consumer.roused_eq_drowsy.1 hc)
  asleep hc := absurd hc (Consumer.roused_ne_asleep _)

theorem Moves.fine {v v' : View κ α} (h : Moves cfg k e o v v') (hv : v.Fine cfg k) :
    v'.Fine cfg k := by
  cases h with
  | consume _ c q works next =>
    have spec := Consumer.next_spec next
    refine ⟨hv.stop, fun hc => ?_, fun hc => ?_, fun hc => .inl (.inl ?_)⟩
    · rw [hv.stop] at spec
      exact absurd (spec.to_peek hc) (by decide)
    · obtain ⟨hpeek, hq, -⟩ := spec.to_drowsy hc
      exact (hv.peek hpeek).resolve_left fun hne => hne hq
    · exact hv.drowsy (spec.to_asleep hc).1
  | other => exact hv
  | idle _ listens => exact hv.elsewhere (by simp [listens, Producer.Serves]) _
  | put _ x listens =>
    exact ⟨hv.stop, fun _ => .inr rfl, fun _ => rfl, fun _ => .inl (.inl rfl)⟩
  | putOther _ j x ne listens => exact hv.elsewhere (by simp [listens, Producer.Serves]) _
  | begin _ starts => exact hv.elsewhere (by simp [starts, Producer.Serves]) _
  | lock _ before free =>
    refine ⟨hv.stop, fun hc => ?_, fun hc => ?_, fun _ => .inl (.inr (.inl rfl))⟩
    · rw [hc] at free
      cases free
    · rw [hc] at free
      cases free
  | lockOther _ j ne before => exact hv.elsewhere (by simp [before, Producer.Serves, ne]) _
  | unlock _ j before =>
    by_cases hj : j = k
    · subst hj
      refine ⟨hv.stop, fun hc => .inl ((hv.peek hc).resolve_right ?_), fun hc => ?_,
        fun _ => .inl (.inr (.inr rfl))⟩
      · simp [before]
      · exact absurd (hv.drowsy hc) (by simp [before])
    · exact hv.elsewhere (by simp [before, Producer.Serves, hj]) _
  | notify _ before =>
    refine ⟨hv.stop, fun hc => .inl ((hv.peek (Consumer.roused_eq_peek.1 hc)).resolve_right ?_),
      fun hc => absurd (hv.drowsy (Consumer.roused_eq_drowsy.1 hc)) (by simp [before]),
      fun hc => absurd hc (Consumer.roused_ne_asleep _)⟩
    simp [before]
  | notifyOther _ j ne before => exact hv.elsewhere (by simp [before, Producer.Serves, ne]) _
  | spurious => exact hv.roused
  | raise => exact ⟨rfl, hv.peek, hv.drowsy, hv.asleep⟩
  | close _ waits =>
    refine ⟨hv.stop, hv.peek, hv.drowsy, fun hc => ?_⟩
    have hasleep := hv.asleep hc
    rwa [waits] at hasleep
  | wake _ ks before =>
    exact ⟨hv.stop, hv.roused.peek, hv.roused.drowsy, fun hc => absurd hc (Consumer.roused_ne_asleep _)⟩
  | wakeOther _ j ks ne before =>
    refine ⟨hv.stop, hv.peek, hv.drowsy, fun hc => (hv.asleep hc).imp_right fun hk => ?_⟩
    rw [before] at hk
    exact (List.mem_cons.1 hk).resolve_left (Ne.symm ne)

theorem fine_run (hr : (machine α cfg).Run s tr s') (h : (s.view k).Fine cfg k) :
    (s'.view k).Fine cfg k :=
  hr.mono (R := fun s s' : Handoff κ α => (s.view k).Fine cfg k → (s'.view k).Fine cfg k)
    (A := fun _ => True) (fun _ h => h) (fun _ _ _ hab hbc h => hbc (hab h))
    (fun _ _ _ _ _ hs h => (step_moves hs k).fine h) (fun _ _ => trivial) h

/-- The wakers have passed queue `k`. -/
def View.Passed (k : κ) (v : View κ α) : Prop := ∃ ks, v.waking = some ks ∧ k ∉ ks

/-- A consumer whom the wakers have passed, and who sleeps with nobody on the way to wake it. -/
structure View.Hung (k : κ) (v : View κ α) : Prop where
  asleep : v.consumer = .asleep
  unserved : ¬ v.producer.Serves k
  passed : v.Passed k

/-- Neither a message for queue `k` nor a spurious wakeup of its consumer. -/
def Event.Spares (k : κ) : Event κ α → Prop
  | receive m => ∀ x, m ≠ some (k, x)
  | spurious j => j ≠ k
  | _ => True

omit [DecidableEq κ] in
theorem Event.Internal.spares (h : e.Internal) : e.Spares k := by
  cases e with
  | produce | consume => trivial
  | _ => exact h.elim

omit [DecidableEq κ] in
theorem View.Hung.elsewhere {v : View κ α} (hv : v.Hung k) {p : Producer κ}
    (hp : ¬ p.Serves k) : View.Hung k { v with producer := p } := ⟨hv.asleep, hp, hv.passed⟩

theorem Moves.hung {v v' : View κ α} (h : Moves cfg k e o v v') (he : e.Spares k)
    (hv : v.Hung k) : v'.Hung k := by
  have hserves := hv.unserved
  obtain ⟨ks, hks, hk⟩ := hv.passed
  cases h with
  | consume _ c q works next =>
    rw [hv.asleep] at next
    cases next
  | other => exact hv
  | idle | notifyOther => exact hv.elsewhere (by simp [Producer.Serves])
  | put _ x => exact absurd rfl (he x)
  | putOther _ j x ne | lockOther _ j ne => exact hv.elsewhere (by simp [Producer.Serves, ne])
  | begin =>
    refine hv.elsewhere ?_
    split <;> simp [Producer.Serves]
  | lock _ before => exact absurd (.inl before) hserves
  | unlock _ j before =>
    have hj : j ≠ k := fun hj => hserves (.inr (.inl (hj ▸ before)))
    exact hv.elsewhere (by simp [Producer.Serves, hj])
  | notify _ before => exact absurd (.inr (.inr before)) hserves
  | spurious => exact absurd rfl he
  | raise => exact ⟨hv.asleep, hserves, hv.passed⟩
  | close _ waits => simp [waits] at hks
  | wake _ ks' before =>
    rw [hks, Option.some.injEq] at before
    exact absurd (before ▸ List.mem_cons_self ..) hk
  | wakeOther _ j ks' ne before =>
    rw [hks, Option.some.injEq] at before
    exact ⟨hv.asleep, hserves, ks', rfl, fun hmem => hk (before ▸ List.mem_cons_of_mem _ hmem)⟩

/-- Who hangs sleeps on, until a message comes or the wakeup is spurious. -/
theorem hung_run (hr : (machine α cfg).Run s tr s') (hA : ∀ x ∈ tr, x.1.Spares k)
    (h : (s.view k).Hung k) : (s'.view k).Hung k :=
  hr.mono (R := fun s s' : Handoff κ α => (s.view k).Hung k → (s'.view k).Hung k)
    (A := fun e => e.Spares k) (fun _ h => h) (fun _ _ _ hab hbc h => hbc (hab h))
    (fun _ _ _ _ he hs h => (step_moves hs k).hung he h) hA h

/-- Everybody else whom the wakers have passed can leave. -/
theorem Inv.exists_gone (h : s.Inv cfg) (hworks : cfg.works k = true)
    (hf : (s.view k).Fine cfg k) (hpassed : (s.view k).Passed k) : ∃ tr s',
    (machine α cfg).Run s tr s' ∧ (∀ x ∈ tr, x.1.Internal) ∧ s'.consumer k = .gone := by
  obtain ⟨tr₁, s₁, hr₁, hint₁, h₁, hserves⟩ := h.exists_settled
  have hf₁ := fine_run hr₁ hf
  have hwaking : s₁.waking = s.waking := (internal_run hr₁ hint₁).2
  obtain ⟨ks, hks, hk⟩ := hpassed
  have hdrowsy : s₁.consumer k ≠ .drowsy := fun hc => hserves k (.inl (hf₁.drowsy hc))
  have hasleep : s₁.consumer k ≠ .asleep := by
    intro hc
    refine hk ?_
    have hmem := (hf₁.asleep hc).resolve_left (hserves k)
    simp only [view] at hks hmem
    rwa [hwaking, hks] at hmem
  have hpeek : s₁.consumer k = .peek → s₁.queue k ≠ [] :=
    fun hc => (hf₁.peek hc).resolve_right fun hp => hserves k (.inl hp)
  obtain ⟨tr₂, s₂, hr₂, hint₂, -, hgone⟩ := Machine.exists_run_of_lt (M := machine α cfg)
    (I := fun s => s.stop = true ∧ ¬ s.producer.Serves k ∧ s.consumer k ≠ .drowsy ∧
      s.consumer k ≠ .asleep ∧ (s.consumer k = .peek → s.queue k ≠ []))
    (G := fun s => s.consumer k = .gone) (A := Event.Internal)
    (fun s => (s.consumer k).leaveRank) (by
      rintro s ⟨hstop, hserves, hdrowsy, hasleep, hpeek⟩ hgone
      obtain ⟨c, q, hnext, hlt, hd, ha, hp⟩ :=
        Consumer.next_leaves (cfg.leaves k) hgone hdrowsy hasleep hpeek
      obtain ⟨o, hs⟩ := consume_eq_some hworks (by rw [hstop, not_blocked hserves, hnext])
      refine ⟨.consume k, _, o, trivial, hs, ⟨hstop, hserves, ?_⟩, ?_⟩
      · simp [hd, ha, hp]
      · simpa using hlt) ⟨hf₁.stop, hserves k, hdrowsy, hasleep, hpeek⟩
  exact ⟨tr₁ ++ tr₂, s₂, hr₁.append hr₂, List.forall_mem_append.2 ⟨hint₁, hint₂⟩, hgone⟩

/-! ### The gap -/

/-- The consumer has seen neither the flag nor a message, and does not sleep yet. -/
structure Gap (k : κ) (s : Handoff κ α) : Prop where
  empty : s.queue k = []
  between : s.consumer k = .peek ∨ s.consumer k = .drowsy
  unlocked : s.producer ≠ .lock k

/-- Behind the flag everybody is fine who has not been in the gap. -/
theorem Inv.fine_raise (h : s.Inv cfg) (hwaking : s.waking = none) (hk : k ∈ cfg.wakes)
    (hgap : ¬ Gap k s) : View.Fine cfg k { s.view k with stop := true } where
  stop := rfl
  peek hc := by
    by_contra hno
    rw [not_or, not_not] at hno
    exact hgap ⟨hno.1, .inl hc, hno.2⟩
  drowsy hc := by
    by_contra hno
    by_cases hq : s.queue k = []
    · exact hgap ⟨hq, .inr hc, hno⟩
    · exact hno ((h k).drowsy hc hq)
  asleep _ := by
    right
    simp only [view, hwaking]
    exact hk

/-- In the gap, and nobody is on the way to wake the consumer. -/
structure Awaits (k : κ) (s : Handoff κ α) : Prop where
  empty : s.queue k = []
  between : s.consumer k = .peek ∨ s.consumer k = .drowsy
  unserved : ¬ s.producer.Serves k

/-- The producer finishes, as far as it keeps the consumer awake. -/
theorem Gap.exists_awaits (hg : Gap k s) (h : s.Inv cfg) :
    ∃ tr s', (machine α cfg).Run s tr s' ∧ (∀ x ∈ tr, x.1.Closed) ∧ s'.waking = s.waking ∧
      Awaits k s' := by
  by_cases hn : s.producer = .notify k
  · have hs : (machine α cfg).step s .produce =
        some ({ s.rouse k with producer := .start }, .internal) := by
      simp [machine, step, produce, hn]
    refine ⟨_, _, .single hs, by simp [Event.Closed], rfl, hg.empty, ?_, by simp [Producer.Serves]⟩
    simpa [rouse] using hg.between
  · refine ⟨[], s, .nil s, by simp, rfl, hg.empty, hg.between, ?_⟩
    rintro (hl | hi | hn')
    · exact hg.unlocked hl
    · have hfree := (h k).exclusive hi
      rcases hg.between with hc | hc
      · simp [view, hc, Consumer.HasLock] at hfree
      · simp [view, hc, Consumer.HasLock] at hfree
    · exact hn hn'

/-- The wakers pass a consumer that does not sleep yet. -/
theorem Awaits.exists_passed (ha : Awaits k s) (cfg : Config κ) {ks : List κ}
    (hks : s.waking = some ks) :
    ∃ tr s', (machine α cfg).Run s tr s' ∧ (∀ x ∈ tr, x.1.Closed) ∧ s'.waking = some [] ∧
      Awaits k s' := by
  induction ks generalizing s with
  | nil => exact ⟨[], s, .nil s, by simp, hks, ha⟩
  | cons j ks ih =>
    have hs : (machine α cfg).step s .wake =
        some ({ s.rouse j with waking := some ks }, .internal) := by
      simp [machine, step, hks]
    have ha' : Awaits k { s.rouse j with waking := some ks } := by
      refine ⟨ha.empty, ?_, ha.unserved⟩
      by_cases hj : j = k
      · subst hj
        simpa [rouse] using ha.between
      · simpa [rouse, Function.update_of_ne (Ne.symm hj)] using ha.between
    obtain ⟨tr, s', hr, hclosed, hwaking, hdone⟩ := ih ha' rfl
    exact ⟨_, s', (Machine.Run.single hs).append hr, List.forall_mem_cons.2 ⟨trivial, hclosed⟩,
      hwaking, hdone⟩

/-- Then it falls asleep. -/
theorem Awaits.exists_asleep (ha : Awaits k s) (hworks : cfg.works k = true)
    (hpassed : (s.view k).Passed k) :
    ∃ tr s', (machine α cfg).Run s tr s' ∧ (∀ x ∈ tr, x.1.Closed) ∧ (s'.view k).Hung k := by
  have hfalls : ∀ s : Handoff κ α, s.consumer k = .drowsy → ¬ s.producer.Serves k →
      (s.view k).Passed k →
        ∃ tr s', (machine α cfg).Run s tr s' ∧ (∀ x ∈ tr, x.1.Closed) ∧ (s'.view k).Hung k := by
    intro s hc hserves hpassed
    obtain ⟨o, hs⟩ := consume_eq_some hworks
      (show (s.consumer k).next _ _ _ _ = _ by rw [hc]; rfl)
    exact ⟨_, _, .single hs, by simp [Event.Closed], by simp [view], hserves, hpassed⟩
  rcases ha.between with hc | hc
  · obtain ⟨o, hs⟩ := consume_eq_some hworks
      (show (s.consumer k).next _ _ _ _ = _ by rw [hc, ha.empty]; rfl)
    obtain ⟨tr, s', hr, hclosed, hhung⟩ := hfalls
      { s with
        consumer := Function.update s.consumer k .drowsy
        queue := Function.update s.queue k [] } (by simp) ha.unserved hpassed
    exact ⟨_, s', (Machine.Run.single hs).append hr, List.forall_mem_cons.2 ⟨trivial, hclosed⟩,
      hhung⟩
  · exact hfalls s hc ha.unserved hpassed

/-- Who is in the gap when the flag is raised may hang. -/
theorem Gap.exists_hung (hg : Gap k s) (h : s.Inv cfg) (hworks : cfg.works k = true)
    (hwaking : s.waking = none) : ∃ tr s', (machine α cfg).Run { s with stop := true } tr s' ∧
      (∀ x ∈ tr, x.1.Closed) ∧ (s'.view k).Hung k := by
  have hs : (machine α cfg).step s .raise = some ({ s with stop := true }, .internal) := by
    simp [machine, step, hwaking]
  have hg' : Gap k { s with stop := true } := ⟨hg.empty, hg.between, hg.unlocked⟩
  obtain ⟨tr₁, s₁, hr₁, hclosed₁, hw₁, ha₁⟩ := hg'.exists_awaits (h.step hs)
  have hclose : (machine α cfg).step s₁ .close =
      some ({ s₁ with waking := some cfg.wakes }, .internal) := by
    simp [machine, step, hw₁, hwaking]
  obtain ⟨tr₂, s₂, hr₂, hclosed₂, hw₂, ha₂⟩ := Awaits.exists_passed (s := { s₁ with
    waking := some cfg.wakes }) ⟨ha₁.empty, ha₁.between, ha₁.unserved⟩ cfg rfl
  obtain ⟨tr₃, s₃, hr₃, hclosed₃, hhung⟩ :=
    ha₂.exists_asleep hworks ⟨[], hw₂, List.not_mem_nil⟩
  refine ⟨_, s₃, ((hr₁.append (.single hclose)).append hr₂).append hr₃, ?_, hhung⟩
  simp only [List.forall_mem_append, List.forall_mem_singleton]
  exact ⟨⟨⟨hclosed₁, trivial⟩, hclosed₂⟩, hclosed₃⟩

/-- **When a consumer can miss the end.** The flag is raised in state `s`. Whatever happens then, a
consumer that the wakers have passed can leave, if and only if it is not in the gap when the flag is
raised. It makes no difference whether the producer receives anything more (`A`). -/
theorem ends_iff {A : Event κ α → Prop} (hA : ∀ e, e.Closed → A e) (h : s.Inv cfg)
    (hworks : cfg.works k = true) (hwaking : s.waking = none) (hk : k ∈ cfg.wakes) :
    (∀ tr s', (machine α cfg).Run { s with stop := true } tr s' → (∀ x ∈ tr, A x.1) →
      (s'.view k).Passed k → ∃ tr' s'', (machine α cfg).Run s' tr' s'' ∧
        (∀ x ∈ tr', x.1.Internal) ∧ s''.consumer k = .gone) ↔ ¬ Gap k s := by
  constructor
  · intro hall hg
    obtain ⟨tr, s', hr, hclosed, hhung⟩ := hg.exists_hung h hworks hwaking
    obtain ⟨tr', s'', hr', hint, hgone⟩ :=
      hall tr s' hr (fun x hx => hA x.1 (hclosed x hx)) hhung.passed
    have hasleep := (hung_run hr' (fun x hx => (hint x hx).spares) hhung).asleep
    simp [view, hgone] at hasleep
  · intro hgap tr s' hr _ hpassed
    have hs : (machine α cfg).step s .raise = some ({ s with stop := true }, .internal) := by
      simp [machine, step, hwaking]
    have hf : (s'.view k).Fine cfg k := fine_run hr (h.fine_raise hwaking hk hgap)
    exact ((h.step hs).run hr).exists_gone hworks hf hpassed

end Handoff
