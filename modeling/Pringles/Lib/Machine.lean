import Mathlib.Data.List.Basic
import Mathlib.Data.List.Induction

/-!
# Partial machines and their runs

A machine reads an input in a state and either moves, yielding an output, or refuses the input
(`none`). A run is recorded by its trace, the inputs with the outputs they produced. The rules here
are the ones a safety proof uses over and over: an invariant that may read the trace
(`Run.invariant`), an order that every step respects (`Run.mono`), cutting a run in two
(`Run.split`) and the image of a run under a step-wise simulation with stuttering (`Run.image`).
That a machine can finish what it has begun is `exists_run_of_measure`, or `exists_run_of_lt` when
nobody counts the steps.

Invariants are stated under a bound `B` on states that is inherited backwards, so that a bound
assumed of the last state of a run is available at every earlier one.
-/

universe u v w

/-- A deterministic machine with states `σ`, inputs `ε` and outputs `ω`. -/
structure Machine (σ : Type u) (ε : Type v) (ω : Type w) where
  step : σ → ε → Option (σ × ω)

namespace Machine

variable {σ : Type u} {ε : Type v} {ω : Type w} {M : Machine σ ε ω}

variable (M) in
/-- `Run M s tr s'`: from `s` the inputs of `tr` lead to `s'` with the outputs of `tr`. -/
inductive Run : σ → List (ε × ω) → σ → Prop
  | nil (s : σ) : Run s [] s
  | snoc {s s' s'' : σ} {tr : List (ε × ω)} {e : ε} {o : ω} :
      Run s tr s' → M.step s' e = some (s'', o) → Run s (tr ++ [(e, o)]) s''

variable (M) in
/-- The run on a list of inputs, computed; `none` when an input is refused. -/
def exec : σ → List ε → Option (σ × List (ε × ω))
  | s, [] => some (s, [])
  | s, e :: es =>
    (M.step s e).bind fun p => (exec p.1 es).map fun q => (q.1, (e, p.2) :: q.2)

/-- One more input after a computed run. -/
theorem exec_snoc {es : List ε} {s m : σ} {tr : List (ε × ω)} (h : M.exec s es = some (m, tr))
    (e : ε) : M.exec s (es ++ [e]) = (M.step m e).map fun p => (p.1, tr ++ [(e, p.2)]) := by
  induction es generalizing s tr with
  | nil =>
    cases h
    simp only [List.nil_append, exec]
    cases M.step m e <;> rfl
  | cons e' es ih =>
    simp only [exec, Option.bind_eq_some_iff, Option.map_eq_some_iff, Prod.mk.injEq] at h
    obtain ⟨p, hp, ⟨q, tl⟩, hq, rfl, rfl⟩ := h
    rw [List.cons_append, exec, hp, Option.bind_some, ih hq]
    cases M.step q e <;> rfl

/-- The trace of a computed run has its inputs. -/
theorem map_fst_of_exec {es : List ε} {s m : σ} {tr : List (ε × ω)}
    (h : M.exec s es = some (m, tr)) : tr.map Prod.fst = es := by
  induction es generalizing s tr with
  | nil =>
    cases h
    rfl
  | cons e es ih =>
    simp only [exec, Option.bind_eq_some_iff, Option.map_eq_some_iff, Prod.mk.injEq] at h
    obtain ⟨p, -, ⟨q, tl⟩, hq, rfl, rfl⟩ := h
    rw [List.map_cons, ih hq]

theorem forall_of_exec {P : ε → Prop} {es : List ε} {s m : σ} {tr : List (ε × ω)}
    (h : M.exec s es = some (m, tr)) (hes : ∀ e ∈ es, P e) : ∀ x ∈ tr, P x.1 := by
  intro x hx
  refine hes x.1 ?_
  rw [← map_fst_of_exec h]
  exact List.mem_map_of_mem hx

/-- If `M` does on every input what `N` does on its image, so do their computed runs. -/
theorem exec_map {σ' : Type*} {ε' : Type*} {ω' : Type*} {N : Machine σ' ε' ω'} {f : σ → σ'}
    {g : ε → ε'} {h : ω → ω'} {es : List ε}
    (hstep : ∀ e ∈ es, ∀ s, (M.step s e).map (Prod.map f h) = N.step (f s) (g e)) (s : σ) :
    (M.exec s es).map (Prod.map f (List.map (Prod.map g h))) = N.exec (f s) (es.map g) := by
  induction es generalizing s with
  | nil => rfl
  | cons e es ih =>
    have hfirst := hstep e (.head _) s
    simp only [exec, List.map_cons, ← hfirst]
    cases M.step s e with
    | none => rfl
    | some p =>
      have hrest := ih (fun e' he' => hstep e' (.tail _ he')) p.1
      simp only [Option.bind_some, Option.map_some, Prod.map_fst, ← hrest]
      cases M.exec p.1 es with
      | none => rfl
      | some q => rfl

namespace Run

variable {s s' s'' : σ} {tr tr' : List (ε × ω)}

theorem single {e : ε} {o : ω} (h : M.step s e = some (s', o)) : M.Run s [(e, o)] s' :=
  .snoc (.nil s) h

theorem append (h : M.Run s tr s') (h' : M.Run s' tr' s'') : M.Run s (tr ++ tr') s'' := by
  induction h' with
  | nil => simpa using h
  | snoc _ hs ih => rw [← List.append_assoc]; exact .snoc ih hs

theorem eq_of_nil (h : M.Run s [] s') : s' = s := by
  generalize hl : [] = l at h
  cases h with
  | nil => rfl
  | snoc => simp at hl

/-- The last step of a run. -/
theorem snoc_inv {x : ε × ω} (h : M.Run s (tr ++ [x]) s'') :
    ∃ m, M.Run s tr m ∧ M.step m x.1 = some (s'', x.2) := by
  generalize hl : tr ++ [x] = l at h
  cases h with
  | nil => simp at hl
  | snoc h hs =>
    obtain ⟨rfl, hx⟩ := List.append_inj' hl rfl
    cases hx
    exact ⟨_, h, hs⟩

/-- A run whose trace is a concatenation passes through a state between the two parts. -/
theorem split (h : M.Run s (tr ++ tr') s'') : ∃ m, M.Run s tr m ∧ M.Run m tr' s'' := by
  induction tr' using List.reverseRecOn generalizing s'' with
  | nil => exact ⟨s'', by simpa using h, .nil _⟩
  | append_singleton tr' x ih =>
    rw [← List.append_assoc] at h
    obtain ⟨s', h, hs⟩ := snoc_inv h
    obtain ⟨m, h1, h2⟩ := ih h
    exact ⟨m, h1, .snoc h2 hs⟩

/-- The step that an entry of the trace records, with the states around it. -/
theorem split_cons {x : ε × ω} (h : M.Run s (tr ++ x :: tr') s'') :
    ∃ m m', M.Run s tr m ∧ M.step m x.1 = some (m', x.2) ∧ M.Run m' tr' s'' := by
  rw [List.append_cons] at h
  obtain ⟨m', h, h'⟩ := split h
  obtain ⟨m, h, hs⟩ := snoc_inv h
  exact ⟨m, m', h, hs, h'⟩

/-- The first step of a run. -/
theorem cons_inv {x : ε × ω} (h : M.Run s (x :: tr') s'') :
    ∃ m, M.step s x.1 = some (m, x.2) ∧ M.Run m tr' s'' := by
  have h' : M.Run s ([] ++ x :: tr') s'' := h
  obtain ⟨m, m', hnil, hs, hr⟩ := h'.split_cons
  rw [hnil.eq_of_nil] at hs
  exact ⟨m', hs, hr⟩

theorem of_exec {es : List ε} (h : exec M s es = some (s', tr)) : M.Run s tr s' := by
  induction es generalizing s tr with
  | nil =>
    simp only [exec, Option.some.injEq, Prod.mk.injEq] at h
    obtain ⟨rfl, rfl⟩ := h
    exact .nil _
  | cons e es ih =>
    simp only [exec, Option.bind_eq_some_iff, Option.map_eq_some_iff, Prod.mk.injEq] at h
    obtain ⟨⟨m, o⟩, hm, ⟨n, tl⟩, hn, rfl, rfl⟩ := h
    exact (single hm).append (ih hn)

/-- **The invariant rule.** `I` may read the trace; `B` is a bound known of the last state that
every step hands back to its first state; `A` holds of every input of the run. -/
theorem invariant {I : List (ε × ω) → σ → Prop} {B : σ → Prop} {A : ε → Prop}
    (hback : ∀ s e s' o, A e → M.step s e = some (s', o) → B s' → B s)
    (hstep : ∀ tr s e s' o, A e → I tr s → B s' → M.step s e = some (s', o) →
      I (tr ++ [(e, o)]) s')
    (h : M.Run s tr s') (hA : ∀ x ∈ tr, A x.1) (hinit : I [] s) (hb : B s') : I tr s' := by
  induction h with
  | nil => exact hinit
  | snoc _ hs ih =>
    have he : A _ := hA (_, _) (List.mem_append_right _ (List.mem_singleton_self _))
    have hA' := fun x hx => hA x (List.mem_append_left _ hx)
    exact hstep _ _ _ _ _ he (ih hA' (hback _ _ _ _ he hs hb)) hb hs

/-- An order that every step respects is respected by every run. -/
theorem mono {R : σ → σ → Prop} {A : ε → Prop} (hrefl : ∀ s, R s s)
    (htrans : ∀ a b c, R a b → R b c → R a c)
    (hstep : ∀ s e s' o, A e → M.step s e = some (s', o) → R s s')
    (h : M.Run s tr s') (hA : ∀ x ∈ tr, A x.1) : R s s' := by
  induction h with
  | nil => exact hrefl _
  | snoc _ hs ih =>
    exact htrans _ _ _ (ih fun x hx => hA x (List.mem_append_left _ hx))
      (hstep _ _ _ _ (hA (_, _) (List.mem_append_right _ (List.mem_singleton_self _))) hs)

/-- **Simulation.** If every step of `M` is, under `f`, the step of `N` that `g` names or no step
at all, then the image of a run of `M` is a run of `N`. -/
theorem image {σ' : Type*} {ε' : Type*} {ω' : Type*} {N : Machine σ' ε' ω'} {f : σ → σ'}
    {g : ε × ω → Option (ε' × ω')}
    (hmove : ∀ s e s' o x, M.step s e = some (s', o) → g (e, o) = some x →
      N.step (f s) x.1 = some (f s', x.2))
    (hstay : ∀ s e s' o, M.step s e = some (s', o) → g (e, o) = none → f s' = f s)
    (h : M.Run s tr s') : N.Run (f s) (tr.filterMap g) (f s') := by
  induction h with
  | nil => exact .nil _
  | @snoc s' s'' tr e o _ hs ih =>
    rw [List.filterMap_append]
    cases hg : g (e, o) with
    | none => simpa [hg, hstay _ _ _ _ hs hg] using ih
    | some x =>
      have hx := hmove _ _ _ _ _ hs hg
      simpa [hg] using ih.snoc hx

end Run

/-- If from every state of `I` that is not in `G` some step keeps `I` and lowers the measure, the
machine can go on until it is in `G`. -/
theorem exists_run_of_lt {I G : σ → Prop} {A : ε → Prop} (m : σ → Nat)
    (hstep : ∀ s, I s → ¬ G s → ∃ e s' o, A e ∧ M.step s e = some (s', o) ∧ I s' ∧ m s' < m s)
    {s : σ} (h : I s) : ∃ tr s', M.Run s tr s' ∧ (∀ x ∈ tr, A x.1) ∧ I s' ∧ G s' := by
  induction hn : m s using Nat.strongRecOn generalizing s with
  | ind n ih =>
    subst hn
    by_cases hG : G s
    · exact ⟨[], s, .nil s, by simp, h, hG⟩
    · obtain ⟨e, s₁, o, he, hs, h₁, hlt⟩ := hstep s h hG
      obtain ⟨tr, s', hr, hA, h', hG'⟩ := ih _ hlt h₁ rfl
      exact ⟨(e, o) :: tr, s', (Run.single hs).append hr, List.forall_mem_cons.2 ⟨he, hA⟩, h', hG'⟩

end Machine
