import Mathlib.Data.List.Forall2
import Mathlib.Data.List.Induction

/-!
# Items that leave in groups

A trace of steps, each of which brings some items and may end with an output. The items that came
since the last output make the group of the next one, those behind the last output are open. The
groups, one after the other, and what is open make up all items in order (`flatten_group`); a relation
between outputs and their groups holds all along the trace when it holds at every output
(`forall₂_group_iff`).
-/

universe u v w

structure Grouping (α : Type u) where
  closed : List (List α) := []
  opened : List α := []

namespace Grouping

variable {α : Type u} {ε : Type v} {ω : Type w} (items : ε → List α) (output : ε → Option ω)

/-- One more step. -/
def add (g : Grouping α) (x : ε) : Grouping α :=
  match output x with
  | some _ => ⟨g.closed ++ [g.opened ++ items x], []⟩
  | none => ⟨g.closed, g.opened ++ items x⟩

/-- The groups of a trace. -/
def group (tr : List ε) : Grouping α := tr.foldl (add items output) {}

variable {items output} {tr pre post : List ε} {x : ε} {o : ω}

@[simp] theorem group_nil : group items output [] = {} := rfl

theorem group_snoc : group items output (tr ++ [x]) = add items output (group items output tr) x := by
  simp [group, List.foldl_append]

theorem group_snoc_none (h : output x = none) : group items output (tr ++ [x]) =
    ⟨(group items output tr).closed, (group items output tr).opened ++ items x⟩ := by
  rw [group_snoc, add, h]

theorem group_snoc_some (h : output x = some o) : group items output (tr ++ [x]) =
    ⟨(group items output tr).closed ++ [(group items output tr).opened ++ items x], []⟩ := by
  rw [group_snoc, add, h]

/-- Nothing is lost, and nothing changes its place. -/
theorem flatten_group (tr : List ε) :
    (group items output tr).closed.flatten ++ (group items output tr).opened =
      tr.flatMap items := by
  induction tr using List.reverseRecOn with
  | nil => rfl
  | append_singleton tr x ih =>
    rw [List.flatMap_append, List.flatMap_singleton, ← ih]
    cases h : output x with
    | none => simp [group_snoc_none h]
    | some o => simp [group_snoc_some h]

/-- A member of a trace with one more step is one of the trace or the last one. -/
theorem forall_split_snoc {P : List ε → ε → Prop} :
    (∀ pre y post, tr ++ [x] = pre ++ y :: post → P pre y) ↔
      (∀ pre y post, tr = pre ++ y :: post → P pre y) ∧ P tr x := by
  constructor
  · intro h
    refine ⟨fun pre y post heq => h pre y (post ++ [x]) (by simp [heq]), h tr x [] rfl⟩
  · rintro ⟨h, hx⟩ pre y post heq
    induction post using List.reverseRecOn with
    | nil =>
      obtain ⟨rfl, hxy⟩ := List.append_inj' heq rfl
      cases hxy
      exact hx
    | append_singleton post z _ =>
      rw [← List.cons_append, ← List.append_assoc] at heq
      exact h pre y post (List.append_inj' heq rfl).1

/-- A relation between two lists that are longer by one. -/
theorem forall₂_snoc_iff {β : Type*} {R : ω → β → Prop} {os : List ω} {gs : List β} {g : β} :
    List.Forall₂ R (os ++ [o]) (gs ++ [g]) ↔ List.Forall₂ R os gs ∧ R o g := by
  rw [← List.forall₂_reverse_iff, List.reverse_concat, List.reverse_concat, List.forall₂_cons,
    List.forall₂_reverse_iff, and_comm]

/-- **A relation between outputs and groups**, output by output. -/
theorem forall₂_group_iff {R : ω → List α → Prop} :
    List.Forall₂ R (tr.filterMap output) (group items output tr).closed ↔
      ∀ pre x post, tr = pre ++ x :: post → ∀ o, output x = some o →
        R o ((group items output pre).opened ++ items x) := by
  induction tr using List.reverseRecOn with
  | nil => simp
  | append_singleton tr x ih =>
    rw [forall_split_snoc (P := fun pre y => ∀ o, output y = some o →
      R o ((group items output pre).opened ++ items y)), ← ih, List.filterMap_append]
    cases h : output x with
    | none => simp [group_snoc_none h, h]
    | some o =>
      rw [group_snoc_some h, List.filterMap_cons_some h, List.filterMap_nil, forall₂_snoc_iff]
      simp

end Grouping
