import Mathlib.Logic.Function.Basic

/-!
# Exact-match tables

A table maps a key to the entry installed for it, if any. A controller may add an entry under a key
that has none and modify an entry that is there; adding a second entry under a key and modifying a
missing one are errors (`none`).
-/

universe u v

structure ExactTable (κ : Type u) (ν : Type v) where
  entry : κ → Option ν

namespace ExactTable

variable {κ : Type u} {ν : Type v}

/-- No entries. -/
def empty : ExactTable κ ν := ⟨fun _ => none⟩

@[simp] theorem entry_empty (k : κ) : (empty : ExactTable κ ν).entry k = none := rfl

variable [DecidableEq κ] {t t' : ExactTable κ ν} {k k' : κ} {v : ν} {f : ν → ν}

/-- The entry for `k` becomes `v`. -/
def set (t : ExactTable κ ν) (k : κ) (v : ν) : ExactTable κ ν :=
  ⟨fun k' => if k' = k then some v else t.entry k'⟩

def add (t : ExactTable κ ν) (k : κ) (v : ν) : Option (ExactTable κ ν) :=
  match t.entry k with
  | none => some (t.set k v)
  | some _ => none

def modify (t : ExactTable κ ν) (k : κ) (f : ν → ν) : Option (ExactTable κ ν) :=
  (t.entry k).map fun v => t.set k (f v)

theorem entry_set : (t.set k v).entry k' = if k' = k then some v else t.entry k' := rfl

@[simp] theorem entry_set_self : (t.set k v).entry k = some v := by simp [entry_set]

theorem entry_set_ne (h : k' ≠ k) : (t.set k v).entry k' = t.entry k' := by
  rw [entry_set, if_neg h]

theorem add_of_none (h : t.entry k = none) : t.add k v = some (t.set k v) := by
  simp [add, h]

theorem add_of_some {v' : ν} (h : t.entry k = some v') : t.add k v = none := by
  simp [add, h]

theorem add_eq_some : t.add k v = some t' ↔ t.entry k = none ∧ t' = t.set k v := by
  unfold add
  cases t.entry k with
  | none => simp [eq_comm]
  | some _ => simp

theorem modify_of_some (h : t.entry k = some v) : t.modify k f = some (t.set k (f v)) := by
  simp [modify, h]

end ExactTable
