import Mathlib.Data.Fin.Basic

/-!
# Register arrays with read-modify-write actions

A stateful array of a match-action pipeline: `size` cells of `w` bits, each access runs one action
on one cell, which replaces the cell and yields an output. A cell is addressed by a number; an
address outside the array has no cell, so the access has no result.
-/

/-- `size` cells of `w` bits. -/
structure RegArray (size w : Nat) where
  cells : Fin size → BitVec w

namespace RegArray

variable {size w : Nat} {α : Type} {r r' : RegArray size w} {i j : Nat} {v : BitVec w}

/-- Every cell holds `v`. -/
def init (size : Nat) (v : BitVec w) : RegArray size w := ⟨fun _ => v⟩

/-- The content of cell `i`, zero outside the array. -/
def get (r : RegArray size w) (i : Nat) : BitVec w :=
  if h : i < size then r.cells ⟨i, h⟩ else 0

def set (r : RegArray size w) (i : Nat) (v : BitVec w) : RegArray size w :=
  ⟨fun j => if j.val = i then v else r.cells j⟩

/-- One access: `act` maps the old content to the new content and the output. -/
def execute (r : RegArray size w) (i : Nat) (act : BitVec w → BitVec w × α) :
    Option (RegArray size w × α) :=
  if i < size then some (r.set i (act (r.get i)).1, (act (r.get i)).2) else none

@[simp] theorem get_init : (init size 0#w).get i = 0 := by
  unfold get init; split <;> rfl

theorem get_set (hi : i < size) : (r.set i v).get j = if j = i then v else r.get j := by
  unfold get set
  by_cases hj : j < size
  · simp [hj]
  · have hne : j ≠ i := by omega
    simp [hj, hne]

@[simp] theorem get_set_self (hi : i < size) : (r.set i v).get i = v := by
  simp [get_set hi]

theorem get_set_ne (h : j ≠ i) : (r.set i v).get j = r.get j := by
  unfold get set; simp [h]

/-- Writing back what a cell holds changes nothing. -/
@[simp] theorem set_get : r.set i (r.get i) = r := by
  cases r with | mk cells =>
  unfold set get
  congr 1
  funext j
  by_cases hj : j.val = i
  · subst hj; simp
  · simp [hj]

theorem execute_of_lt (act : BitVec w → BitVec w × α) (hi : i < size) :
    r.execute i act = some (r.set i (act (r.get i)).1, (act (r.get i)).2) := by
  simp [execute, hi]

/-- An access has a result only on a cell of the array. -/
theorem execute_eq_some {act : BitVec w → BitVec w × α} {a : α} :
    r.execute i act = some (r', a) ↔
      i < size ∧ r' = r.set i (act (r.get i)).1 ∧ a = (act (r.get i)).2 := by
  unfold execute
  split <;> simp_all [eq_comm]

theorem execute_eq_none {act : BitVec w → BitVec w × α} :
    r.execute i act = none ↔ size ≤ i := by
  unfold execute
  split <;> simp_all

/-- A computation that begins with an access fails exactly when the access does. -/
theorem execute_bind_eq_none {β : Type*} {act : BitVec w → BitVec w × α}
    {f : RegArray size w × α → Option β} (hf : ∀ x, f x ≠ none) :
    (r.execute i act).bind f = none ↔ size ≤ i := by
  unfold execute
  split
  · simp only [Option.bind_some, hf, false_iff]; omega
  · simp only [Option.bind_none, true_iff]; omega

end RegArray
