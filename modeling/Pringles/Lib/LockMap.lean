import Mathlib.Logic.Function.Basic

/-!
# Maps with locked entries

A concurrent map whose lookups and insertions hand the calling thread a lock on the entry. An
operation on an entry that another thread holds is not possible until that thread releases it
(`none`). Inserting a key that is there does not change the map; it locks the entry and says so.
-/

universe u v w

structure LockMap (κ : Type u) (ν : Type v) (τ : Type w) where
  value : κ → Option ν := fun _ => none
  holder : κ → Option τ := fun _ => none

namespace LockMap

variable {κ : Type u} {ν : Type v} {τ : Type w}

/-- Only entries that are there are held. -/
def Present (m : LockMap κ ν τ) : Prop := ∀ k, m.value k = none → m.holder k = none

theorem present_init : ({} : LockMap κ ν τ).Present := fun _ _ => rfl

variable [DecidableEq κ] {m m' : LockMap κ ν τ} {t : τ} {k k' : κ} {v : ν} {b : Bool}

/-! ## Operations -/

def lock (m : LockMap κ ν τ) (t : τ) (k : κ) : LockMap κ ν τ :=
  { m with holder := Function.update m.holder k (some t) }

def release (m : LockMap κ ν τ) (k : κ) : LockMap κ ν τ :=
  { m with holder := Function.update m.holder k none }

def write (m : LockMap κ ν τ) (k : κ) (v : ν) : LockMap κ ν τ :=
  { m with value := Function.update m.value k (some v) }

/-- Whether the key is there, with the lock on its entry if it is. -/
def find (m : LockMap κ ν τ) (t : τ) (k : κ) : Option (Bool × LockMap κ ν τ) :=
  match m.value k with
  | none => some (false, m)
  | some _ =>
    match m.holder k with
    | none => some (true, m.lock t k)
    | some _ => none

/-- What a reader finds for the key. It waits until the entry is free, and does not keep it. -/
def read (m : LockMap κ ν τ) (k : κ) : Option (Option ν) :=
  match m.holder k with
  | none => some (m.value k)
  | some _ => none

/-- Whether the key is new, with the lock on its entry in either case. -/
def insert (m : LockMap κ ν τ) (t : τ) (k : κ) (v : ν) : Option (Bool × LockMap κ ν τ) :=
  match m.value k with
  | none => some (true, (m.write k v).lock t k)
  | some _ =>
    match m.holder k with
    | none => some (false, m.lock t k)
    | some _ => none

@[simp] theorem value_lock (m : LockMap κ ν τ) (t : τ) (k : κ) :
    (m.lock t k).value = m.value := rfl

@[simp] theorem holder_write (m : LockMap κ ν τ) (k : κ) (v : ν) :
    (m.write k v).holder = m.holder := rfl

theorem value_write : (m.write k v).value k' = if k' = k then some v else m.value k' := by
  simp [write, Function.update_apply]

theorem holder_lock : (m.lock t k).holder k' = if k' = k then some t else m.holder k' := by
  simp [lock, Function.update_apply]

theorem holder_release : (m.release k).holder k' = if k' = k then none else m.holder k' := by
  simp [release, Function.update_apply]

theorem find_eq_some : m.find t k = some (b, m') ↔ m.value k = none ∧ b = false ∧ m' = m ∨
    m.value k ≠ none ∧ m.holder k = none ∧ b = true ∧ m' = m.lock t k := by
  unfold find
  cases m.value k with
  | none => simp [eq_comm]
  | some _ =>
    cases m.holder k with
    | none => simp [eq_comm]
    | some _ => simp

omit [DecidableEq κ] in
theorem read_eq_some {o : Option ν} : m.read k = some o ↔ m.holder k = none ∧ m.value k = o := by
  unfold read
  cases m.holder k with
  | none => simp
  | some _ => simp

theorem insert_eq_some : m.insert t k v = some (b, m') ↔
    m.value k = none ∧ b = true ∧ m' = (m.write k v).lock t k ∨
    m.value k ≠ none ∧ m.holder k = none ∧ b = false ∧ m' = m.lock t k := by
  unfold insert
  cases m.value k with
  | none => simp [eq_comm]
  | some _ =>
    cases m.holder k with
    | none => simp [eq_comm]
    | some _ => simp

/-! ## Held entries stay present -/

theorem Present.lock (h : m.Present) (hk : m.value k ≠ none) : (m.lock t k).Present := by
  intro k' hk'
  rw [holder_lock, if_neg]
  · exact h k' hk'
  · rintro rfl
    exact hk hk'

theorem Present.write (h : m.Present) : (m.write k v).Present := by
  intro k' hk'
  rw [value_write] at hk'
  split at hk'
  · cases hk'
  · exact h k' hk'

theorem Present.release (h : m.Present) : (m.release k).Present := by
  intro k' hk'
  rw [holder_release]
  split
  · rfl
  · exact h k' hk'

end LockMap
