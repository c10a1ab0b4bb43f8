import Mathlib.Data.List.Induction
import Mathlib.Data.List.Nodup

/-!
# The order of first occurrences

A sequence of keyed items, and the keys in the order in which they first occur. Adding an item either
changes nothing in this order, or puts a new key at its end; so a key keeps its place, and tables
that give out numbers in the order of first use can be described by `List.idxOf`.
-/

universe u v w

namespace FirstOrder

variable {κ : Type u} {ν : Type v} [DecidableEq κ] {items : List (κ × ν)} {k k' : κ} {v v' : ν}

/-- A key that is new goes to the end. -/
def addKey (order : List κ) (k : κ) : List κ := if k ∈ order then order else order ++ [k]

/-- The keys in the order of their first occurrence. -/
def keys (items : List (κ × ν)) : List κ := items.foldl (fun order item => addKey order item.1) []

/-- The values of a key. -/
def values (items : List (κ × ν)) (k : κ) : List ν :=
  (items.filter fun item => item.1 = k).map Prod.snd

theorem keys_snoc (items : List (κ × ν)) (k : κ) (v : ν) :
    keys (items ++ [(k, v)]) = if k ∈ keys items then keys items else keys items ++ [k] := by
  unfold keys
  rw [List.foldl_append]
  rfl

theorem mem_keys_snoc : k' ∈ keys (items ++ [(k, v)]) ↔ k' ∈ keys items ∨ k' = k := by
  rw [keys_snoc]
  split
  · rename_i h
    refine ⟨.inl, ?_⟩
    rintro (hk | rfl)
    · exact hk
    · exact h
  · rw [List.mem_append, List.mem_singleton]

theorem values_snoc (items : List (κ × ν)) (k' : κ) (v : ν) (k : κ) :
    values (items ++ [(k', v)]) k =
      if k' = k then values items k ++ [v] else values items k := by
  unfold values
  by_cases h : k' = k
  · simp [h]
  · simp [h]

theorem mem_values : v ∈ values items k ↔ (k, v) ∈ items := by
  simp [values]

theorem mem_keys : k ∈ keys items ↔ ∃ v, (k, v) ∈ items := by
  induction items using List.reverseRecOn with
  | nil => simp [keys]
  | append_singleton items item ih =>
    obtain ⟨k', v'⟩ := item
    rw [keys_snoc]
    by_cases hk : k' ∈ keys items
    · rw [if_pos hk, ih]
      constructor
      · rintro ⟨v, hv⟩
        exact ⟨v, List.mem_append_left _ hv⟩
      · rintro ⟨v, hv⟩
        rcases List.mem_append.1 hv with hv | hv
        · exact ⟨v, hv⟩
        · simp only [List.mem_singleton, Prod.mk.injEq] at hv
          exact ih.1 (hv.1 ▸ hk)
    · rw [if_neg hk, List.mem_append, ih]
      constructor
      · rintro (⟨v, hv⟩ | hk)
        · exact ⟨v, List.mem_append_left _ hv⟩
        · exact ⟨v', List.mem_append_right _ (by rw [List.mem_singleton.1 hk]; simp)⟩
      · rintro ⟨v, hv⟩
        rcases List.mem_append.1 hv with hv | hv
        · exact .inl ⟨v, hv⟩
        · simp only [List.mem_singleton, Prod.mk.injEq] at hv
          exact .inr (by rw [hv.1]; exact List.mem_singleton_self _)

theorem values_eq_nil (h : k ∉ keys items) : values items k = [] := by
  rw [List.eq_nil_iff_forall_not_mem]
  intro v hv
  exact h (mem_keys.2 ⟨v, mem_values.1 hv⟩)

theorem nodup_keys (items : List (κ × ν)) : (keys items).Nodup := by
  induction items using List.reverseRecOn with
  | nil => exact List.nodup_nil
  | append_singleton items item ih =>
    rw [keys_snoc]
    split
    · exact ih
    · rename_i h
      rw [List.nodup_append]
      refine ⟨ih, List.nodup_singleton _, ?_⟩
      intro k hk k' hk'
      rw [List.mem_singleton.1 hk']
      rintro rfl
      exact h hk

theorem length_keys_le (items : List (κ × ν)) : (keys items).length ≤ items.length := by
  induction items using List.reverseRecOn with
  | nil => exact Nat.le_refl 0
  | append_singleton items item ih =>
    rw [keys_snoc, List.length_append, List.length_singleton]
    split
    · exact Nat.le_succ_of_le ih
    · rw [List.length_append, List.length_singleton]
      exact Nat.succ_le_succ ih

/-- A key keeps its place. -/
theorem idxOf_keys_snoc (h : k ∈ keys items) :
    (keys (items ++ [(k', v)])).idxOf k = (keys items).idxOf k := by
  rw [keys_snoc]
  split
  · rfl
  · exact List.idxOf_append_of_mem h

/-- A new key is the last one. -/
theorem idxOf_keys_self (h : k ∉ keys items) :
    (keys (items ++ [(k, v)])).idxOf k = (keys items).length := by
  rw [keys_snoc, if_neg h, List.idxOf_append_of_notMem h]
  simp

/-! ## Tables in this order -/

variable {α : Type w} {f g : κ → α}

theorem getElem?_map_keys (h : k ∈ keys items) :
    ((keys items).map f)[(keys items).idxOf k]? = some (f k) := by
  rw [List.getElem?_map, List.getElem?_idxOf h]
  rfl

/-- Replacing the entry of one key. -/
theorem set_map_keys (h : k ∈ keys items) (hfg : ∀ k' ≠ k, g k' = f k') :
    ((keys items).map f).set ((keys items).idxOf k) (g k) = (keys items).map g := by
  have hlt : (keys items).idxOf k < (keys items).length := List.idxOf_lt_length_iff.2 h
  refine List.ext_getElem (by simp) fun i hi hi' => ?_
  rw [List.getElem_set, List.getElem_map, List.getElem_map]
  split
  · rename_i heq
    subst heq
    rw [List.getElem_idxOf]
  · rename_i hne
    refine (hfg _ ?_).symm
    intro hkey
    have hik : i < (keys items).length := by simpa using hi'
    have heq : (keys items)[(keys items).idxOf k] = (keys items)[i] := by
      rw [List.getElem_idxOf, hkey]
    exact hne ((nodup_keys items).getElem_inj_iff.1 heq)

end FirstOrder
