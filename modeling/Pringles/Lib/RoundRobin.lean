import Mathlib.Data.Int.CardIntervalMod
import Pringles.Lib.FirstOrder

/-!
# Dealing in turn

The keys of a sequence of keyed items are given the places `0, …, size - 1` in turn, each key at its
first use. A key keeps its place, and no place gets two keys more than another one.
-/

universe u v

namespace RoundRobin

open FirstOrder

variable {κ : Type u} {ν : Type v} [DecidableEq κ] {items : List (κ × ν)} {k k' : κ} {v : ν}
  {size i x y : Nat}

/-- The place that a key has been given. -/
def place (size : Nat) (items : List (κ × ν)) (k : κ) : Nat := (keys items).idxOf k % size

theorem place_lt (hsize : 0 < size) : place size items k < size := Nat.mod_lt _ hsize

theorem place_snoc (h : k ∈ keys items) :
    place size (items ++ [(k', v)]) k = place size items k := by
  rw [place, idxOf_keys_snoc h, place]

theorem place_self (h : k ∉ keys items) :
    place size (items ++ [(k, v)]) k = (keys items).length % size := by
  rw [place, idxOf_keys_self h]

/-! ## Balance -/

/-- Counting the members of a list by their indices. -/
theorem countP_idxOf {order : List κ} (h : order.Nodup) (p : Nat → Prop) [DecidablePred p] :
    order.countP (fun k => p (order.idxOf k)) = Nat.count p order.length := by
  induction order using List.reverseRecOn with
  | nil => rfl
  | append_singleton order k ih =>
    obtain ⟨hnodup, -, hk⟩ := List.nodup_append.1 h
    have hnew : k ∉ order := fun hmem => hk k hmem k (List.mem_singleton_self k) rfl
    have hold : order.countP (fun k' => p ((order ++ [k]).idxOf k')) =
        order.countP (fun k' => p (order.idxOf k')) := by
      refine List.countP_congr fun k' hk' => ?_
      rw [List.idxOf_append_of_mem hk']
    have hlast : (order ++ [k]).idxOf k = order.length := by
      rw [List.idxOf_append_of_notMem hnew]
      simp
    rw [List.countP_append, hold, ih hnodup, List.length_append, List.length_singleton,
      Nat.count_succ, List.countP_singleton, hlast]
    simp only [decide_eq_true_eq]

theorem countP_place (hx : x < size) :
    (keys items).countP (fun k => place size items k = x) =
      (keys items).length / size + if x < (keys items).length % size then 1 else 0 := by
  have hmod : ∀ i, i % size = x ↔ i ≡ x [MOD size] := by
    intro i
    rw [Nat.ModEq, Nat.mod_eq_of_lt hx]
  have hcount := Nat.count_modEq_card (keys items).length (Nat.zero_lt_of_lt hx) x
  rw [Nat.mod_eq_of_lt hx] at hcount
  simp only [place, hmod]
  rw [countP_idxOf (nodup_keys items) (· ≡ x [MOD size]), hcount]

/-- **Balance.** -/
theorem countP_place_le (hx : x < size) (hy : y < size) :
    (keys items).countP (fun k => place size items k = x) ≤
      (keys items).countP (fun k => place size items k = y) + 1 := by
  rw [countP_place hx, countP_place hy]
  split <;> omega

/-! ## Keys that come around -/

section Cycle

variable {f : Nat → κ}

theorem keys_cycle (hsize : 0 < size) (hf : Set.InjOn f (Set.Iio (min items.length size)))
    (hitems : ∀ i k v, items[i]? = some (k, v) → k = f (i % size)) :
    keys items = (List.range (min items.length size)).map f := by
  induction items using List.reverseRecOn with
  | nil =>
    rw [List.length_nil, Nat.zero_min]
    rfl
  | append_singleton items item ih =>
    obtain ⟨k, v⟩ := item
    have hk : k = f (items.length % size) := hitems _ k v List.getElem?_concat_length
    rw [List.length_append, List.length_singleton] at hf ⊢
    have hsub : Set.Iio (min items.length size) ⊆ Set.Iio (min (items.length + 1) size) :=
      Set.Iio_subset_Iio (min_le_min_right _ (Nat.le_succ _))
    have hkeys := ih (hf.mono hsub) fun i k v hi => hitems i k v <| by
      rw [List.getElem?_append_left (List.getElem?_eq_some_iff.1 hi).1, hi]
    rw [keys_snoc, hkeys]
    rcases Nat.lt_or_ge items.length size with hlt | hge
    · -- the first time around, the key is a new one
      rw [Nat.mod_eq_of_lt hlt] at hk
      rw [min_eq_left hlt.le, min_eq_left (by omega : items.length + 1 ≤ size), if_neg,
        List.range_succ, List.map_append, hk]
      · rfl
      · rintro hmem
        obtain ⟨i, hi, heq⟩ := List.mem_map.1 hmem
        have hi' : i < items.length := List.mem_range.1 hi
        have hsame := hf (by simp only [Set.mem_Iio]; omega) (by simp only [Set.mem_Iio]; omega)
          (heq.trans hk)
        exact Nat.ne_of_lt hi' hsame
    · rw [min_eq_right hge, min_eq_right (by omega : size ≤ items.length + 1), if_pos]
      rw [hk]
      exact List.mem_map_of_mem (List.mem_range.2 (Nat.mod_lt _ hsize))

theorem place_cycle (hsize : 0 < size) (hf : Set.InjOn f (Set.Iio (min items.length size)))
    (hitems : ∀ i k v, items[i]? = some (k, v) → k = f (i % size)) (hi : i < items.length) :
    place size items (f (i % size)) = i % size := by
  have hlt : i % size < min items.length size :=
    lt_min (Nat.lt_of_le_of_lt (Nat.mod_le ..) hi) (Nat.mod_lt _ hsize)
  have hkeys := keys_cycle hsize hf hitems
  have hget : (keys items)[i % size]? = some (f (i % size)) := by
    rw [hkeys, List.getElem?_map, List.getElem?_range hlt]
    rfl
  obtain ⟨hlen, hget⟩ := List.getElem?_eq_some_iff.1 hget
  rw [place, ← hget, (nodup_keys items).idxOf_getElem, Nat.mod_mod]

end Cycle

end RoundRobin
