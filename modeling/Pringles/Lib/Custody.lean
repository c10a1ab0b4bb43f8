import Mathlib.Data.List.Nodup
import Mathlib.Logic.Function.Basic

/-!
# Custody

Items enter at a place, stay at that place, and leave at most once. A place holds a list of items;
`gone` lists the items that have left, in the order in which they left.
-/

universe u v

/-- No item is at two places, twice at one place, gone twice, or both gone and at a place. -/
structure Custody {ι : Type u} {α : Type v} (live : ι → List α) (gone : List α) : Prop where
  nodup : ∀ i, (live i).Nodup
  one_place : ∀ i j a, a ∈ live i → a ∈ live j → i = j
  gone_nodup : gone.Nodup
  gone_not_live : ∀ a ∈ gone, ∀ i, a ∉ live i

namespace Custody

variable {ι : Type u} {α : Type v} {live : ι → List α} {gone : List α} {i j : ι} {a b : α}
  {l : List α}

theorem empty : Custody (fun _ : ι => ([] : List α)) [] where
  nodup _ := .nil
  one_place _ _ _ h := by simp at h
  gone_nodup := .nil
  gone_not_live _ h := by simp at h

variable [DecidableEq ι]

theorem mem_update_of_subset (hsub : l ⊆ live i) (h : b ∈ Function.update live i l j) :
    b ∈ live j := by
  by_cases hj : j = i
  · subst hj
    rw [Function.update_self] at h
    exact hsub h
  · rwa [Function.update_of_ne hj] at h

/-- A place may drop items and reorder the others. -/
theorem replace (h : Custody live gone) (hl : l.Nodup) (hsub : l ⊆ live i) :
    Custody (Function.update live i l) gone where
  nodup j := by
    by_cases hj : j = i
    · subst hj
      rwa [Function.update_self]
    · rw [Function.update_of_ne hj]
      exact h.nodup j
  one_place j k b hb hb' :=
    h.one_place j k b (mem_update_of_subset hsub hb) (mem_update_of_subset hsub hb')
  gone_nodup := h.gone_nodup
  gone_not_live b hb j hj := h.gone_not_live b hb j (mem_update_of_subset hsub hj)

/-- A new item enters. -/
theorem enter (h : Custody live gone) (hnew : ∀ j, a ∉ live j) (hgone : a ∉ gone) :
    Custody (Function.update live i (live i ++ [a])) gone := by
  have hmem : ∀ j b, b ∈ Function.update live i (live i ++ [a]) j → b ∈ live j ∨ j = i ∧ b = a := by
    intro j b hb
    by_cases hj : j = i
    · subst hj
      simpa using hb
    · exact .inl (by rwa [Function.update_of_ne hj] at hb)
  refine ⟨?_, ?_, h.gone_nodup, ?_⟩
  · intro j
    by_cases hj : j = i
    · subst hj
      rw [Function.update_self, List.nodup_append]
      refine ⟨h.nodup j, List.nodup_singleton a, ?_⟩
      intro b hb c hc hbc
      rw [List.mem_singleton.1 hc] at hbc
      exact hnew j (hbc ▸ hb)
    · rw [Function.update_of_ne hj]
      exact h.nodup j
  · intro j k b hb hb'
    obtain hb | ⟨hj, hba⟩ := hmem j b hb <;> obtain hb' | ⟨hk, hba'⟩ := hmem k b hb'
    · exact h.one_place j k b hb hb'
    · exact absurd (hba' ▸ hb) (hnew j)
    · exact absurd (hba ▸ hb') (hnew k)
    · rw [hj, hk]
  · intro b hb j hj
    rcases hmem j b hj with hj | ⟨-, rfl⟩
    · exact h.gone_not_live b hb j hj
    · exact hgone hb

/-- An item leaves. -/
theorem leave (h : Custody live gone) (hp : (a :: l).Perm (live i)) :
    Custody (Function.update live i l) (gone ++ [a]) := by
  have hnodup : (a :: l).Nodup := hp.nodup_iff.2 (h.nodup i)
  obtain ⟨hal, hl⟩ := List.nodup_cons.1 hnodup
  have hsub : l ⊆ live i := fun b hb => hp.subset (List.mem_cons_of_mem a hb)
  have ha : a ∈ live i := hp.subset (List.mem_cons_self ..)
  have h' := h.replace hl hsub
  refine ⟨h'.nodup, h'.one_place, ?_, ?_⟩
  · rw [List.nodup_append]
    refine ⟨h.gone_nodup, List.nodup_singleton a, ?_⟩
    intro b hb c hc hbc
    rw [List.mem_singleton.1 hc] at hbc
    exact h.gone_not_live b hb i (hbc ▸ ha)
  · intro b hb j hj
    rcases List.mem_append.1 hb with hb | hb
    · exact h'.gone_not_live b hb j hj
    · obtain rfl := List.mem_singleton.1 hb
      -- the place it left does not hold it any more, and no other place ever did
      obtain rfl := h.one_place j i b (mem_update_of_subset hsub hj) ha
      rw [Function.update_self] at hj
      exact hal hj

/-! ## Many items at once -/

section
variable {as : List α}

/-- New items enter. -/
theorem enterAll (h : Custody live gone) (hnodup : as.Nodup) (hnew : ∀ a ∈ as, ∀ j, a ∉ live j)
    (hgone : ∀ a ∈ as, a ∉ gone) : Custody (Function.update live i (live i ++ as)) gone := by
  induction as generalizing live with
  | nil =>
    rw [List.append_nil, Function.update_eq_self]
    exact h
  | cons a as ih =>
    obtain ⟨ha, hnodup⟩ := List.nodup_cons.1 hnodup
    have henter := h.enter (i := i) (hnew a List.mem_cons_self) (hgone a List.mem_cons_self)
    have hrest := ih henter hnodup ?_ fun b hb => hgone b (List.mem_cons_of_mem _ hb)
    · rwa [Function.update_self, Function.update_idem, List.append_assoc] at hrest
    · intro b hb j hj
      by_cases hji : j = i
      · subst hji
        rw [Function.update_self, List.mem_append, List.mem_singleton] at hj
        rcases hj with hj | rfl
        · exact hnew b (List.mem_cons_of_mem _ hb) j hj
        · exact ha hb
      · rw [Function.update_of_ne hji] at hj
        exact hnew b (List.mem_cons_of_mem _ hb) j hj

/-- Items leave. -/
theorem leaveAll (h : Custody live gone) (hp : (as ++ l).Perm (live i)) :
    Custody (Function.update live i l) (gone ++ as) := by
  induction as generalizing live gone with
  | nil =>
    rw [List.append_nil]
    exact h.replace (hp.nodup_iff.2 (h.nodup i)) hp.subset
  | cons a as ih =>
    have hrest := ih (h.leave (l := as ++ l) hp) (by rw [Function.update_self])
    rwa [Function.update_idem, List.append_assoc] at hrest

/-- Items go from one place to another. -/
theorem move (h : Custody live gone) (hij : j ≠ i) (hp : (as ++ l).Perm (live i)) :
    Custody (Function.update (Function.update live i l) j (live j ++ as)) gone := by
  have hnodup : (as ++ l).Nodup := hp.nodup_iff.2 (h.nodup i)
  have hfrom : ∀ a ∈ as, a ∈ live i := fun a ha => hp.subset (List.mem_append_left l ha)
  have hmem : ∀ k b, b ∈ Function.update (Function.update live i l) j (live j ++ as) k →
      k = j ∧ b ∈ as ∨ b ∈ live k ∧ (k = i → b ∈ l) := by
    intro k b hb
    by_cases hkj : k = j
    · subst hkj
      rw [Function.update_self, List.mem_append] at hb
      rcases hb with hb | hb
      · exact .inr ⟨hb, fun hki => absurd hki hij⟩
      · exact .inl ⟨rfl, hb⟩
    · rw [Function.update_of_ne hkj] at hb
      by_cases hki : k = i
      · subst hki
        rw [Function.update_self] at hb
        exact .inr ⟨hp.subset (List.mem_append_right as hb), fun _ => hb⟩
      · rw [Function.update_of_ne hki] at hb
        exact .inr ⟨hb, fun h => absurd h hki⟩
  -- what has moved is nowhere else
  have helse : ∀ k b, b ∈ as → b ∈ live k → (k = i → b ∈ l) → False := by
    intro k b hb hk hl
    obtain rfl := h.one_place k i b hk (hfrom b hb)
    exact (List.nodup_append.1 hnodup).2.2 b hb b (hl rfl) rfl
  refine ⟨?_, ?_, h.gone_nodup, ?_⟩
  · intro k
    by_cases hkj : k = j
    · subst hkj
      rw [Function.update_self, List.nodup_append]
      refine ⟨h.nodup k, (List.nodup_append.1 hnodup).1, ?_⟩
      rintro b hb c hc rfl
      exact hij (h.one_place k i b hb (hfrom b hc))
    · rw [Function.update_of_ne hkj]
      exact (h.replace (List.nodup_append.1 hnodup).2.1
        fun b hb => hp.subset (List.mem_append_right as hb)).nodup k
  · intro k k' b hk hk'
    rcases hmem k b hk with ⟨rfl, hb⟩ | ⟨hold, hl⟩
    · rcases hmem k' b hk' with ⟨rfl, -⟩ | ⟨hold', hl'⟩
      · rfl
      · exact (helse k' b hb hold' hl').elim
    · rcases hmem k' b hk' with ⟨rfl, hb⟩ | ⟨hold', -⟩
      · exact (helse k b hb hold hl).elim
      · exact h.one_place k k' b hold hold'
  · intro b hb k hk
    rcases hmem k b hk with ⟨-, has⟩ | ⟨hk, -⟩
    · exact h.gone_not_live b hb i (hfrom b has)
    · exact h.gone_not_live b hb k hk

end

end Custody
