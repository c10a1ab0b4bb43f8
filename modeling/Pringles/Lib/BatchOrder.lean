import Mathlib.Data.List.Perm.Subperm
import Mathlib.Order.Nat
import Mathlib.Logic.Function.Basic

/-!
# A total order issued in batches

Every lane collects tickets in the order in which they are drawn. Closing a lane appends its whole
batch to one global list, and the position of a ticket in that list is its number. Nothing is said
about when a lane is closed, or how often.

If every ticket is drawn above all tickets drawn before it (tickets are stamped with their time of
arrival, say), the numbers are unique (`Wf.position_unique`), a lane numbers its tickets in the
order in which it drew them (`Wf.position_lt_of_lane`), a ticket issued before another was drawn has
the smaller number (`position_lt_of_prefix`), and no more numbers are issued than tickets were
drawn (`Wf.length_issued_le`).
-/

universe u v

/-- The tickets issued so far, with their lanes, and the open batch of every lane. -/
@[ext]
structure BatchOrder (ι : Type u) (α : Type v) where
  issued : List (ι × α)
  pending : ι → List α

namespace BatchOrder

variable {ι : Type u} {α : Type v} {o : BatchOrder ι α} {i j : ι} {a b : α}

/-- Lane `i` draws ticket `a`. -/
def draw [DecidableEq ι] (o : BatchOrder ι α) (i : ι) (a : α) : BatchOrder ι α :=
  { o with pending := Function.update o.pending i (o.pending i ++ [a]) }

/-- Lane `i` issues its open batch. -/
def close [DecidableEq ι] (o : BatchOrder ι α) (i : ι) : BatchOrder ι α where
  issued := o.issued ++ (o.pending i).map (i, ·)
  pending := Function.update o.pending i []

/-- Lane `i` has drawn `a`. -/
def Drawn (o : BatchOrder ι α) (i : ι) (a : α) : Prop := (i, a) ∈ o.issued ∨ a ∈ o.pending i

/-- No ticket has been drawn. -/
def empty : BatchOrder ι α := ⟨[], fun _ => []⟩

@[simp] theorem not_drawn_empty : ¬ (empty : BatchOrder ι α).Drawn i a := by
  simp [empty, Drawn]

section
variable [DecidableEq ι]

@[simp] theorem issued_draw : (o.draw i a).issued = o.issued := rfl

@[simp] theorem pending_draw_self : (o.draw i a).pending i = o.pending i ++ [a] := by
  simp [draw]

theorem pending_draw_ne (h : j ≠ i) : (o.draw i a).pending j = o.pending j := by
  simp [draw, h]

@[simp] theorem issued_close : (o.close i).issued = o.issued ++ (o.pending i).map (i, ·) := rfl

@[simp] theorem pending_close_self : (o.close i).pending i = [] := by
  simp [close]

theorem pending_close_ne (h : j ≠ i) : (o.close i).pending j = o.pending j := by
  simp [close, h]

/-- There is nothing to issue. -/
theorem close_of_nil (h : o.pending i = []) : o.close i = o := by
  ext1
  · simp [h]
  · exact Function.update_eq_self_iff.2 h.symm

theorem drawn_draw : (o.draw i a).Drawn j b ↔ o.Drawn j b ∨ j = i ∧ b = a := by
  unfold Drawn
  by_cases h : j = i
  · subst h
    simp [or_assoc]
  · simp [pending_draw_ne h, h]

/-- Closing a batch draws nothing and forgets nothing. -/
@[simp] theorem drawn_close : (o.close i).Drawn j b ↔ o.Drawn j b := by
  unfold Drawn
  by_cases h : j = i
  · subst h
    simp
  · simp [pending_close_ne h, Ne.symm h]

end

/-! ## The invariant -/

/-- Within a lane tickets appear in increasing order, first the issued ones and then the pending
ones, and no ticket is in two lanes. -/
structure Wf [Preorder α] (o : BatchOrder ι α) : Prop where
  issued_lt : o.issued.Pairwise fun x y => x.1 = y.1 → x.2 < y.2
  pending_lt : ∀ i, (o.pending i).Pairwise (· < ·)
  issued_lt_pending : ∀ i a b, (i, a) ∈ o.issued → b ∈ o.pending i → a < b
  one_lane : ∀ i j a, o.Drawn i a → o.Drawn j a → i = j

section
variable [Preorder α]

theorem wf_empty : (empty : BatchOrder ι α).Wf where
  issued_lt := .nil
  pending_lt _ := .nil
  issued_lt_pending := by simp [empty]
  one_lane i j a h := absurd h not_drawn_empty

/-- A ticket above all drawn ones keeps the invariant. -/
theorem Wf.draw [DecidableEq ι] (h : o.Wf) (hnew : ∀ j b, o.Drawn j b → b < a) :
    (o.draw i a).Wf where
  issued_lt := h.issued_lt
  pending_lt j := by
    by_cases hj : j = i
    · subst hj
      rw [pending_draw_self, List.pairwise_append]
      refine ⟨h.pending_lt j, by simp, fun x hx y hy => ?_⟩
      rw [List.mem_singleton.1 hy]
      exact hnew j x (.inr hx)
    · rw [pending_draw_ne hj]
      exact h.pending_lt j
  issued_lt_pending j x y hx hy := by
    by_cases hj : j = i
    · subst hj
      rw [pending_draw_self, List.mem_append, List.mem_singleton] at hy
      rcases hy with hy | rfl
      · exact h.issued_lt_pending j x y hx hy
      · exact hnew j x (.inl hx)
    · rw [pending_draw_ne hj] at hy
      exact h.issued_lt_pending j x y hx hy
  one_lane j k x hj hk := by
    rw [drawn_draw] at hj hk
    obtain hj | ⟨rfl, rfl⟩ := hj <;> obtain hk | ⟨rfl, hx⟩ := hk
    · exact h.one_lane j k x hj hk
    · exact absurd (hnew j x hj) (hx ▸ lt_irrefl _)
    · exact absurd (hnew k x hk) (lt_irrefl _)
    · rfl

/-- Closing a batch keeps the invariant. -/
theorem Wf.close [DecidableEq ι] (h : o.Wf) : (o.close i).Wf where
  issued_lt := by
    rw [issued_close, List.pairwise_append, List.pairwise_map]
    have hbatch : (o.pending i).Pairwise fun a b => (i, a).1 = (i, b).1 → (i, a).2 < (i, b).2 :=
      List.Pairwise.imp (by intro a b hlt _; exact hlt) (h.pending_lt i)
    refine ⟨h.issued_lt, hbatch, ?_⟩
    intro x hx y hy hlane
    obtain ⟨b, hb, rfl⟩ := List.mem_map.1 hy
    obtain ⟨k, a⟩ := x
    obtain rfl : k = i := hlane
    exact h.issued_lt_pending k a b hx hb
  pending_lt j := by
    by_cases hj : j = i
    · subst hj; simp
    · rw [pending_close_ne hj]; exact h.pending_lt j
  issued_lt_pending j x y hx hy := by
    by_cases hj : j = i
    · subst hj; simp at hy
    · rw [pending_close_ne hj] at hy
      refine h.issued_lt_pending j x y ?_ hy
      simpa [Ne.symm hj] using hx
  one_lane j k x hj hk := h.one_lane j k x (drawn_close.1 hj) (drawn_close.1 hk)

/-! ## Numbers -/

/-- **A lane numbers its tickets in the order in which it drew them.** -/
theorem Wf.position_lt_of_lane (h : o.Wf) {m n : Nat} (hm : o.issued[m]? = some (i, a))
    (hn : o.issued[n]? = some (i, b)) (hab : a < b) : m < n := by
  obtain ⟨hm', hm⟩ := List.getElem?_eq_some_iff.1 hm
  obtain ⟨hn', hn⟩ := List.getElem?_eq_some_iff.1 hn
  have hpair := List.pairwise_iff_getElem.1 h.issued_lt
  rcases Nat.lt_trichotomy m n with hlt | rfl | hgt
  · exact hlt
  · rw [hm] at hn
    exact absurd hab ((Prod.mk.inj hn).2 ▸ lt_irrefl a)
  · have hba := hpair n m hn' hm' hgt (by rw [hm, hn])
    rw [hm, hn] at hba
    exact absurd (hab.trans hba) (lt_irrefl a)

/-- **Numbers are unique.** -/
theorem Wf.position_unique (h : o.Wf) {m n : Nat} (hm : o.issued[m]? = some (i, a))
    (hn : o.issued[n]? = some (j, a)) : m = n := by
  obtain rfl := h.one_lane i j a (.inl (List.mem_of_getElem? hm)) (.inl (List.mem_of_getElem? hn))
  obtain ⟨hm', hm⟩ := List.getElem?_eq_some_iff.1 hm
  obtain ⟨hn', hn⟩ := List.getElem?_eq_some_iff.1 hn
  have hpair := List.pairwise_iff_getElem.1 h.issued_lt
  rcases Nat.lt_trichotomy m n with hlt | rfl | hgt
  · have := hpair m n hm' hn' hlt (by rw [hm, hn])
    rw [hm, hn] at this
    exact absurd this (lt_irrefl a)
  · rfl
  · have := hpair n m hn' hm' hgt (by rw [hm, hn])
    rw [hm, hn] at this
    exact absurd this (lt_irrefl a)

theorem Wf.nodup_issued (h : o.Wf) : (o.issued.map Prod.snd).Nodup := by
  rw [List.Nodup, List.pairwise_map, List.pairwise_iff_getElem]
  intro m n hm hn hlt heq
  have hm' : o.issued[m]? = some (o.issued[m].1, o.issued[n].2) :=
    List.getElem?_eq_some_iff.2 ⟨hm, Prod.ext rfl heq⟩
  have hn' : o.issued[n]? = some (o.issued[n].1, o.issued[n].2) :=
    List.getElem?_eq_some_iff.2 ⟨hn, rfl⟩
  exact absurd (h.position_unique hm' hn') (Nat.ne_of_lt hlt)

end

/-- What an initial part of a list holds, the list holds at the same position. -/
theorem getElem?_of_prefix {β : Type*} {l l' : List β} (hpre : l <+: l') {m : Nat} {x : β}
    (hx : l[m]? = some x) : l'[m]? = some x := by
  obtain ⟨hm, rfl⟩ := List.getElem?_eq_some_iff.1 hx
  exact List.prefix_iff_getElem?.1 hpre m hm

/-- **What is issued early has a small number**: a ticket of an initial part of the list precedes
every ticket that this part misses. -/
theorem position_lt_of_prefix {l l' : List (ι × α)} (hpre : l <+: l') {m n : Nat} {x y : ι × α}
    (hx : l[m]? = some x) (hy : l'[n]? = some y) (hmiss : y ∉ l) : m < n := by
  obtain ⟨r, rfl⟩ := hpre
  have hm : m < l.length := (List.getElem?_eq_some_iff.1 hx).1
  by_contra hle
  rw [List.getElem?_append_left (by omega)] at hy
  exact hmiss (List.mem_of_getElem? hy)

/-! ## Tickets that are numbers -/

/-- A list of distinct numbers below `n` has at most `n` entries. -/
theorem length_le_of_nodup {l : List Nat} {n : Nat} (h : l.Nodup) (hlt : ∀ a ∈ l, a < n) :
    l.length ≤ n := by
  have hsub : l ⊆ List.range n := fun a ha => List.mem_range.2 (hlt a ha)
  simpa using (List.subperm_of_subset h hsub).length_le

section
variable {o : BatchOrder ι Nat} {n : Nat}

theorem Wf.length_issued_le (h : o.Wf) (hlt : ∀ i a, o.Drawn i a → a < n) :
    o.issued.length ≤ n := by
  rw [← List.length_map (f := Prod.snd)]
  refine length_le_of_nodup h.nodup_issued ?_
  intro a ha
  obtain ⟨⟨i, a⟩, hmem, rfl⟩ := List.mem_map.1 ha
  exact hlt i a (.inl hmem)

theorem Wf.length_pending_le (h : o.Wf) (hlt : ∀ i a, o.Drawn i a → a < n) (i : ι) :
    (o.pending i).length ≤ n :=
  length_le_of_nodup ((h.pending_lt i).imp fun hab => Nat.ne_of_lt hab)
    fun a ha => hlt i a (.inr ha)

end

end BatchOrder
