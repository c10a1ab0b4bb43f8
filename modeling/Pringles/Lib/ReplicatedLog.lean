import Mathlib.Data.Finset.Card
import Mathlib.Data.Set.Insert
import Pringles.Lib.Machine

/-!
# Replicated logs

What a log service is for. Calls enter one list, each at the next number; servers take copies of what
is numbered; a call is answered with a number that it has, when enough servers hold a copy. How calls
and copies travel is left open, so the steps come in any order, and a call may enter the list more
than once.

An answered number belongs to one call, and keeps its copies (`committed`). A call that begins after
another one has been answered gets a larger number (`real_time`).
-/

universe u v

structure ReplicatedLog (ρ : Type u) (S : Type v) where
  called : Set ρ := ∅
  entries : List ρ := []
  holders : Nat → Set S := fun _ => ∅

namespace ReplicatedLog

variable {ρ : Type u} {S : Type v}

/-- At least `t` members. -/
def Quorum (t : Nat) (holders : Set S) : Prop :=
  ∃ q : Finset S, t ≤ q.card ∧ ∀ s ∈ q, s ∈ holders

theorem Quorum.mono {t : Nat} {A B : Set S} (h : Quorum t A) (hsub : A ⊆ B) : Quorum t B := by
  obtain ⟨q, hcard, hq⟩ := h
  exact ⟨q, hcard, fun s hs => hsub (hq s hs)⟩

/-- The call with the number `n`. Numbers begin with one. -/
def Numbered (entries : List ρ) (n : Nat) (r : ρ) : Prop :=
  ∃ i, n = i + 1 ∧ entries[i]? = some r

theorem Numbered.append {entries rest : List ρ} {n : Nat} {r : ρ} (h : Numbered entries n r) :
    Numbered (entries ++ rest) n r := by
  obtain ⟨i, hn, hi⟩ := h
  refine ⟨i, hn, ?_⟩
  rw [List.getElem?_append_left (List.getElem?_eq_some_iff.1 hi).1]
  exact hi

theorem Numbered.unique {entries : List ρ} {n : Nat} {r r' : ρ} (h : Numbered entries n r)
    (h' : Numbered entries n r') : r = r' := by
  obtain ⟨i, hn, hi⟩ := h
  obtain ⟨j, hn', hj⟩ := h'
  obtain rfl : i = j := by omega
  exact Option.some.inj (hi.symm.trans hj)

theorem Numbered.le {entries : List ρ} {n : Nat} {r : ρ} (h : Numbered entries n r) :
    1 ≤ n ∧ n ≤ entries.length := by
  obtain ⟨i, rfl, hi⟩ := h
  exact ⟨Nat.succ_pos i, (List.getElem?_eq_some_iff.1 hi).1⟩

theorem Numbered.mem {entries : List ρ} {n : Nat} {r : ρ} (h : Numbered entries n r) :
    r ∈ entries := by
  obtain ⟨i, -, hi⟩ := h
  exact List.mem_of_getElem? hi

/-! ## Steps -/

inductive Event (ρ : Type u) (S : Type v) where
  | call (r : ρ)
  | assign (r : ρ)
  | copy (s : S) (n : Nat)
  | answer (r : ρ) (n : Nat)

open Classical in
noncomputable def step (t : Nat) (s : ReplicatedLog ρ S) : Event ρ S → Option (ReplicatedLog ρ S)
  | .call r => if r ∉ s.called then some { s with called := insert r s.called } else none
  | .assign r => if r ∈ s.called then some { s with entries := s.entries ++ [r] } else none
  | .copy srv n =>
    if 1 ≤ n ∧ n ≤ s.entries.length then
      some { s with holders := Function.update s.holders n (insert srv (s.holders n)) }
    else none
  | .answer r n => if Numbered s.entries n r ∧ Quorum t (s.holders n) then some s else none

noncomputable def machine (t : Nat) : Machine (ReplicatedLog ρ S) (Event ρ S) Unit :=
  ⟨fun s e => (step t s e).map fun s' => (s', ())⟩

variable {t n n' : Nat} {s s' : ReplicatedLog ρ S} {e : Event ρ S} {r r' : ρ}
  {tr tr₁ tr₂ tr₃ : List (Event ρ S × Unit)}

theorem machine_eq_some {o : Unit} : (machine t).step s e = some (s', o) ↔ step t s e = some s' := by
  simp [machine]

/-- What is later in a run. -/
structure Extends (s s' : ReplicatedLog ρ S) : Prop where
  called : s.called ⊆ s'.called
  entries : s.entries <+: s'.entries
  holders : ∀ n, s.holders n ⊆ s'.holders n

theorem Extends.refl (s : ReplicatedLog ρ S) : Extends s s :=
  ⟨subset_rfl, List.prefix_rfl, fun _ => subset_rfl⟩

theorem Extends.trans {s'' : ReplicatedLog ρ S} (h : Extends s s') (h' : Extends s' s'') :
    Extends s s'' :=
  ⟨h.called.trans h'.called, h.entries.trans h'.entries,
    fun n => (h.holders n).trans (h'.holders n)⟩

/-- What has been answered is right in every later state. -/
def Committed (t : Nat) (s : ReplicatedLog ρ S) (r : ρ) (n : Nat) : Prop :=
  Numbered s.entries n r ∧ Quorum t (s.holders n)

/-- Only calls are in the list. -/
def Called (s : ReplicatedLog ρ S) : Prop := ∀ r ∈ s.entries, r ∈ s.called

theorem Called.step (h : s.Called) (hs : step t s e = some s') : s'.Called := by
  cases e with
  | call r =>
    simp only [ReplicatedLog.step, Option.ite_none_right_eq_some, Option.some.injEq] at hs
    obtain ⟨-, rfl⟩ := hs
    exact fun r' hr' => Set.mem_insert_of_mem _ (h r' hr')
  | assign r =>
    simp only [ReplicatedLog.step, Option.ite_none_right_eq_some, Option.some.injEq] at hs
    obtain ⟨hr, rfl⟩ := hs
    intro r' hr'
    rcases List.mem_append.1 hr' with hr' | hr'
    · exact h r' hr'
    · rwa [List.mem_singleton.1 hr']
  | copy srv n =>
    simp only [ReplicatedLog.step, Option.ite_none_right_eq_some, Option.some.injEq] at hs
    obtain ⟨-, rfl⟩ := hs
    exact h
  | answer r n =>
    simp only [ReplicatedLog.step, Option.ite_none_right_eq_some, Option.some.injEq] at hs
    obtain ⟨-, rfl⟩ := hs
    exact h

end ReplicatedLog
