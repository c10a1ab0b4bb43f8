import Mathlib.Data.Finset.Card
import Mathlib.Data.Finset.Range
import Mathlib.Logic.Function.Basic

/-!
# Batches whose members leave one by one

Members join the open batch. When it is closed, the next one opens, and from then on its members
leave. A closed batch is active while a member is left. The lemmas say how the number of active
batches changes with each move.
-/

/-- How many members each batch has left, and how many batches are closed: those before `closed`. -/
@[ext]
structure Tally where
  pending : Nat → Nat := fun _ => 0
  closed : Nat := 0

namespace Tally

variable {b : Tally} {i : Nat}

/-- The closed batches that have a member left. -/
def live (b : Tally) : Finset Nat := (Finset.range b.closed).filter fun i => 0 < b.pending i

def active (b : Tally) : Nat := b.live.card

def join (b : Tally) : Tally :=
  { b with pending := Function.update b.pending b.closed (b.pending b.closed + 1) }

def close (b : Tally) : Tally := { b with closed := b.closed + 1 }

def leave (b : Tally) (i : Nat) : Tally :=
  { b with pending := Function.update b.pending i (b.pending i - 1) }

theorem mem_live : i ∈ b.live ↔ i < b.closed ∧ 0 < b.pending i := by
  rw [live, Finset.mem_filter, Finset.mem_range]

theorem active_le : b.active ≤ b.closed := by
  have hcard := Finset.card_filter_le (Finset.range b.closed) fun i => 0 < b.pending i
  rwa [Finset.card_range] at hcard

theorem active_eq_zero : b.active = 0 ↔ ∀ i < b.closed, b.pending i = 0 := by
  rw [active, Finset.card_eq_zero, Finset.eq_empty_iff_forall_notMem]
  refine forall_congr' fun i => ?_
  rw [mem_live]
  omega

theorem active_pos (hi : i < b.closed) (hpos : 0 < b.pending i) : 0 < b.active :=
  Finset.card_pos.2 ⟨i, mem_live.2 ⟨hi, hpos⟩⟩

/-- The open batch does not count. -/
theorem active_join : b.join.active = b.active := by
  refine congrArg Finset.card (Finset.ext fun i => ?_)
  rw [mem_live, mem_live]
  refine and_congr_right fun hi => ?_
  have hi' : i < b.closed := hi
  change 0 < Function.update b.pending b.closed (b.pending b.closed + 1) i ↔ _
  rw [Function.update_of_ne (Nat.ne_of_lt hi')]

theorem active_close (hpos : 0 < b.pending b.closed) : b.close.active = b.active + 1 := by
  have hlive : b.close.live = insert b.closed b.live := by
    refine Finset.ext fun i => ?_
    rw [Finset.mem_insert, mem_live, mem_live]
    change i < b.closed + 1 ∧ 0 < b.pending i ↔ _
    constructor
    · rintro ⟨hi, hpend⟩
      rcases Nat.lt_succ_iff_lt_or_eq.1 hi with hlt | rfl
      · exact .inr ⟨hlt, hpend⟩
      · exact .inl rfl
    · rintro (rfl | ⟨hi, hpend⟩)
      · exact ⟨Nat.lt_succ_self _, hpos⟩
      · exact ⟨Nat.lt_succ_of_lt hi, hpend⟩
  have hnew : b.closed ∉ b.live := fun h => Nat.lt_irrefl _ (mem_live.1 h).1
  rw [active, hlive, Finset.card_insert_of_notMem hnew, active]

/-- The last member takes the batch along. -/
theorem active_leave_last (hi : i < b.closed) (hone : b.pending i = 1) :
    (b.leave i).active = b.active - 1 := by
  have hlive : (b.leave i).live = b.live.erase i := by
    refine Finset.ext fun j => ?_
    rw [Finset.mem_erase, mem_live, mem_live]
    change j < b.closed ∧ 0 < Function.update b.pending i (b.pending i - 1) j ↔ _
    by_cases hj : j = i
    · subst hj
      rw [Function.update_self, hone]
      exact iff_of_false (fun h => Nat.lt_irrefl _ h.2) fun h => h.1 rfl
    · rw [Function.update_of_ne hj]
      exact ⟨fun h => ⟨hj, h⟩, And.right⟩
  rw [active, hlive, Finset.card_erase_of_mem (mem_live.2 ⟨hi, by omega⟩), active]

theorem active_leave (hmore : 1 < b.pending i) : (b.leave i).active = b.active := by
  refine congrArg Finset.card (Finset.ext fun j => ?_)
  rw [mem_live, mem_live]
  change j < b.closed ∧ 0 < Function.update b.pending i (b.pending i - 1) j ↔ _
  by_cases hj : j = i
  · subst hj
    rw [Function.update_self]
    omega
  · rw [Function.update_of_ne hj]

end Tally
