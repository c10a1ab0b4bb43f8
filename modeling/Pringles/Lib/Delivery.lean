import Mathlib.Algebra.BigOperators.Group.Multiset.Basic
import Mathlib.Algebra.Group.Action.Defs
import Mathlib.Data.Fintype.Card
import Mathlib.Tactic.Abel
import Pringles.Lib.Machine

/-!
# Messages delivered in any order

A bag of messages: any of them can be delivered next, and what its delivery causes is put in flight
in its place. A quantity that every message hands on to what it causes, less what its delivery uses
up, is conserved (`conserved`), whatever the order.

A flood is the case in which a notice enters at one node, is spread from there to every other node
and is handed out once at each. Three conserved quantities describe its runs: the nodes that are
still owed the notice, the deliveries that are still to come, and the copies that are yet to be
spread.
-/

universe u v

/-- What the delivery of a message puts in flight. -/
structure Delivery (α : Type u) where
  causes : α → List α

namespace Delivery

variable {α : Type u} {D : Delivery α} {s s' : List α} {tr : List (Nat × α)}

/-- The input is the position of the message that is delivered, the output the message. -/
def machine (D : Delivery α) : Machine (List α) Nat α where
  step s k := (s[k]?).map fun m => (s.eraseIdx k ++ D.causes m, m)

/-- The messages that a run delivers. -/
def delivered (tr : List (Nat × α)) : List α := tr.map Prod.snd

theorem step_eq_some {k : Nat} {m : α} (h : D.machine.step s k = some (s', m)) :
    s[k]? = some m ∧ s' = s.eraseIdx k ++ D.causes m := by
  simp only [machine, Option.map_eq_some_iff, Prod.mk.injEq] at h
  obtain ⟨_, hm, rfl, rfl⟩ := h
  exact ⟨hm, rfl⟩

theorem delivered_snoc (tr : List (Nat × α)) (k : Nat) (m : α) :
    delivered (tr ++ [(k, m)]) = delivered tr ++ [m] := by
  rw [delivered, List.map_append]
  rfl

/-- A sum over the bag, with one message set apart. -/
theorem sum_eraseIdx {M : Type v} [AddCommMonoid M] (f : α → M) {k : Nat} {m : α}
    (h : s[k]? = some m) : f m + ((s.eraseIdx k).map f).sum = (s.map f).sum := by
  obtain ⟨hk, rfl⟩ := List.getElem?_eq_some_iff.1 h
  have hperm := (List.getElem_cons_eraseIdx_perm hk).map f
  rw [← hperm.sum_eq, List.map_cons, List.sum_cons]

/-- **Conservation.** What the messages in flight carry and what the deliveries have used up add up
to what was there at first. -/
theorem conserved {M : Type v} [AddCommMonoid M] {f g : α → M}
    (hcauses : ∀ m, ((D.causes m).map f).sum + g m = f m) (h : D.machine.Run s tr s') :
    (s'.map f).sum + ((delivered tr).map g).sum = (s.map f).sum := by
  induction h with
  | nil => simp [delivered]
  | @snoc s' s'' tr k m _ hs ih =>
    obtain ⟨hm, rfl⟩ := step_eq_some hs
    calc ((s'.eraseIdx k ++ D.causes m).map f).sum + ((delivered (tr ++ [(k, m)])).map g).sum
        = ((s'.eraseIdx k).map f).sum + (((D.causes m).map f).sum + g m) +
            ((delivered tr).map g).sum := by
          rw [delivered_snoc, List.map_append, List.map_append, List.sum_append, List.sum_append,
            List.map_singleton, List.sum_singleton]
          abel
      _ = (s'.map f).sum + ((delivered tr).map g).sum := by
          rw [hcauses, ← sum_eraseIdx f hm, add_comm (f m)]
      _ = (s.map f).sum := ih

end Delivery

/-! ## Floods -/

namespace Flood

/-- A copy of the notice: where it came in, on the way to a node, or on its way out at a node. -/
inductive Copy (ι : Type u) where
  | entering (i : ι)
  | relayed (i : ι)
  | handed (i : ι)

end Flood

/-- From the node where it comes in the notice is handed out there and goes to every other node. -/
structure Flood (ι : Type u) [Fintype ι] [DecidableEq ι] where
  spread : ι → List (Flood.Copy ι)
  covers : ∀ i, (spread i : Multiset (Flood.Copy ι)) =
    .handed i ::ₘ (Finset.univ.erase i).val.map .relayed

namespace Flood

variable {ι : Type u} [Fintype ι] [DecidableEq ι] {F : Flood ι} {i j : ι}
  {s s' : List (Copy ι)} {tr : List (Nat × Copy ι)}

/-- A relayed copy is handed out and goes no further. -/
def delivery (F : Flood ι) : Delivery (Copy ι) where
  causes
    | .entering i => F.spread i
    | .relayed i => [.handed i]
    | .handed _ => []

/-- A sum over what the spreading puts in flight. -/
theorem sum_spread {M : Type v} [AddCommMonoid M] (f : Copy ι → M) :
    ((F.spread i).map f).sum =
      f (.handed i) + ((Finset.univ.erase i).val.map fun j => f (.relayed j)).sum := by
  have hcoe : (((F.spread i).map f).sum : M) = ((F.spread i : Multiset (Copy ι)).map f).sum := by
    rw [Multiset.map_coe, Multiset.sum_coe]
  rw [hcoe, F.covers, Multiset.map_cons, Multiset.sum_cons, Multiset.map_map]
  rfl

/-! ### The nodes that are owed the notice -/

/-- The nodes that receive the notice through a copy. -/
def owed : Copy ι → Multiset ι
  | .entering _ => Finset.univ.val
  | .relayed i => {i}
  | .handed i => {i}

/-- The nodes at which the delivery of a copy hands it out. -/
def given : Copy ι → Multiset ι
  | .handed i => {i}
  | _ => 0

theorem causes_owed (m : Copy ι) : ((F.delivery.causes m).map owed).sum + given m = owed m := by
  cases m with
  | entering i =>
    have hself : ((Finset.univ.erase i).val.map fun j => ({j} : Multiset ι)).sum =
        (Finset.univ.erase i).val := Multiset.sum_map_singleton _
    change ((F.spread i).map owed).sum + 0 = Finset.univ.val
    rw [sum_spread, add_zero]
    change {i} + ((Finset.univ.erase i).val.map fun j => ({j} : Multiset ι)).sum = Finset.univ.val
    rw [hself, Multiset.singleton_add, Finset.erase_val,
      Multiset.cons_erase (Finset.mem_univ_val i)]
  | relayed i => simp [delivery, owed, given]
  | handed i => simp [delivery, owed, given]

/-- The nodes at which the notice has been handed out. -/
def received (tr : List (Nat × Copy ι)) : Multiset ι :=
  ((Delivery.delivered tr).map given).sum

/-- Nobody is forgotten, and nobody is served twice. -/
theorem owed_add_received (h : F.delivery.machine.Run [.entering i] tr s) :
    (s.map owed).sum + received tr = Finset.univ.val := by
  have hcons := Delivery.conserved causes_owed h
  rwa [List.map_singleton, List.sum_singleton] at hcons

/-- **A node receives the notice at most once.** -/
theorem count_received_le (h : F.delivery.machine.Run [.entering i] tr s) (j : ι) :
    (received tr).count j ≤ 1 := by
  have hle : received tr ≤ Finset.univ.val := by
    rw [← owed_add_received h]
    exact Multiset.le_add_left _ _
  exact Multiset.nodup_iff_count_le_one.1 (Multiset.nodup_of_le hle Finset.univ.nodup) j

/-- **When nothing is in flight, every node has received the notice once.** -/
theorem count_received (h : F.delivery.machine.Run [.entering i] tr []) (j : ι) :
    (received tr).count j = 1 := by
  have hall := owed_add_received h
  rw [List.map_nil, List.sum_nil, zero_add] at hall
  rw [hall]
  exact Multiset.count_univ j

/-! ### The deliveries to come -/

/-- The deliveries that a copy leads to, its own among them. -/
def cost : Copy ι → Nat
  | .entering _ => 2 * Fintype.card ι
  | .relayed _ => 2
  | .handed _ => 1

theorem causes_cost (m : Copy ι) : ((F.delivery.causes m).map cost).sum + 1 = cost m := by
  cases m with
  | entering i =>
    have hcard : Multiset.card (Finset.univ.erase i).val = Fintype.card ι - 1 :=
      Finset.card_erase_of_mem (Finset.mem_univ i)
    have hpos : 0 < Fintype.card ι := Fintype.card_pos_iff.2 ⟨i⟩
    change ((F.spread i).map cost).sum + 1 = 2 * Fintype.card ι
    rw [sum_spread]
    change 1 + ((Finset.univ.erase i).val.map fun _ => 2).sum + 1 = 2 * Fintype.card ι
    rw [Multiset.map_const', Multiset.sum_replicate, hcard, smul_eq_mul]
    omega
  | relayed i => rfl
  | handed i => rfl

theorem cost_add_length (h : F.delivery.machine.Run [.entering i] tr s) :
    (s.map cost).sum + tr.length = 2 * Fintype.card ι := by
  have hcons := Delivery.conserved causes_cost h
  rw [List.map_singleton, List.sum_singleton, List.map_const', List.sum_replicate, smul_eq_mul,
    mul_one, Delivery.delivered, List.length_map] at hcons
  exact hcons

omit [DecidableEq ι] in
theorem cost_pos (m : Copy ι) : 0 < cost m := by
  cases m with
  | entering j => exact Nat.mul_pos (by decide) (Fintype.card_pos_iff.2 ⟨j⟩)
  | relayed j => exact Nat.two_pos
  | handed j => exact Nat.one_pos

/-- **The flood ends with the delivery `2 * n`,** and not before. -/
theorem nil_iff_length (h : F.delivery.machine.Run [.entering i] tr s) :
    s = [] ↔ tr.length = 2 * Fintype.card ι := by
  have hcost := cost_add_length h
  constructor
  · rintro rfl
    simpa using hcost
  · intro hlen
    cases s with
    | nil => rfl
    | cons m s =>
      have hpos := cost_pos m
      rw [List.map_cons, List.sum_cons] at hcost
      omega

theorem length_le (h : F.delivery.machine.Run [.entering i] tr s) :
    tr.length ≤ 2 * Fintype.card ι := by
  have hcost := cost_add_length h
  omega

/-! ### The copies that are spread -/

/-- The node from which a copy is spread. -/
def source : Copy ι → Multiset ι
  | .entering i => {i}
  | _ => 0

theorem causes_source (m : Copy ι) :
    ((F.delivery.causes m).map source).sum + source m = source m := by
  cases m with
  | entering i =>
    change ((F.spread i).map source).sum + {i} = {i}
    rw [sum_spread]
    change 0 + ((Finset.univ.erase i).val.map fun _ => (0 : Multiset ι)).sum + {i} = {i}
    rw [Multiset.map_const', Multiset.sum_replicate, nsmul_zero, zero_add, zero_add]
  | relayed i => rfl
  | handed i => rfl

/-- **The notice is spread where it came in, once.** -/
theorem spread_once (h : F.delivery.machine.Run [.entering i] tr s) :
    ((Delivery.delivered tr).map source).sum ≤ {i} := by
  have hcons := Delivery.conserved causes_source h
  rw [List.map_singleton, List.sum_singleton] at hcons
  change _ = {i} at hcons
  rw [← hcons]
  exact Multiset.le_add_left _ _

end Flood
