import Mathlib.Data.BitVec
import Mathlib.Data.List.Basic

/-!
# Sums kept in two words

A counter of `2 * w` bits kept in two registers of `w` bits. A number is added to the lower one, and
the carry is found afterwards: the sum has wrapped around exactly when it is smaller than the number
that was added (`wraps_iff`).
-/

/-- The registers of a sum. -/
structure TwoWords (w : Nat) where
  lower : BitVec w := 0
  higher : BitVec w := 0

namespace TwoWords

variable {w : Nat} {a : TwoWords w} {x d : BitVec w} {ds : List (BitVec w)}

def value (a : TwoWords w) : Nat := a.higher.toNat * 2 ^ w + a.lower.toNat

/-- The carry goes into the higher word when the lower one has wrapped around. -/
def add (a : TwoWords w) (d : BitVec w) : TwoWords w where
  lower := a.lower + d
  higher := if a.lower + d < d then a.higher + 1 else a.higher

theorem value_zero (w : Nat) : ({} : TwoWords w).value = 0 := by
  simp [value]

/-- A sum is smaller than a summand exactly when it has wrapped around. -/
theorem wraps_iff : x + d < d ↔ 2 ^ w ≤ x.toNat + d.toNat := by
  have hx : x.toNat < 2 ^ w := x.isLt
  have hd : d.toNat < 2 ^ w := d.isLt
  rw [BitVec.lt_def, BitVec.toNat_add]
  by_cases hwrap : 2 ^ w ≤ x.toNat + d.toNat
  · rw [Nat.mod_eq_sub_mod hwrap, Nat.mod_eq_of_lt (by omega)]
    omega
  · rw [Nat.mod_eq_of_lt (by omega)]
    omega

/-- Adding a number adds its value, as far as it fits the two words. -/
theorem value_add (h : a.value + d.toNat < 2 ^ w * 2 ^ w) :
    (a.add d).value = a.value + d.toNat := by
  have hlower : a.lower.toNat < 2 ^ w := a.lower.isLt
  have hd : d.toNat < 2 ^ w := d.isLt
  have hsum : (a.lower + d).toNat = (a.lower.toNat + d.toNat) % 2 ^ w := BitVec.toNat_add ..
  unfold value at h ⊢
  unfold add
  by_cases hwrap : 2 ^ w ≤ a.lower.toNat + d.toNat
  · have hroom : a.higher.toNat + 1 < 2 ^ w := by
      refine Nat.lt_of_mul_lt_mul_right (a := 2 ^ w) ?_
      rw [Nat.add_mul, Nat.one_mul]
      omega
    have hone : 1 < 2 ^ w := by omega
    have hcarry : (a.higher + 1).toNat = a.higher.toNat + 1 := by
      rw [BitVec.toNat_add, BitVec.ofNat_eq_ofNat, BitVec.toNat_ofNat, Nat.mod_eq_of_lt hone,
        Nat.mod_eq_of_lt hroom]
    simp only [if_pos (wraps_iff.2 hwrap)]
    rw [hcarry, hsum, Nat.mod_eq_sub_mod hwrap, Nat.mod_eq_of_lt (by omega), Nat.add_mul,
      Nat.one_mul]
    omega
  · simp only [if_neg (mt wraps_iff.1 hwrap)]
    rw [hsum, Nat.mod_eq_of_lt (by omega), Nat.add_assoc]

/-- **The sum is exact** as long as the true sum fits the two words. -/
theorem value_foldl_add (h : a.value + (ds.map BitVec.toNat).sum < 2 ^ w * 2 ^ w) :
    (ds.foldl add a).value = a.value + (ds.map BitVec.toNat).sum := by
  induction ds generalizing a with
  | nil => rfl
  | cons d ds ih =>
    rw [List.map_cons, List.sum_cons] at h ⊢
    have hfirst : (a.add d).value = a.value + d.toNat := value_add (by omega)
    rw [List.foldl_cons, ih (by omega), hfirst]
    omega

end TwoWords
