import Mathlib.Algebra.BigOperators.Group.List.Basic
import Mathlib.Data.BitVec

/-!
# One's-complement sums

Words are added with an end-around carry: what is carried out of the highest bit is added again at
the lowest. As numbers the words `0` and `2 ^ w - 1` are the two zeros of arithmetic modulo
`2 ^ w - 1`, and a sum is the first of them only when all its words are (`residue`). That makes the
sum of a list a function of the total of its words (`toNat_sum`), hence independent of their order.
-/

namespace OnesComplement

variable {w : Nat} {m n : Nat} {x y : BitVec w} {xs ys : List (BitVec w)}

/-- The sum with end-around carry. -/
def add (x y : BitVec w) : BitVec w :=
  if x.toNat + y.toNat < 2 ^ w then x + y else x + y + 1

def sum (xs : List (BitVec w)) : BitVec w := xs.foldl add 0

/-- The word that stands for `n` modulo `2 ^ w - 1`, which is zero for `n = 0` only. -/
def residue (w n : Nat) : Nat := if n = 0 then 0 else (n - 1) % (2 ^ w - 1) + 1

/-! ## Residues -/

theorem residue_of_pos (h : 0 < n) : residue w n = (n - 1) % (2 ^ w - 1) + 1 :=
  if_neg (by omega)

theorem residue_of_lt (h : n < 2 ^ w) : residue w n = n := by
  rcases Nat.eq_zero_or_pos n with rfl | hpos
  · rfl
  · rw [residue_of_pos hpos, Nat.mod_eq_of_lt (by omega)]
    omega

/-- A number and its residue leave the same remainder. -/
theorem residue_modEq (w n : Nat) : residue w n ≡ n [MOD 2 ^ w - 1] := by
  rcases Nat.eq_zero_or_pos n with rfl | hpos
  · rfl
  · rw [residue_of_pos hpos]
    have hmod : (n - 1) % (2 ^ w - 1) + 1 ≡ n - 1 + 1 [MOD 2 ^ w - 1] :=
      (Nat.mod_modEq ..).add_right 1
    rwa [Nat.sub_add_cancel hpos] at hmod

theorem residue_pos (h : 0 < n) : 0 < residue w n := by
  rw [residue_of_pos h]
  exact Nat.succ_pos _

theorem residue_le (hw : 0 < 2 ^ w - 1) (n : Nat) : residue w n ≤ 2 ^ w - 1 := by
  rcases Nat.eq_zero_or_pos n with rfl | hpos
  · exact Nat.zero_le _
  · rw [residue_of_pos hpos]
    exact Nat.mod_lt _ hw

/-- The second zero is the residue of the positive multiples of `2 ^ w - 1`. -/
theorem residue_eq_max_iff (hw : 0 < 2 ^ w - 1) (hn : 0 < n) :
    residue w n = 2 ^ w - 1 ↔ n ≡ 0 [MOD 2 ^ w - 1] := by
  constructor
  · intro h
    have hmod : residue w n ≡ n [MOD 2 ^ w - 1] := residue_modEq w n
    rw [h] at hmod
    exact hmod.symm.trans (Nat.modEq_zero_iff_dvd.2 (dvd_refl _))
  · intro h
    have hdvd : 2 ^ w - 1 ∣ residue w n :=
      Nat.modEq_zero_iff_dvd.1 ((residue_modEq w n).trans h)
    exact Nat.le_antisymm (residue_le hw n) (Nat.le_of_dvd (residue_pos hn) hdvd)

/-- A summand may be replaced by its residue. -/
theorem residue_residue_add (w m n : Nat) : residue w (residue w m + n) = residue w (m + n) := by
  rcases Nat.eq_zero_or_pos m with rfl | hpos
  · rfl
  · rw [residue_of_pos hpos, residue_of_pos (by omega), residue_of_pos (by omega)]
    have hleft : (m - 1) % (2 ^ w - 1) + 1 + n - 1 = (m - 1) % (2 ^ w - 1) + n := by omega
    have hright : m + n - 1 = m - 1 + n := by omega
    rw [hleft, hright, Nat.mod_add_mod]

/-- The end-around carry of a number of one more bit. -/
theorem residue_of_le (h : n ≤ 2 * (2 ^ w - 1)) : residue w n = (n + n / 2 ^ w) % 2 ^ w := by
  have hpow : 0 < 2 ^ w := Nat.two_pow_pos w
  by_cases hlt : n < 2 ^ w
  · rw [residue_of_lt hlt, Nat.div_eq_of_lt hlt, Nat.add_zero, Nat.mod_eq_of_lt hlt]
  · have hdiv : n / 2 ^ w = 1 := Nat.div_eq_of_lt_le (by omega) (by omega)
    rw [residue_of_pos (by omega), hdiv, Nat.mod_eq_sub_mod (by omega),
      Nat.mod_eq_of_lt (by omega), Nat.mod_eq_sub_mod (by omega), Nat.mod_eq_of_lt (by omega)]
    omega

/-- **Folding**: the high part of a number may be added to its low part. -/
theorem residue_fold (w n : Nat) : residue w (n / 2 ^ w + n % 2 ^ w) = residue w n := by
  rcases Nat.eq_zero_or_pos n with rfl | hpos
  · simp
  · have hparts : 2 ^ w * (n / 2 ^ w) + n % 2 ^ w = n := Nat.div_add_mod ..
    have hpow : 0 < 2 ^ w := Nat.two_pow_pos w
    generalize n / 2 ^ w = q at *
    generalize n % 2 ^ w = r at *
    have hsum : 0 < q + r := by
      rcases Nat.eq_zero_or_pos q with rfl | hq
      · omega
      · omega
    have htotal : n - 1 = q + r - 1 + (2 ^ w - 1) * q := by
      have hmul : 2 ^ w * q = (2 ^ w - 1) * q + q := by
        rw [Nat.sub_mul, Nat.one_mul, Nat.sub_add_cancel (Nat.le_mul_of_pos_left q hpow)]
      omega
    rw [residue_of_pos hpos, residue_of_pos hsum, htotal, Nat.add_mul_mod_self_left]

/-- Two folds are enough for a number of two words. -/
theorem residue_of_lt_mul (h : n < 2 ^ w * 2 ^ w) :
    residue w n =
      (n / 2 ^ w + n % 2 ^ w + (n / 2 ^ w + n % 2 ^ w) / 2 ^ w) % 2 ^ w := by
  have hpow : 0 < 2 ^ w := Nat.two_pow_pos w
  have hhigh : n / 2 ^ w < 2 ^ w := Nat.div_lt_of_lt_mul h
  have hlow : n % 2 ^ w < 2 ^ w := Nat.mod_lt _ hpow
  rw [← residue_fold, residue_of_le (by omega)]

/-! ## Sums -/

theorem toNat_add (x y : BitVec w) : (add x y).toNat = residue w (x.toNat + y.toNat) := by
  have hx : x.toNat < 2 ^ w := x.isLt
  have hy : y.toNat < 2 ^ w := y.isLt
  rw [residue_of_le (by omega), add]
  split
  · next hlt => rw [BitVec.toNat_add, Nat.div_eq_of_lt hlt, Nat.add_zero]
  · next hlt =>
    have hdiv : (x.toNat + y.toNat) / 2 ^ w = 1 := Nat.div_eq_of_lt_le (by omega) (by omega)
    have hone : (1 : BitVec w).toNat = 1 % 2 ^ w := BitVec.toNat_ofNat ..
    rw [BitVec.toNat_add, BitVec.toNat_add, hone, hdiv, ← Nat.add_mod]

/-- **The sum is the residue of the total.** -/
theorem toNat_sum (xs : List (BitVec w)) :
    (sum xs).toNat = residue w (xs.map BitVec.toNat).sum := by
  have hfold (x : BitVec w) :
      (xs.foldl add x).toNat = residue w (x.toNat + (xs.map BitVec.toNat).sum) := by
    induction xs generalizing x with
    | nil => exact (residue_of_lt x.isLt).symm
    | cons y ys ih =>
      rw [List.foldl_cons, ih, toNat_add, residue_residue_add, List.map_cons, List.sum_cons,
        Nat.add_assoc]
  rw [sum, hfold, BitVec.ofNat_eq_ofNat, BitVec.toNat_ofNat, Nat.zero_mod, Nat.zero_add]

/-- The order of the words does not matter. -/
theorem sum_perm (h : xs.Perm ys) : sum xs = sum ys := by
  refine BitVec.eq_of_toNat_eq ?_
  rw [toNat_sum, toNat_sum, (h.map BitVec.toNat).sum_eq]

theorem add_sum (x : BitVec w) (xs : List (BitVec w)) : add (sum xs) x = sum (x :: xs) := by
  refine BitVec.eq_of_toNat_eq ?_
  rw [toNat_add, toNat_sum, toNat_sum, residue_residue_add, List.map_cons, List.sum_cons,
    Nat.add_comm]

/-- A word and its complement make up the second zero. -/
theorem add_not_self (x : BitVec w) : add x (~~~x) = BitVec.allOnes w := by
  refine BitVec.eq_of_toNat_eq ?_
  have hx : x.toNat < 2 ^ w := x.isLt
  rw [toNat_add, BitVec.toNat_not, BitVec.toNat_allOnes, residue_of_lt (by omega)]
  omega

/-- The complement of another word does so exactly where the two words are the same number modulo
`2 ^ w - 1`. -/
theorem add_not_eq_allOnes_iff (hx : x ≠ 0) :
    add x (~~~y) = BitVec.allOnes w ↔ x.toNat ≡ y.toNat [MOD 2 ^ w - 1] := by
  have hlt : x.toNat < 2 ^ w := x.isLt
  have hy : y.toNat < 2 ^ w := y.isLt
  have hpos : 0 < x.toNat := Nat.pos_of_ne_zero fun h => hx (BitVec.eq_of_toNat_eq h)
  have htotal : y.toNat + (2 ^ w - 1 - y.toNat) = 2 ^ w - 1 := by omega
  have hzero : y.toNat + (2 ^ w - 1 - y.toNat) ≡ 0 [MOD 2 ^ w - 1] := by
    rw [htotal]
    exact Nat.modEq_zero_iff_dvd.2 (dvd_refl _)
  rw [← BitVec.toNat_inj, toNat_add, BitVec.toNat_not, BitVec.toNat_allOnes,
    residue_eq_max_iff (by omega) (by omega)]
  constructor
  · intro h
    exact Nat.ModEq.add_right_cancel' _ (h.trans hzero.symm)
  · intro h
    exact (h.add_right _).trans hzero

end OnesComplement
