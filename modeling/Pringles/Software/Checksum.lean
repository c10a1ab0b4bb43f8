import Pringles.Lib.OnesComplement

/-!
# The checksum of a header

`Network::checksum` adds 16-bit words in a wide integer and folds the carries back twice. The total
of up to 65537 words fits in 32 bits, so the two folds leave its residue modulo `2 ^ 16 - 1`.
-/

namespace Pringles.Software.Network

open OnesComplement

variable {buf : List (BitVec 16)}

/-- `sum += *buf++` for all words of the buffer, in an `unsigned long`. -/
def total (buf : List (BitVec 16)) : BitVec 64 :=
  buf.foldl (fun sum word => sum + word.setWidth 64) 0

/-- `Network::checksum` of the words that `buf` points to. -/
def checksum (buf : List (BitVec 16)) : BitVec 16 :=
  let sum := total buf
  let sum := (sum >>> 16) + (sum &&& 0xffff)
  let sum := sum + (sum >>> 16)
  (~~~sum).setWidth 16

theorem sum_toNat_le (buf : List (BitVec 16)) :
    (buf.map BitVec.toNat).sum ≤ buf.length * 65535 := by
  induction buf with
  | nil => exact Nat.zero_le _
  | cons word buf ih =>
    have hword : word.toNat < 65536 := word.isLt
    rw [List.map_cons, List.sum_cons, List.length_cons]
    omega

/-- The total does not overflow. -/
theorem toNat_total (h : buf.length ≤ 65537) :
    (total buf).toNat = (buf.map BitVec.toNat).sum := by
  have hfold (sum : BitVec 64) (hsum : sum.toNat + (buf.map BitVec.toNat).sum < 2 ^ 64) :
      (buf.foldl (fun sum word => sum + word.setWidth 64) sum).toNat =
        sum.toNat + (buf.map BitVec.toNat).sum := by
    clear h
    induction buf generalizing sum with
    | nil => rfl
    | cons word buf ih =>
      rw [List.map_cons, List.sum_cons] at hsum ⊢
      have hword : (sum + word.setWidth 64).toNat = sum.toNat + word.toNat := by
        rw [BitVec.toNat_add, BitVec.toNat_setWidth_of_le (by omega), Nat.mod_eq_of_lt (by omega)]
      rw [List.foldl_cons, ih _ (by omega), hword, Nat.add_assoc]
  have hle : (buf.map BitVec.toNat).sum ≤ buf.length * 65535 := sum_toNat_le buf
  have hzero : (0 : BitVec 64).toNat = 0 := rfl
  rw [total, hfold 0 (by omega), hzero, Nat.zero_add]

theorem toNat_shiftRight_16 (sum : BitVec 64) : (sum >>> 16).toNat = sum.toNat / 2 ^ 16 := by
  rw [BitVec.toNat_ushiftRight, Nat.shiftRight_eq_div_pow]

theorem toNat_and_ffff (sum : BitVec 64) : (sum &&& 0xffff).toNat = sum.toNat % 2 ^ 16 := by
  rw [BitVec.toNat_and]
  exact Nat.and_two_pow_sub_one_eq_mod sum.toNat 16

/-- Folding twice leaves the residue of a total that fits in 32 bits. -/
theorem toNat_folded (sum : BitVec 64) (h : sum.toNat < 2 ^ 16 * 2 ^ 16) :
    let sum' := (sum >>> 16) + (sum &&& 0xffff)
    ((sum' + (sum' >>> 16)).setWidth 16).toNat = residue 16 sum.toNat := by
  intro sum'
  have hfirst : sum'.toNat = sum.toNat / 2 ^ 16 + sum.toNat % 2 ^ 16 := by
    rw [BitVec.toNat_add, toNat_shiftRight_16, toNat_and_ffff, Nat.mod_eq_of_lt (by omega)]
  rw [BitVec.toNat_setWidth, BitVec.toNat_add, toNat_shiftRight_16, hfirst, residue_of_lt_mul h,
    Nat.mod_mod_of_dvd _ (by decide)]

/-- The checksum is the complement of the sum with end-around carry. -/
theorem checksum_eq_not (h : buf.length ≤ 65537) : checksum buf = ~~~(OnesComplement.sum buf) := by
  have hle : (buf.map BitVec.toNat).sum ≤ buf.length * 65535 := sum_toNat_le buf
  have htotal : (total buf).toNat = (buf.map BitVec.toNat).sum := toNat_total h
  have hfolded := toNat_folded (total buf) (by omega)
  rw [htotal, ← toNat_sum] at hfolded
  rw [checksum, BitVec.setWidth_not (by omega)]
  exact congrArg (~~~ ·) (BitVec.eq_of_toNat_eq hfolded)

/-- **The checksum of RFC 1071**: it makes up all ones together with the words that it is about, in
whatever order they are. -/
theorem checksum_spec (buf : List (BitVec 16)) (h : buf.length ≤ 65537) :
    checksum buf = ~~~(OnesComplement.sum buf) ∧
      OnesComplement.add (OnesComplement.sum buf) (checksum buf) = 0xffff ∧
      ∀ buf' : List (BitVec 16), buf'.Perm buf → checksum buf' = checksum buf := by
  refine ⟨checksum_eq_not h, ?_, ?_⟩
  · rw [checksum_eq_not h, add_not_self]
    rfl
  · intro buf' hperm
    rw [checksum_eq_not h, checksum_eq_not (hperm.length_eq.le.trans h), sum_perm hperm]

/-- A header whose words add up to more than 16 bits. -/
theorem checksum_spec_header :
    checksum [0x4500, 0x0073, 0x0000, 0x4000, 0x4011, 0xc0a8, 0x0001, 0xc0a8, 0x00c7] = 0xb861 ∧
      OnesComplement.add (0x479e : BitVec 16) 0xb861 = 0xffff := by
  have h := checksum_spec
    [0x4500, 0x0073, 0x0000, 0x4000, 0x4011, 0xc0a8, 0x0001, 0xc0a8, 0x00c7] (by decide)
  exact ⟨h.1.trans rfl, h.2.1⟩

end Pringles.Software.Network
