import Pringles.Lib.BitFormat
import Pringles.Lib.Bytes

/-!
# Bytes as strings of bits

The bits of a byte buffer, the most significant bit of each byte first. A number that is written at
the front of such a string is found in the bytes, again with the most significant one first.
-/

namespace Bits

variable {l r : List Byte} {p q : List Bool} {n : Nat}

def ofBytes : List Byte → List Bool
  | [] => []
  | b :: l => write b ++ ofBytes l

theorem ofBytes_append (l r : List Byte) : ofBytes (l ++ r) = ofBytes l ++ ofBytes r := by
  induction l with
  | nil => rfl
  | cons b l ih => rw [List.cons_append, ofBytes, ofBytes, ih, List.append_assoc]

theorem length_ofBytes (l : List Byte) : (ofBytes l).length = 8 * l.length := by
  induction l with
  | nil => rfl
  | cons b l ih =>
    rw [ofBytes, List.length_append, length_write, ih, List.length_cons]
    omega

/-- The bytes behind the first `8 * n` bits. -/
theorem ofBytes_drop (h : ofBytes l = p ++ q) (hp : p.length = 8 * n) : ofBytes (l.drop n) = q := by
  have hlen := congrArg List.length h
  rw [length_ofBytes, List.length_append, hp] at hlen
  have htake : (ofBytes (l.take n)).length = 8 * n := by
    rw [length_ofBytes, List.length_take]
    omega
  rw [← List.take_append_drop n l, ofBytes_append] at h
  exact (List.append_inj h (htake.trans hp.symm)).2

theorem write_injective {w : Nat} {x y : BitVec w} (h : write x ++ p = write y ++ q) :
    x = y ∧ p = q := by
  have hread := read_write x p
  rw [h, read_write, Option.some.injEq, Prod.mk.injEq] at hread
  exact ⟨hread.1.symm, hread.2.symm⟩

/-- A list of four bytes at least. -/
theorem exists_cons_of_length (h : 4 ≤ l.length) :
    l = Bytes.byteAt l 0 :: Bytes.byteAt l 1 :: Bytes.byteAt l 2 :: Bytes.byteAt l 3 ::
      l.drop 4 := by
  refine List.ext_getElem? fun i => ?_
  match i with
  | 0 => simp [Bytes.byteAt, List.getElem?_eq_getElem (by omega : 0 < l.length)]
  | 1 => simp [Bytes.byteAt, List.getElem?_eq_getElem (by omega : 1 < l.length)]
  | 2 => simp [Bytes.byteAt, List.getElem?_eq_getElem (by omega : 2 < l.length)]
  | 3 => simp [Bytes.byteAt, List.getElem?_eq_getElem (by omega : 3 < l.length)]
  | i + 4 => simp [Nat.add_comm 4 i]

/-- The number at the front of the bits is made of the bytes at the front. -/
theorem word_of_bits {v : BitVec 32} (h : ofBytes l = write v ++ q) :
    v = Bytes.byteAt l 0 ++ Bytes.byteAt l 1 ++ Bytes.byteAt l 2 ++ Bytes.byteAt l 3 := by
  have hlen := congrArg List.length h
  rw [length_ofBytes, List.length_append, length_write] at hlen
  generalize hw : Bytes.byteAt l 0 ++ Bytes.byteAt l 1 ++ Bytes.byteAt l 2 ++ Bytes.byteAt l 3 = w
  have hl : ofBytes l = write w ++ ofBytes (l.drop 4) := by
    rw [← hw, write_append, write_append, write_append]
    conv => lhs; rw [exists_cons_of_length (l := l) (by omega)]
    simp only [ofBytes, List.append_assoc]
  rw [hl] at h
  exact (write_injective h).1.symm

/-! ## Halves of a word -/

def hi (x : BitVec 32) : BitVec 16 := x.extractLsb' 16 16

def lo (x : BitVec 32) : BitVec 16 := x.extractLsb' 0 16

theorem hi_append_lo (x : BitVec 32) : hi x ++ lo x = x := by
  refine BitVec.eq_of_getLsbD_eq ?_
  intro i h
  simp only [hi, lo, BitVec.getLsbD_append, BitVec.getLsbD_extractLsb']
  grind

theorem write_halves (x : BitVec 32) : write x = write (hi x) ++ write (lo x) := by
  rw [← write_append, hi_append_lo]

end Bits
