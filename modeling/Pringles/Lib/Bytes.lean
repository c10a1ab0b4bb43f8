import Mathlib.Data.BitVec

/-!
# Words in byte buffers

Loads and stores of little-endian words at an offset of a buffer. A byte outside the buffer reads as
zero and is not written, so statements about contents carry the bound they need.
-/

abbrev Byte := BitVec 8

namespace Bytes

variable {buf rest : List Byte} {off i j n : Nat} {b : Byte}

def byteAt (buf : List Byte) (i : Nat) : Byte := buf.getD i 0

def load16 (buf : List Byte) (off : Nat) : BitVec 16 := byteAt buf (off + 1) ++ byteAt buf off

def load32 (buf : List Byte) (off : Nat) : BitVec 32 :=
  byteAt buf (off + 3) ++ byteAt buf (off + 2) ++ byteAt buf (off + 1) ++ byteAt buf off

def store16 (buf : List Byte) (off : Nat) (v : BitVec 16) : List Byte :=
  (buf.set off (v.extractLsb' 0 8)).set (off + 1) (v.extractLsb' 8 8)

def store32 (buf : List Byte) (off : Nat) (v : BitVec 32) : List Byte :=
  (((buf.set off (v.extractLsb' 0 8)).set (off + 1) (v.extractLsb' 8 8)).set (off + 2)
    (v.extractLsb' 16 8)).set (off + 3) (v.extractLsb' 24 8)

/-- The copy of `data` to `off`, which is not possible behind the end of the buffer. -/
def memcpy (buf : List Byte) (off : Nat) (data : List Byte) : Option (List Byte) :=
  if off + data.length ≤ buf.length then
    some (buf.take off ++ data ++ buf.drop (off + data.length))
  else none

/-- The bytes of a word, as it lies in memory. -/
def bytes16 (v : BitVec 16) : List Byte := [v.extractLsb' 0 8, v.extractLsb' 8 8]

def bytes32 (v : BitVec 32) : List Byte :=
  [v.extractLsb' 0 8, v.extractLsb' 8 8, v.extractLsb' 16 8, v.extractLsb' 24 8]

/-! ## Bytes -/

theorem byteAt_append_left (h : i < buf.length) : byteAt (buf ++ rest) i = byteAt buf i := by
  simp [byteAt, List.getD_eq_getElem?_getD, List.getElem?_append_left h]

theorem byteAt_append_right (l : List Byte) (i : Nat) :
    byteAt (l ++ buf) (l.length + i) = byteAt buf i := by
  rw [byteAt, byteAt, List.getD_eq_getElem?_getD, List.getD_eq_getElem?_getD,
    List.getElem?_append_right (Nat.le_add_right l.length i), Nat.add_sub_cancel_left]

theorem byteAt_of_le (h : buf.length ≤ i) : byteAt buf i = 0 := by
  rw [byteAt, List.getD_eq_getElem?_getD, List.getElem?_eq_none h]
  rfl

theorem byteAt_drop (buf : List Byte) (n i : Nat) :
    byteAt (buf.drop n) i = byteAt buf (n + i) := by
  rw [byteAt, byteAt, List.getD_eq_getElem?_getD, List.getD_eq_getElem?_getD, List.getElem?_drop]

theorem byteAt_replicate_zero (n i : Nat) : byteAt (List.replicate n 0) i = 0 := by
  rw [byteAt, List.getD_eq_getElem?_getD, List.getElem?_replicate]
  split
  · rfl
  · rfl

theorem byteAt_take (h : i < n) : byteAt (buf.take n) i = byteAt buf i := by
  simp [byteAt, List.getD_eq_getElem?_getD, h]

theorem byteAt_of_take_eq {buf' : List Byte} (h : buf.take n = buf'.take n) (hi : i < n) :
    byteAt buf i = byteAt buf' i := by
  rw [← byteAt_take hi, h, byteAt_take hi]

theorem byteAt_set_ne (h : j ≠ i) : byteAt (buf.set i b) j = byteAt buf j := by
  simp [byteAt, List.getD_eq_getElem?_getD, List.getElem?_set_ne (Ne.symm h)]

theorem byteAt_set_self (h : i < buf.length) : byteAt (buf.set i b) i = b := by
  simp [byteAt, List.getD_eq_getElem?_getD, h]

@[simp] theorem length_store16 (v : BitVec 16) : (store16 buf off v).length = buf.length := by
  simp [store16]

@[simp] theorem length_store32 (v : BitVec 32) : (store32 buf off v).length = buf.length := by
  simp [store32]

theorem take_store16 (v : BitVec 16) (n : Nat) :
    (store16 buf off v).take n = store16 (buf.take n) off v := by
  rw [store16, store16, List.take_set, List.take_set]

theorem take_store32 (v : BitVec 32) (n : Nat) :
    (store32 buf off v).take n = store32 (buf.take n) off v := by
  rw [store32, store32, List.take_set, List.take_set, List.take_set, List.take_set]

/-- What lies behind the end of a buffer is not written. -/
theorem store32_of_length_le {v : BitVec 32} (h : buf.length ≤ off) : store32 buf off v = buf := by
  have hset : ∀ i b, off ≤ i → buf.set i b = buf := fun _ _ hi =>
    List.set_eq_of_length_le (Nat.le_trans h hi)
  rw [store32, hset _ _ (Nat.le_refl _), hset _ _ (Nat.le_add_right ..),
    hset _ _ (Nat.le_add_right ..), hset _ _ (Nat.le_add_right ..)]

theorem drop_store16 {v : BitVec 16} (h : off + 2 ≤ n) :
    (store16 buf off v).drop n = buf.drop n := by
  rw [store16, List.drop_set_of_lt (by omega), List.drop_set_of_lt (by omega)]

theorem drop_store32 {v : BitVec 32} (h : off + 4 ≤ n) :
    (store32 buf off v).drop n = buf.drop n := by
  rw [store32, List.drop_set_of_lt (by omega), List.drop_set_of_lt (by omega),
    List.drop_set_of_lt (by omega), List.drop_set_of_lt (by omega)]

theorem byteAt_store16_ne {v : BitVec 16} (h : i < off ∨ off + 2 ≤ i) :
    byteAt (store16 buf off v) i = byteAt buf i := by
  rw [store16, byteAt_set_ne (by omega), byteAt_set_ne (by omega)]

theorem byteAt_store32_ne {v : BitVec 32} (h : i < off ∨ off + 4 ≤ i) :
    byteAt (store32 buf off v) i = byteAt buf i := by
  rw [store32, byteAt_set_ne (by omega), byteAt_set_ne (by omega), byteAt_set_ne (by omega),
    byteAt_set_ne (by omega)]

/-! ## Words -/

/-- A word is read from four bytes only. -/
theorem load32_congr {buf' : List Byte}
    (h : ∀ i, off ≤ i → i < off + 4 → byteAt buf i = byteAt buf' i) :
    load32 buf off = load32 buf' off := by
  unfold load32
  rw [h (off + 3) (by omega) (by omega), h (off + 2) (by omega) (by omega),
    h (off + 1) (by omega) (by omega), h off (by omega) (by omega)]

theorem load16_congr {buf' : List Byte}
    (h : ∀ i, off ≤ i → i < off + 2 → byteAt buf i = byteAt buf' i) :
    load16 buf off = load16 buf' off := by
  unfold load16
  rw [h (off + 1) (by omega) (by omega), h off (by omega) (by omega)]

theorem load16_of_take_eq {buf' : List Byte} (h : buf.take n = buf'.take n) (hn : off + 2 ≤ n) :
    load16 buf off = load16 buf' off :=
  load16_congr fun _ _ hi => byteAt_of_take_eq h (by omega)

theorem load32_of_take_eq {buf' : List Byte} (h : buf.take n = buf'.take n) (hn : off + 4 ≤ n) :
    load32 buf off = load32 buf' off :=
  load32_congr fun _ _ hi => byteAt_of_take_eq h (by omega)

theorem load32_drop (n : Nat) : load32 (buf.drop n) off = load32 buf (n + off) := by
  simp only [load32, byteAt_drop, Nat.add_assoc]

/-- A store elsewhere. -/
theorem load32_store16_ne {v : BitVec 16} (h : off + 4 ≤ i ∨ i + 2 ≤ off) :
    load32 (store16 buf i v) off = load32 buf off :=
  load32_congr fun _ _ _ => byteAt_store16_ne (by omega)

theorem load16_store32_ne {v : BitVec 32} (h : off + 2 ≤ i ∨ i + 4 ≤ off) :
    load16 (store32 buf i v) off = load16 buf off :=
  load16_congr fun _ _ _ => byteAt_store32_ne (by omega)

theorem load32_store32_ne {v : BitVec 32} (h : off + 4 ≤ i ∨ i + 4 ≤ off) :
    load32 (store32 buf i v) off = load32 buf off :=
  load32_congr fun _ _ _ => byteAt_store32_ne (by omega)

theorem load16_store16_ne {v : BitVec 16} (h : off + 2 ≤ i ∨ i + 2 ≤ off) :
    load16 (store16 buf i v) off = load16 buf off :=
  load16_congr fun _ _ _ => byteAt_store16_ne (by omega)

theorem load16_store16 {v : BitVec 16} (h : off + 2 ≤ buf.length) :
    load16 (store16 buf off v) off = v := by
  unfold load16 store16
  rw [byteAt_set_self (by rw [List.length_set]; omega), byteAt_set_ne (by omega),
    byteAt_set_self (by omega)]
  refine BitVec.eq_of_getLsbD_eq ?_
  intro i hi
  simp only [BitVec.getLsbD_append, BitVec.getLsbD_extractLsb']
  grind

theorem load32_store32 {v : BitVec 32} (h : off + 4 ≤ buf.length) :
    load32 (store32 buf off v) off = v := by
  unfold load32 store32
  rw [byteAt_set_self (by simp; omega), byteAt_set_ne (by omega), byteAt_set_self (by simp; omega),
    byteAt_set_ne (by omega), byteAt_set_ne (by omega), byteAt_set_self (by simp; omega),
    byteAt_set_ne (by omega), byteAt_set_ne (by omega), byteAt_set_ne (by omega),
    byteAt_set_self (by omega)]
  refine BitVec.eq_of_getLsbD_eq ?_
  intro i hi
  simp only [BitVec.getLsbD_append, BitVec.getLsbD_extractLsb']
  grind

/-! ## Stores at different places -/

theorem set_store16_comm {v : BitVec 16} (h : j < off ∨ off + 2 ≤ j) :
    (store16 buf off v).set j b = store16 (buf.set j b) off v := by
  rw [store16, store16, List.set_comm _ _ (by omega : off + 1 ≠ j),
    List.set_comm _ _ (by omega : off ≠ j)]

theorem set_store32_comm {v : BitVec 32} (h : j < off ∨ off + 4 ≤ j) :
    (store32 buf off v).set j b = store32 (buf.set j b) off v := by
  rw [store32, store32, List.set_comm _ _ (by omega : off + 3 ≠ j),
    List.set_comm _ _ (by omega : off + 2 ≠ j), List.set_comm _ _ (by omega : off + 1 ≠ j),
    List.set_comm _ _ (by omega : off ≠ j)]

theorem store16_store16_comm {v w : BitVec 16} (h : i + 2 ≤ off ∨ off + 2 ≤ i) :
    store16 (store16 buf off v) i w = store16 (store16 buf i w) off v := by
  rw [store16, set_store16_comm (by omega), set_store16_comm (by omega), ← store16]

theorem store16_store32_comm {v : BitVec 32} {w : BitVec 16} (h : i + 2 ≤ off ∨ off + 4 ≤ i) :
    store16 (store32 buf off v) i w = store32 (store16 buf i w) off v := by
  rw [store16, set_store32_comm (by omega), set_store32_comm (by omega), ← store16]

theorem store32_store32_comm {v w : BitVec 32} (h : i + 4 ≤ off ∨ off + 4 ≤ i) :
    store32 (store32 buf off v) i w = store32 (store32 buf i w) off v := by
  rw [store32, set_store32_comm (by omega), set_store32_comm (by omega),
    set_store32_comm (by omega), set_store32_comm (by omega), ← store32]

/-! ## Words of a sequence -/

theorem store16_append {v : BitVec 16} (h : off + 2 ≤ buf.length) :
    store16 (buf ++ rest) off v = store16 buf off v ++ rest := by
  unfold store16
  rw [List.set_append_left _ _ (by omega), List.set_append_left _ _ (by rw [List.length_set]; omega)]

theorem store32_append {v : BitVec 32} (h : off + 4 ≤ buf.length) :
    store32 (buf ++ rest) off v = store32 buf off v ++ rest := by
  unfold store32
  rw [List.set_append_left _ _ (by omega), List.set_append_left _ _ (by simp; omega),
    List.set_append_left _ _ (by simp; omega), List.set_append_left _ _ (by simp; omega)]

theorem isSome_memcpy {data : List Byte} :
    (memcpy buf off data).isSome ↔ off + data.length ≤ buf.length := by
  unfold memcpy
  split
  · next h => simp [h]
  · next h => simp [h]

/-- The copy takes the place of as many bytes. -/
theorem memcpy_append (buf old rest : List Byte) {data : List Byte}
    (h : old.length = data.length) :
    memcpy (buf ++ old ++ rest) buf.length data = some (buf ++ data ++ rest) := by
  have hfits : buf.length + data.length ≤ (buf ++ old ++ rest).length := by
    rw [List.length_append, List.length_append]
    omega
  have hbefore : (buf ++ old ++ rest).take buf.length = buf := by
    rw [List.append_assoc, List.take_left]
  have hafter : (buf ++ old ++ rest).drop (buf.length + data.length) = rest := by
    rw [← h, ← List.length_append, List.drop_left]
  rw [memcpy, if_pos hfits, hbefore, hafter]

/-- What lies before the copy and the copy itself; the buffer keeps its size. -/
theorem memcpy_spec {data buf' : List Byte} (h : memcpy buf off data = some buf') :
    buf'.length = buf.length ∧ buf'.take (off + data.length) = buf.take off ++ data := by
  simp only [memcpy, Option.ite_none_right_eq_some, Option.some.injEq] at h
  obtain ⟨hle, rfl⟩ := h
  have htake : (buf.take off ++ data).length = off + data.length := by
    rw [List.length_append, List.length_take]
    omega
  constructor
  · rw [List.length_append, htake, List.length_drop]
    omega
  · rw [← htake, List.take_left]

@[simp] theorem length_bytes16 (v : BitVec 16) : (bytes16 v).length = 2 := rfl

@[simp] theorem length_bytes32 (v : BitVec 32) : (bytes32 v).length = 4 := rfl

theorem load16_bytes16 (v : BitVec 16) (rest : List Byte) : load16 (bytes16 v ++ rest) 0 = v := by
  change v.extractLsb' 8 8 ++ v.extractLsb' 0 8 = v
  refine BitVec.eq_of_getLsbD_eq ?_
  intro i hi
  simp only [BitVec.getLsbD_append, BitVec.getLsbD_extractLsb']
  grind

theorem load32_bytes32 (v : BitVec 32) (rest : List Byte) : load32 (bytes32 v ++ rest) 0 = v := by
  change v.extractLsb' 24 8 ++ v.extractLsb' 16 8 ++ v.extractLsb' 8 8 ++ v.extractLsb' 0 8 = v
  refine BitVec.eq_of_getLsbD_eq ?_
  intro i hi
  simp only [BitVec.getLsbD_append, BitVec.getLsbD_extractLsb']
  grind

/-! Fields are found by skipping those before them. -/

theorem load32_cons (b : Byte) (l : List Byte) (n : Nat) :
    load32 (b :: l) (n + 1) = load32 l n := rfl

theorem load16_skip16 (v : BitVec 16) (l : List Byte) (n : Nat) :
    load16 (bytes16 v ++ l) (n + 2) = load16 l n := rfl

theorem load16_skip32 (v : BitVec 32) (l : List Byte) (n : Nat) :
    load16 (bytes32 v ++ l) (n + 4) = load16 l n := rfl

theorem load32_skip16 (v : BitVec 16) (l : List Byte) (n : Nat) :
    load32 (bytes16 v ++ l) (n + 2) = load32 l n := rfl

theorem load32_skip32 (v : BitVec 32) (l : List Byte) (n : Nat) :
    load32 (bytes32 v ++ l) (n + 4) = load32 l n := rfl

end Bytes
