import Mathlib.Data.BitVec
import Mathlib.Data.List.Basic

/-!
# Formats of bits

A format writes the valid values of a type as strings of bits of one width and reads them back from
the front of a longer string. Reading and writing are inverse to each other in the strong sense: what
is read off a string and what is left over make up the string (`read_eq_some_iff`), and a string that
is long enough can always be read (`read_isSome_iff`).

Numbers come with the most significant bit first. A record whose validity is one of its fields is a
format by `header`: it writes the other fields one after the other.
-/

universe u v

namespace Bits

variable {w : Nat} {l r : List Bool} {x : BitVec w}

/-- The bits of a number. -/
def write : {w : Nat} → BitVec w → List Bool
  | 0, _ => []
  | w + 1, x => x.msb :: write (x.setWidth w)

def read : (w : Nat) → List Bool → Option (BitVec w × List Bool)
  | 0, l => some (0, l)
  | _ + 1, [] => none
  | w + 1, b :: l => (read w l).map fun p => (BitVec.cons b p.1, p.2)

@[simp] theorem length_write (x : BitVec w) : (write x).length = w := by
  induction w with
  | zero => rfl
  | succ w ih => simp [write, ih]

theorem getElem?_write (x : BitVec w) (i : Nat) :
    (write x)[i]? = if i < w then some (x.getMsbD i) else none := by
  induction w generalizing i with
  | zero => simp [write]
  | succ w ih =>
    cases i with
    | zero => simp [write, BitVec.msb]
    | succ i =>
      rw [write, List.getElem?_cons_succ, ih]
      simp only [Nat.add_lt_add_iff_right]
      split
      · have hidx : i + (w + 1) - w = i + 1 := by omega
        simp [BitVec.getMsbD_setWidth, hidx]
      · rfl

theorem write_append {v : Nat} (x : BitVec w) (y : BitVec v) :
    write (x ++ y) = write x ++ write y := by
  refine List.ext_getElem? fun i => ?_
  rw [List.getElem?_append, length_write, getElem?_write, getElem?_write, getElem?_write,
    BitVec.getMsbD_append]
  by_cases hi : i < w
  · rw [if_pos hi, if_pos hi, if_pos (by omega)]
    simp [hi]
  · rw [if_neg hi]
    by_cases hv : i - w < v
    · rw [if_pos hv, if_pos (by omega)]
      simp [hi]
    · rw [if_neg hv, if_neg (by omega)]

theorem read_write (x : BitVec w) (r : List Bool) : read w (write x ++ r) = some (x, r) := by
  induction w with
  | zero => simp [read, write, BitVec.eq_nil x]
  | succ w ih => simp [read, write, ih]

theorem eq_of_read (h : read w l = some (x, r)) : l = write x ++ r := by
  induction w generalizing l with
  | zero =>
    simp only [read, Option.some.injEq, Prod.mk.injEq] at h
    exact h.2
  | succ w ih =>
    cases l with
    | nil => simp [read] at h
    | cons b l =>
      simp only [read, Option.map_eq_some_iff, Prod.mk.injEq, Prod.exists] at h
      obtain ⟨y, _, hy, rfl, rfl⟩ := h
      simp [write, ih hy]

theorem read_isSome_iff : (read w l).isSome = true ↔ w ≤ l.length := by
  induction w generalizing l with
  | zero => simp [read]
  | succ w ih =>
    cases l with
    | nil => simp [read]
    | cons b l => simp [read, ih]

end Bits

/-- A format of bits of one width. -/
structure BitFormat (α : Type u) where
  width : Nat
  valid : α → Bool
  write : α → List Bool
  read : List Bool → Option (α × List Bool)
  length_write : ∀ a, (write a).length = width
  read_eq_some_iff : ∀ {l a r}, read l = some (a, r) ↔ valid a = true ∧ l = write a ++ r
  read_isSome_iff : ∀ {l}, (read l).isSome = true ↔ width ≤ l.length

namespace BitFormat

variable {α : Type u} {β : Type v} {f : BitFormat α} {g : BitFormat β} {a : α}
  {l r : List Bool}

/-! ## Fields, sequences and headers -/

def field (w : Nat) : BitFormat (BitVec w) where
  width := w
  valid := fun _ => true
  write := Bits.write
  read := Bits.read w
  length_write := Bits.length_write
  read_eq_some_iff := by
    intro l x r
    constructor
    · exact fun h => ⟨rfl, Bits.eq_of_read h⟩
    · rintro ⟨-, rfl⟩
      exact Bits.read_write x r
  read_isSome_iff := Bits.read_isSome_iff

/-- One format behind the other. -/
def seq (f : BitFormat α) (g : BitFormat β) : BitFormat (α × β) where
  width := f.width + g.width
  valid := fun p => f.valid p.1 && g.valid p.2
  write := fun p => f.write p.1 ++ g.write p.2
  read := fun l => (f.read l).bind fun p => (g.read p.2).map fun q => ((p.1, q.1), q.2)
  length_write := by
    intro p
    rw [List.length_append, f.length_write, g.length_write]
  read_eq_some_iff := by
    rintro l ⟨a, b⟩ r
    simp only [Option.bind_eq_some_iff, Option.map_eq_some_iff, Prod.exists, Prod.mk.injEq,
      f.read_eq_some_iff, g.read_eq_some_iff, Bool.and_eq_true]
    constructor
    · rintro ⟨_, _, ⟨ha, rfl⟩, _, _, ⟨hb, rfl⟩, ⟨rfl, rfl⟩, rfl⟩
      exact ⟨⟨ha, hb⟩, by rw [List.append_assoc]⟩
    · rintro ⟨⟨ha, hb⟩, rfl⟩
      exact ⟨a, _, ⟨ha, by rw [List.append_assoc]⟩, b, r, ⟨hb, rfl⟩, ⟨rfl, rfl⟩, rfl⟩
  read_isSome_iff := by
    intro l
    cases hf : f.read l with
    | none =>
      have hlt : ¬ f.width ≤ l.length := by simp [← f.read_isSome_iff, hf]
      simp only [Option.bind_none, Option.isSome_none, Bool.false_eq_true, false_iff]
      omega
    | some p =>
      obtain ⟨-, rfl⟩ := f.read_eq_some_iff.1 hf
      simp only [Option.bind_some, Option.isSome_map, g.read_isSome_iff, List.length_append,
        f.length_write]
      omega

/-- A record with a validity bit: reading makes it valid. -/
def header (f : BitFormat β) (isValid : α → Bool) (fields : α → β) (make : β → α)
    (hf : ∀ b, f.valid b = true) (hmake : ∀ b, isValid (make b) = true)
    (hfields : ∀ b, fields (make b) = b)
    (hvalid : ∀ a, isValid a = true → make (fields a) = a) : BitFormat α where
  width := f.width
  valid := isValid
  write := fun a => f.write (fields a)
  read := fun l => (f.read l).map fun p => (make p.1, p.2)
  length_write := fun a => f.length_write (fields a)
  read_eq_some_iff := by
    intro l a r
    simp only [Option.map_eq_some_iff, Prod.exists, Prod.mk.injEq, f.read_eq_some_iff, hf,
      true_and]
    constructor
    · rintro ⟨b, _, rfl, rfl, rfl⟩
      exact ⟨hmake b, by rw [hfields]⟩
    · rintro ⟨ha, rfl⟩
      exact ⟨fields a, r, rfl, hvalid a ha, rfl⟩
  read_isSome_iff := by
    intro l
    rw [Option.isSome_map, f.read_isSome_iff]

/-! ## Reading -/

theorem read_write (ha : f.valid a = true) (r : List Bool) :
    f.read (f.write a ++ r) = some (a, r) :=
  f.read_eq_some_iff.2 ⟨ha, rfl⟩

theorem read_eq_none_iff : f.read l = none ↔ l.length < f.width := by
  rw [← Option.not_isSome_iff_eq_none, f.read_isSome_iff, Nat.not_le]

/-- The value at the front of a string; `d` stands for it where the string is too short. -/
def peek (f : BitFormat α) (d : α) (l : List Bool) : α := ((f.read l).map Prod.fst).getD d

theorem peek_write (ha : f.valid a = true) (d : α) (r : List Bool) :
    f.peek d (f.write a ++ r) = a := by
  simp [peek, read_write ha]

theorem drop_write (a : α) (r : List Bool) : (f.write a ++ r).drop f.width = r := by
  rw [← f.length_write a, List.drop_left]

/-- A string that is long enough is read at its front. -/
theorem read_of_le (d : α) (h : f.width ≤ l.length) :
    f.read l = some (f.peek d l, l.drop f.width) := by
  obtain ⟨⟨a, r⟩, hread⟩ := Option.isSome_iff_exists.1 (f.read_isSome_iff.2 h)
  obtain ⟨ha, rfl⟩ := f.read_eq_some_iff.1 hread
  rw [peek_write ha, hread, drop_write]

/-! ## Emitting -/

/-- An invalid value is not written at all. -/
def emit (f : BitFormat α) (a : α) : List Bool := if f.valid a then f.write a else []

theorem emit_valid (ha : f.valid a = true) : f.emit a = f.write a := if_pos ha

theorem emit_invalid (ha : f.valid a = false) : f.emit a = [] := by simp [emit, ha]

theorem length_emit (f : BitFormat α) (a : α) :
    (f.emit a).length = if f.valid a then f.width else 0 := by
  unfold emit
  split
  · exact f.length_write a
  · rfl

/-- What was read is emitted again. -/
theorem emit_append_of_read (h : f.read l = some (a, r)) : f.emit a ++ r = l := by
  obtain ⟨ha, rfl⟩ := f.read_eq_some_iff.1 h
  rw [emit_valid ha]

end BitFormat
