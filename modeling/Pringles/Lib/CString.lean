import Pringles.Lib.Bytes

/-!
# C strings

The string that a pointer into a buffer stands for: the bytes up to the first zero. When there is no
zero in the buffer, the string is read from behind it, and there is no telling what it is (`none`).
-/

namespace Bytes

variable {l p : List Byte} {b : Byte}

def cstr : List Byte → Option (List Byte)
  | [] => none
  | b :: l => if b = 0 then some [] else (cstr l).map (b :: ·)

/-- `l` begins with the characters of `p` and its terminator. -/
def Terminated (p l : List Byte) : Prop := 0 ∉ p ∧ p ++ [0] <+: l

theorem Terminated.length_lt (h : Terminated p l) : p.length < l.length := by
  have hle := h.2.length_le
  rw [List.length_append, List.length_singleton] at hle
  omega

theorem terminated_nil : Terminated [] l ↔ ∃ l', l = 0 :: l' := by
  simp [Terminated, List.IsPrefix, eq_comm]

theorem terminated_cons {c : Byte} :
    Terminated (c :: p) (b :: l) ↔ c ≠ 0 ∧ c = b ∧ Terminated p l := by
  simp only [Terminated, List.mem_cons, not_or, List.cons_append, List.cons_prefix_cons]
  constructor
  · rintro ⟨⟨hc, hp⟩, hb, hpre⟩
    exact ⟨Ne.symm hc, hb, hp, hpre⟩
  · rintro ⟨hc, hb, hp, hpre⟩
    exact ⟨⟨Ne.symm hc, hp⟩, hb, hpre⟩

/-- A string of which the first `n` characters are there, with its terminator when that is among
them, and the rest is up to what follows. -/
theorem terminated_take_append (n : Nat) :
    Terminated p ((p ++ [0]).take n ++ l) ↔ 0 ∉ p ∧ (p ++ [0]).drop n <+: l := by
  have hiff : (p ++ [0]).take n ++ (p ++ [0]).drop n <+: (p ++ [0]).take n ++ l ↔
      (p ++ [0]).drop n <+: l := List.prefix_append_right_inj _
  rw [List.take_append_drop] at hiff
  exact and_congr_right fun _ => hiff

theorem cstr_eq_some : cstr l = some p ↔ Terminated p l := by
  induction l generalizing p with
  | nil => simp [cstr, Terminated]
  | cons b l ih =>
    unfold cstr
    by_cases hb : b = 0
    · subst hb
      rw [if_pos rfl]
      cases p with
      | nil => simp [terminated_nil]
      | cons c p =>
        rw [terminated_cons]
        refine iff_of_false (by simp) ?_
        rintro ⟨hc, rfl, -⟩
        exact hc rfl
    · rw [if_neg hb]
      cases p with
      | nil =>
        refine iff_of_false (by simp) ?_
        rw [terminated_nil]
        rintro ⟨l', h⟩
        exact hb (List.cons.inj h).1
      | cons c p =>
        rw [terminated_cons, ← ih, Option.map_eq_some_iff]
        constructor
        · rintro ⟨p', hp', h⟩
          obtain ⟨rfl, rfl⟩ := List.cons.inj h
          exact ⟨hb, rfl, hp'⟩
        · rintro ⟨-, rfl, hp⟩
          exact ⟨p, hp, rfl⟩

end Bytes
