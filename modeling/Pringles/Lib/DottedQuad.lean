import Mathlib.Data.BitVec

/-!
# Numbers and addresses as texts

Decimal numbers, and IPv4 addresses with the four bytes in decimal (`inet_ntop`, and the way back of
`getaddrinfo` for a text of this form). An address is a word in network byte order: its first byte is
the lowest one. What was written is read back (`parse_inetNtop`).
-/

namespace DottedQuad

/-- The number that a text of digits stands for. -/
def number (s : String) : Option Nat :=
  if s.toList ≠ [] ∧ s.toList.all Char.isDigit then some (Nat.ofDigitChars 10 s.toList 0) else none

/-- The bytes of an address, in the order in which they are written. -/
def octets (ip : BitVec 32) : List (BitVec 8) :=
  [ip.extractLsb' 0 8, ip.extractLsb' 8 8, ip.extractLsb' 16 8, ip.extractLsb' 24 8]

def inetNtop (ip : BitVec 32) : String :=
  (String.singleton '.').intercalate ((octets ip).map fun o => o.toNat.repr)

/-- The address of four numbers, if each is one of a byte. -/
def ofOctets : List (Option Nat) → Option (BitVec 32)
  | [some a, some b, some c, some d] =>
    if a < 256 ∧ b < 256 ∧ c < 256 ∧ d < 256 then
      some (BitVec.ofNat 8 d ++ BitVec.ofNat 8 c ++ BitVec.ofNat 8 b ++ BitVec.ofNat 8 a)
    else none
  | _ => none

def parse (s : String) : Option (BitVec 32) :=
  ofOctets (((s.split '.').toList.map fun part => part.copy).map number)

theorem number_repr (n : Nat) : number n.repr = some n := by
  have hdigits : n.repr.toList ≠ [] ∧ n.repr.toList.all Char.isDigit := by
    rw [Nat.toList_repr, List.all_eq_true]
    refine ⟨?_, fun c hc => Nat.isDigit_of_mem_toDigits (by omega) (by omega) hc⟩
    intro hnil
    exact Nat.repr_ne_empty (String.toList_eq_nil_iff.1 (Nat.toList_repr.trans hnil))
  rw [number, if_pos hdigits, Nat.toList_repr, Nat.ofDigitChars_ten_toDigits]

theorem dot_notMem_repr (n : Nat) : '.' ∉ n.repr.toList := by
  rw [Nat.toList_repr]
  intro hdot
  exact Bool.false_ne_true (Nat.isDigit_of_mem_toDigits (by omega) (by omega) hdot)

/-- The words that four bytes make up. -/
theorem ofOctets_octets (ip : BitVec 32) :
    ofOctets ((octets ip).map fun o => some o.toNat) = some ip := by
  have hlt : ∀ o : BitVec 8, o.toNat < 256 := fun o => o.isLt
  have hword : ip.extractLsb' 24 8 ++ ip.extractLsb' 16 8 ++ ip.extractLsb' 8 8 ++
      ip.extractLsb' 0 8 = ip := by
    refine BitVec.eq_of_getLsbD_eq ?_
    intro i hi
    simp only [BitVec.getLsbD_append, BitVec.getLsbD_extractLsb']
    grind
  simp only [octets, List.map_cons, List.map_nil, ofOctets, hlt, and_self, ↓reduceIte,
    BitVec.ofNat_toNat, BitVec.setWidth_eq, hword]

/-- **An address is read back from its text.** -/
theorem parse_inetNtop (ip : BitVec 32) : parse (inetNtop ip) = some ip := by
  have hparts : ((inetNtop ip).split '.').toList.map (fun part => part.copy) =
      (octets ip).map fun o => o.toNat.repr := by
    refine (String.toList_split_intercalate ?_).trans (if_neg (by simp [octets]))
    intro s hs
    obtain ⟨o, -, rfl⟩ := List.mem_map.1 hs
    exact dot_notMem_repr _
  rw [parse, hparts, List.map_map, ← ofOctets_octets ip]
  congr 1
  exact List.map_congr_left fun o _ => number_repr o.toNat

theorem inetNtop_ne_empty (ip : BitVec 32) : inetNtop ip ≠ "" := by
  intro hempty
  have hdots := congrArg String.toList hempty
  simp [inetNtop, octets] at hdots

end DottedQuad
