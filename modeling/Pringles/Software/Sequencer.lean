import Mathlib.Data.Fintype.Card
import Mathlib.Data.List.Perm.Subperm
import Mathlib.Logic.Function.Basic
import Pringles.Lib.Machine
import Pringles.Software.RingHeaders

/-!
# The sequencer of the software switch

The threads of `append_request` share the atomic counter `max_idx`. For each append a thread makes
two atomic operations on it, the increment and then a load, and stamps what it has loaded. Between
the two another thread may increment: then both load a number above the first increment, so a number
is lost for good (`Lost`) and another one is given out twice.
-/

namespace Pringles.Software

/-! ## The threads -/

/-- The next operation of a thread on `max_idx`. -/
inductive Pc where
  | increment
  | load
deriving DecidableEq

/-- The part of `LogSoftwareSwitch` that numbers appends: the counter, the threads, and `g_idx` of
the appends forwarded so far, in network byte order. `appends` counts the increments; no thread
reads it. -/
structure Sequencer (τ : Type) where
  maxIdx : BitVec 64 := 0
  pc : τ → Pc := fun _ => .increment
  forwarded : List (BitVec 32) := []
  appends : Nat := 0

namespace Sequencer

variable {τ : Type}

/-- The numbers of the forwarded appends. -/
def numbers (s : Sequencer τ) : List Nat := s.forwarded.map fun g => (ntohl g).toNat

/-- No thread is between its increment and its load. -/
def Quiet (s : Sequencer τ) : Prop := ∀ t, s.pc t ≠ .load

/-- If thread `t` increments next, no thread is between its increment and its load. -/
def Exclusive (s : Sequencer τ) (t : τ) : Prop := s.pc t = .increment → s.Quiet

/-- No number twice, and no gap whenever no append is in between. -/
def Sequenced (s : Sequencer τ) : Prop :=
  s.numbers.Nodup ∧ (s.Quiet → ∀ n, n ∈ s.numbers ↔ 1 ≤ n ∧ n ≤ s.numbers.length)

/-! ## What a run keeps -/

section
variable [Fintype τ] {s : Sequencer τ} {t : τ}

/-- The threads that are between their increment and their load. -/
def between (s : Sequencer τ) : Finset τ := {t | s.pc t = .load}

theorem mem_between : t ∈ s.between ↔ s.pc t = .load := by
  simp [between]

theorem quiet_iff : s.Quiet ↔ s.between = ∅ := by
  simp [Quiet, Finset.eq_empty_iff_forall_notMem, mem_between]

/-- Every increment is between its thread's operations or has become a number. -/
structure Inv (s : Sequencer τ) : Prop where
  count : s.maxIdx = BitVec.ofNat 64 s.appends
  split : s.appends = s.numbers.length + s.between.card

theorem inv_init : Inv ({} : Sequencer τ) where
  count := rfl
  split := by simp [numbers, between]

/-- As long as increments are exclusive the numbers are given out in order. -/
structure Ordered (s : Sequencer τ) : Prop where
  single : s.between.card ≤ 1
  numbers : s.numbers = List.range' 1 s.numbers.length

theorem ordered_init : Ordered ({} : Sequencer τ) where
  single := by simp [between]
  numbers := rfl

theorem Ordered.sequenced (ho : s.Ordered) : s.Sequenced := by
  constructor
  · rw [ho.numbers]
    exact List.nodup_range'
  · intro _ n
    rw [ho.numbers, List.mem_range'_1, List.length_range']
    omega

/-- Too few of the numbers up to `m` have been given out, and the counter has passed `m`. -/
def Lost (s : Sequencer τ) : Prop :=
  ∃ m, m < s.appends ∧ (s.numbers.filter (· ≤ m)).length < m

theorem Lost.not_sequenced (hl : s.Lost) (h : s.Inv) (hq : s.Quiet) : ¬ s.Sequenced := by
  rintro ⟨-, hall⟩
  obtain ⟨m, hm, hfew⟩ := hl
  have hk : s.numbers.length = s.appends := by
    rw [h.split, quiet_iff.1 hq, Finset.card_empty, Nat.add_zero]
  have hsub : List.range' 1 m ⊆ s.numbers.filter (· ≤ m) := by
    intro n hn
    rw [List.mem_range'_1] at hn
    rw [List.mem_filter, hall hq]
    exact ⟨⟨hn.1, by omega⟩, by simp; omega⟩
  have hlen := (List.subperm_of_subset List.nodup_range' hsub).length_le
  rw [List.length_range'] at hlen
  omega

end

/-! ## Steps -/

section
variable [DecidableEq τ]

/-- Thread `t` up to its next operation on `max_idx`. The load is the argument of `htonl`: what it
yields is stamped on the append, which is forwarded with it. -/
def appendRequest (s : Sequencer τ) (t : τ) : Sequencer τ :=
  match s.pc t with
  | .increment =>
    { s with
      maxIdx := s.maxIdx + 1, pc := Function.update s.pc t .load, appends := s.appends + 1 }
  | .load =>
    { s with
      pc := Function.update s.pc t .increment
      forwarded := s.forwarded ++ [htonl (s.maxIdx.truncate 32)] }

variable (τ) in
/-- Any thread may move at any time. The output of a step is the state that it found. -/
def machine : Machine (Sequencer τ) τ (Sequencer τ) :=
  ⟨fun s t => some (s.appendRequest t, s)⟩

variable {s s' found : Sequencer τ} {t : τ} {tr : List (τ × Sequencer τ)}

theorem machine_eq_some (h : (machine τ).step s t = some (s', found)) :
    s' = s.appendRequest t ∧ found = s := by
  simp only [machine, Option.some.injEq, Prod.mk.injEq] at h
  exact ⟨h.1.symm, h.2.symm⟩

theorem appendRequest_increment (h : s.pc t = .increment) : s.appendRequest t =
    { s with
      maxIdx := s.maxIdx + 1, pc := Function.update s.pc t .load, appends := s.appends + 1 } := by
  simp [appendRequest, h]

theorem appendRequest_load (h : s.pc t = .load) : s.appendRequest t =
    { s with
      pc := Function.update s.pc t .increment
      forwarded := s.forwarded ++ [htonl (s.maxIdx.truncate 32)] } := by
  simp [appendRequest, h]

theorem numbers_increment (hpc : s.pc t = .increment) :
    (s.appendRequest t).numbers = s.numbers := by
  rw [appendRequest_increment hpc]
  rfl

theorem appends_le : s.appends ≤ (s.appendRequest t).appends := by
  cases hpc : s.pc t with
  | increment =>
    rw [appendRequest_increment hpc]
    exact Nat.le_succ _
  | load => rw [appendRequest_load hpc]

variable [Fintype τ]

theorem between_increment (h : s.pc t = .increment) :
    (s.appendRequest t).between = insert t s.between := by
  ext u
  rw [appendRequest_increment h, Finset.mem_insert, mem_between, mem_between]
  by_cases hu : u = t
  · simp [hu]
  · simp [hu]

theorem between_load (h : s.pc t = .load) : (s.appendRequest t).between = s.between.erase t := by
  ext u
  rw [appendRequest_load h, Finset.mem_erase, mem_between, mem_between]
  by_cases hu : u = t
  · simp [hu]
  · simp [hu]

theorem Inv.step (h : s.Inv) (t : τ) : (s.appendRequest t).Inv := by
  cases hpc : s.pc t with
  | increment =>
    have hnot : t ∉ s.between := by simp [mem_between, hpc]
    constructor
    · rw [appendRequest_increment hpc, h.count]
      exact (BitVec.ofNat_add ..).symm
    · rw [between_increment hpc, Finset.card_insert_of_notMem hnot, appendRequest_increment hpc]
      have := h.split
      simp only [numbers] at this ⊢
      omega
  | load =>
    have hmem : t ∈ s.between := mem_between.2 hpc
    have hpos := Finset.card_pos.2 ⟨t, hmem⟩
    constructor
    · rw [appendRequest_load hpc]
      exact h.count
    · rw [between_load hpc, Finset.card_erase_of_mem hmem, appendRequest_load hpc]
      have := h.split
      simp only [numbers, List.map_append, List.length_append, List.map_cons, List.map_nil,
        List.length_singleton] at this ⊢
      omega

/-- A load stamps the number of increments so far. -/
theorem Inv.numbers_load (h : s.Inv) (hlt : s.appends < 2 ^ 32) (hpc : s.pc t = .load) :
    (s.appendRequest t).numbers = s.numbers ++ [s.appends] := by
  rw [appendRequest_load hpc, numbers, List.map_append, List.map_singleton, ntohl_htonl, h.count]
  simp only [BitVec.truncate_eq_setWidth, BitVec.toNat_setWidth, BitVec.toNat_ofNat]
  rw [Nat.mod_eq_of_lt (by omega : s.appends < 2 ^ 64), Nat.mod_eq_of_lt hlt]
  rfl

theorem Ordered.step (ho : s.Ordered) (h : s.Inv) (hlt : s.appends < 2 ^ 32)
    (hx : s.Exclusive t) : (s.appendRequest t).Ordered := by
  cases hpc : s.pc t with
  | increment =>
    constructor
    · rw [between_increment hpc, quiet_iff.1 (hx hpc)]
      simp
    · rw [numbers_increment hpc]
      exact ho.numbers
  | load =>
    have hmem : t ∈ s.between := mem_between.2 hpc
    have hpos := Finset.card_pos.2 ⟨t, hmem⟩
    have hsingle := ho.single
    have hsplit := h.split
    constructor
    · rw [between_load hpc, Finset.card_erase_of_mem hmem]
      omega
    · have hnext : s.appends = 1 + s.numbers.length := by omega
      rw [h.numbers_load hlt hpc, List.length_append, List.length_singleton, List.range'_concat,
        ← ho.numbers, hnext, Nat.one_mul]

/-- An increment while a thread is between its operations loses a number. -/
theorem Inv.lost (h : s.Inv) (hpc : s.pc t = .increment) (hq : ¬ s.Quiet) :
    (s.appendRequest t).Lost := by
  have hpos : 0 < s.between.card :=
    Finset.card_pos.2 (Finset.nonempty_iff_ne_empty.2 (mt quiet_iff.2 hq))
  have hle := List.length_filter_le (· ≤ s.appends) s.numbers
  have hsplit := h.split
  refine ⟨s.appends, ?_, ?_⟩
  · rw [appendRequest_increment hpc]
    exact Nat.lt_succ_self _
  · rw [numbers_increment hpc]
    omega

/-- What is lost is never given out. -/
theorem Lost.step (hl : s.Lost) (h : s.Inv) (hlt : s.appends < 2 ^ 32) (t : τ) :
    (s.appendRequest t).Lost := by
  obtain ⟨m, hm, hfew⟩ := hl
  refine ⟨m, Nat.lt_of_lt_of_le hm appends_le, ?_⟩
  cases hpc : s.pc t with
  | increment => rwa [numbers_increment hpc]
  | load =>
    rw [h.numbers_load hlt hpc, List.filter_append, List.filter_singleton]
    simpa [Nat.not_le.2 hm] using hfew

/-! ## Runs -/

/-- In every run the numbers are in order if all increments were exclusive, and else one is lost. -/
theorem inv_run (hr : (machine τ).Run {} tr s) (hlt : s.appends < 2 ^ 32) :
    s.Inv ∧ ((∀ x ∈ tr, x.2.Exclusive x.1) → s.Ordered) ∧
      ((∃ x ∈ tr, ¬ x.2.Exclusive x.1) → s.Lost) := by
  refine hr.invariant (A := fun _ => True) (B := fun s => s.appends < 2 ^ 32)
    (I := fun tr s => s.Inv ∧ ((∀ x ∈ tr, x.2.Exclusive x.1) → s.Ordered) ∧
      ((∃ x ∈ tr, ¬ x.2.Exclusive x.1) → s.Lost)) ?_ ?_ (fun _ _ => trivial)
    ⟨inv_init, fun _ => ordered_init, by simp⟩ hlt
  · intro s t s' found _ hs hlt
    obtain ⟨rfl, -⟩ := machine_eq_some hs
    exact Nat.lt_of_le_of_lt appends_le hlt
  · intro tr s t s' found _ ⟨h, hordered, hlost⟩ hlt hs
    obtain ⟨rfl, rfl⟩ := machine_eq_some hs
    have hlt : found.appends < 2 ^ 32 := Nat.lt_of_le_of_lt appends_le hlt
    refine ⟨h.step t, ?_, ?_⟩
    · intro hall
      rw [List.forall_mem_append, List.forall_mem_singleton] at hall
      exact (hordered hall.1).step h hlt hall.2
    · intro hex
      obtain ⟨x, hx, hnot⟩ := hex
      rcases List.mem_append.1 hx with hx | hx
      · exact (hlost ⟨x, hx, hnot⟩).step h hlt t
      · rw [List.mem_singleton.1 hx, Exclusive, Classical.not_imp] at hnot
        exact h.lost hnot.1 hnot.2

/-- **When the software sequencer is right.** In every state of a run in which no thread increments
while another one is between its increment and its load, the numbers are unique and dense; and if
an increment ever overlaps, they are not, once no thread is in between. -/
theorem sequenced_iff (hr : (machine τ).Run {} tr s) (hlt : s.appends < 2 ^ 32) :
    ((∀ x ∈ tr, x.2.Exclusive x.1) → s.Sequenced) ∧
      (s.Quiet → s.Sequenced → ∀ x ∈ tr, x.2.Exclusive x.1) := by
  obtain ⟨h, hordered, hlost⟩ := inv_run hr hlt
  refine ⟨fun hall => (hordered hall).sequenced, ?_⟩
  intro hq hseq x hx
  by_contra hnot
  exact (hlost ⟨x, hx, hnot⟩).not_sequenced h hq hseq

end

/-- Two threads, one after the other. -/
theorem sequenced_iff_two : ∃ tr s, (machine Bool).Run {} tr s ∧ s.numbers = [1, 2] ∧
    s.Sequenced := by
  have hx : (machine Bool).exec {} [true, true, false, false] = some (_, _) := rfl
  obtain ⟨tr, s, hr, hlt, hnum, hall⟩ : ∃ tr s, (machine Bool).Run {} tr s ∧
      s.appends < 2 ^ 32 ∧ s.numbers = [1, 2] ∧ ∀ x ∈ tr, x.2.Exclusive x.1 :=
    ⟨_, _, .of_exec hx, by decide, by decide, by simp [Exclusive, Quiet, appendRequest]⟩
  exact ⟨tr, s, hr, hnum, (sequenced_iff hr hlt).1 hall⟩

/-- Both threads increment before either of them loads: both appends get number two. -/
theorem not_sequenced : ¬ ∀ tr s, (machine Bool).Run {} tr s → s.appends < 2 ^ 32 →
    s.Sequenced := by
  intro hall
  have hx : (machine Bool).exec {} [true, false, true, false] = some (_, _) := rfl
  have hnodup := (hall _ _ (.of_exec hx) (by decide)).1
  exact absurd hnodup (by decide)

end Sequencer

end Pringles.Software
