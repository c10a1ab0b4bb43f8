import Pringles.Lib.LockMap
import Pringles.Lib.Machine
import Pringles.Software.RingHeaders

/-!
# Counting acknowledgements

The threads of `append_response` share `ack_map`, from sequence numbers to the number of
acknowledgements. A thread looks its number up, and inserts it when it is not there; between the two
another thread may have inserted it. Then the insertion is refused, and the thread goes on without
having counted its acknowledgement: it is lost (`Overtaken`). All other acknowledgements are counted
under the lock of their entry, and the one that brings the count to the threshold sees it.
-/

namespace Pringles.Software

/-- Where a thread of `append_response` stands with the acknowledgement that it handles. -/
inductive AckPc where
  | idle
  | find (n : BitVec 64)
  | insert (n : BitVec 64)
  | found (n : BitVec 64)
  | inserted (n : BitVec 64)
  | release (n : BitVec 64) (gotQuorum : Bool)
deriving DecidableEq

/-- The sequence number of the entry that the thread holds. -/
def AckPc.holds : AckPc → Option (BitVec 64)
  | idle => none
  | find _ => none
  | insert _ => none
  | found n => some n
  | inserted n => some n
  | release n _ => some n

/-- `1` when all that is left to do for the acknowledgement is to release its entry. -/
def AckPc.settled : AckPc → Nat
  | release _ _ => 1
  | _ => 0

/-- `ack_map` and the threads, with the acknowledgements processed so far and what became of them:
`true` lets the response go on to the client. -/
structure AckCount (τ : Type) where
  ackMap : LockMap (BitVec 64) (BitVec 64) τ := {}
  pc : τ → AckPc := fun _ => .idle
  processed : List (BitVec 64 × Bool) := []

namespace AckCount

/-- A thread takes an acknowledgement from its batch, or goes on with the one that it has. -/
inductive Event (τ : Type) where
  | receive (t : τ) (gIdx : BitVec 32)
  | run (t : τ)

variable {τ : Type} [DecidableEq τ] {ackThreshold : BitVec 64} {s s' found : AckCount τ} {t u : τ}
  {n : BitVec 64} {e : Event τ} {tr : List (Event τ × AckCount τ)} {c lost : Nat}

/-- The next operation of thread `t` in `append_response`. -/
def appendResponse (ackThreshold : BitVec 64) (s : AckCount τ) (t : τ) : Option (AckCount τ) :=
  match s.pc t with
  | .idle => none
  | .find n => (s.ackMap.find t n).map fun q =>
      { s with
        ackMap := q.2
        pc := Function.update s.pc t (if q.1 then .found n else .insert n) }
  | .insert n => (s.ackMap.insert t n 0).map fun q =>
      { s with
        ackMap := q.2
        pc := Function.update s.pc t (if q.1 then .inserted n else .release n false) }
  | .found n =>
    let second := (s.ackMap.value n).getD 0 + 1
    some { s with
      ackMap := s.ackMap.write n second
      pc := Function.update s.pc t (.release n (decide (ackThreshold ≤ second))) }
  | .inserted n =>
    some { s with
      ackMap := s.ackMap.write n 1
      pc := Function.update s.pc t (.release n (decide (ackThreshold ≤ 1))) }
  | .release n gotQuorum =>
    some { s with
      ackMap := s.ackMap.release n
      pc := Function.update s.pc t .idle
      processed := s.processed ++ [(n, gotQuorum)] }

def step (ackThreshold : BitVec 64) (s : AckCount τ) : Event τ → Option (AckCount τ)
  | .receive t gIdx =>
    if s.pc t = .idle then some { s with pc := Function.update s.pc t (.find (seqNo gIdx)) }
    else none
  | .run t => s.appendResponse ackThreshold t

variable (τ) in
/-- Any thread may move at any time. The output of a step is the state that it found. -/
def machine (ackThreshold : BitVec 64) : Machine (AckCount τ) (Event τ) (AckCount τ) :=
  ⟨fun s e => (s.step ackThreshold e).map fun s' => (s', s)⟩

/-- How many acknowledgements for `n` have been processed. -/
def acks (s : AckCount τ) (n : BitVec 64) : Nat := s.processed.countP fun x => x.1 = n

/-- The count that `ack_map` has for `n`. -/
def count (s : AckCount τ) (n : BitVec 64) : BitVec 64 := (s.ackMap.value n).getD 0

/-- An insertion of `n` that another thread's insertion of `n` has overtaken. -/
def Overtaken (s : AckCount τ) (n : BitVec 64) : Event τ → Prop
  | .receive _ _ => False
  | .run t => s.pc t = .insert n ∧ s.ackMap.value n ≠ none

instance (s : AckCount τ) (n : BitVec 64) (e : Event τ) : Decidable (s.Overtaken n e) := by
  cases e with
  | receive => exact inferInstanceAs (Decidable False)
  | run t => exact inferInstanceAs (Decidable (_ ∧ _))

/-! ## Steps -/

/-- What thread `t` does to the entry of `n` and to itself, and to nothing else. -/
inductive Moves (ackThreshold : BitVec 64) (s : AckCount τ) (t : τ) (n : BitVec 64) :
    AckPc → AckCount τ → Prop
  | miss : s.ackMap.value n = none →
      Moves ackThreshold s t n (.find n) { s with pc := Function.update s.pc t (.insert n) }
  | hit : s.ackMap.value n ≠ none → s.ackMap.holder n = none →
      Moves ackThreshold s t n (.find n) { s with
        ackMap := s.ackMap.lock t n, pc := Function.update s.pc t (.found n) }
  | insert : s.ackMap.value n = none →
      Moves ackThreshold s t n (.insert n) { s with
        ackMap := (s.ackMap.write n 0).lock t n, pc := Function.update s.pc t (.inserted n) }
  | overtaken : s.ackMap.value n ≠ none → s.ackMap.holder n = none →
      Moves ackThreshold s t n (.insert n) { s with
        ackMap := s.ackMap.lock t n, pc := Function.update s.pc t (.release n false) }
  | count : Moves ackThreshold s t n (.found n) { s with
        ackMap := s.ackMap.write n (s.count n + 1)
        pc := Function.update s.pc t (.release n (decide (ackThreshold ≤ s.count n + 1))) }
  | first : Moves ackThreshold s t n (.inserted n) { s with
        ackMap := s.ackMap.write n 1
        pc := Function.update s.pc t (.release n (decide (ackThreshold ≤ 1))) }
  | release (gotQuorum : Bool) : Moves ackThreshold s t n (.release n gotQuorum) { s with
        ackMap := s.ackMap.release n
        pc := Function.update s.pc t .idle
        processed := s.processed ++ [(n, gotQuorum)] }

theorem moves_of_appendResponse (h : s.appendResponse ackThreshold t = some s') :
    ∃ n, Moves ackThreshold s t n (s.pc t) s' := by
  unfold appendResponse at h
  cases hpc : s.pc t with
  | idle => simp [hpc] at h
  | find n =>
    simp only [hpc, Option.map_eq_some_iff, Prod.exists, LockMap.find_eq_some] at h
    obtain ⟨b, m, ⟨hv, rfl, rfl⟩ | ⟨hv, hh, rfl, rfl⟩, rfl⟩ := h
    · exact ⟨n, .miss hv⟩
    · exact ⟨n, .hit hv hh⟩
  | insert n =>
    simp only [hpc, Option.map_eq_some_iff, Prod.exists, LockMap.insert_eq_some] at h
    obtain ⟨b, m, ⟨hv, rfl, rfl⟩ | ⟨hv, hh, rfl, rfl⟩, rfl⟩ := h
    · exact ⟨n, .insert hv⟩
    · exact ⟨n, .overtaken hv hh⟩
  | found n =>
    simp only [hpc, Option.some.injEq] at h
    exact ⟨n, h ▸ .count⟩
  | inserted n =>
    simp only [hpc, Option.some.injEq] at h
    exact ⟨n, h ▸ .first⟩
  | release n gotQuorum =>
    simp only [hpc, Option.some.injEq] at h
    exact ⟨n, h ▸ .release gotQuorum⟩

/-! ## Who holds an entry -/

/-- An entry is held by the thread that is at work on it. -/
structure Locks (s : AckCount τ) : Prop where
  present : s.ackMap.Present
  holds : ∀ t n, s.ackMap.holder n = some t ↔ (s.pc t).holds = some n

omit [DecidableEq τ] in
theorem locks_init : ({} : AckCount τ).Locks where
  present := LockMap.present_init
  holds t n := by simp [AckPc.holds]

variable {q : AckPc}

theorem Locks.keep (h : s.Locks) (hp : s'.ackMap.Present)
    (hh : s'.ackMap.holder = s.ackMap.holder) (hpc : s'.pc = Function.update s.pc t q)
    (hq : q.holds = (s.pc t).holds) : s'.Locks where
  present := hp
  holds u k := by
    rw [hh, h.holds, hpc]
    by_cases hu : u = t
    · rw [hu, Function.update_self, hq]
    · rw [Function.update_of_ne hu]

theorem Locks.acquire (h : s.Locks) (hp : s'.ackMap.Present)
    (hh : ∀ k, s'.ackMap.holder k = if k = n then some t else s.ackMap.holder k)
    (hpc : s'.pc = Function.update s.pc t q) (ht : (s.pc t).holds = none)
    (hn : s.ackMap.holder n = none) (hq : q.holds = some n) : s'.Locks where
  present := hp
  holds u k := by
    rw [hh, hpc]
    by_cases hu : u = t
    · subst hu
      rw [Function.update_self, hq, Option.some.injEq]
      by_cases hk : k = n
      · simp [hk]
      · rw [if_neg hk, h.holds, ht]
        simp [Ne.symm hk]
    · rw [Function.update_of_ne hu, ← h.holds]
      by_cases hk : k = n
      · rw [if_pos hk, hk, hn]
        simp [Ne.symm hu]
      · rw [if_neg hk]

theorem Locks.drop (h : s.Locks) (hp : s'.ackMap.Present)
    (hh : ∀ k, s'.ackMap.holder k = if k = n then none else s.ackMap.holder k)
    (hpc : s'.pc = Function.update s.pc t q) (ht : (s.pc t).holds = some n)
    (hq : q.holds = none) : s'.Locks where
  present := hp
  holds u k := by
    have hn : s.ackMap.holder n = some t := (h.holds t n).2 ht
    rw [hh, hpc]
    by_cases hu : u = t
    · subst hu
      rw [Function.update_self, hq]
      by_cases hk : k = n
      · simp [hk]
      · rw [if_neg hk, h.holds, ht]
        simp [Ne.symm hk]
    · rw [Function.update_of_ne hu, ← h.holds]
      by_cases hk : k = n
      · rw [if_pos hk, hk, hn]
        simp [Ne.symm hu]
      · rw [if_neg hk]

theorem Locks.moves (h : s.Locks) (hm : Moves ackThreshold s t n (s.pc t) s') : s'.Locks := by
  generalize hpc : s.pc t = pc at hm
  cases hm with
  | miss hv => exact h.keep h.present rfl rfl (by rw [hpc]; rfl)
  | hit hv hh =>
    exact h.acquire (h.present.lock hv) (fun _ => LockMap.holder_lock) rfl (by rw [hpc]; rfl) hh
      rfl
  | insert hv =>
    refine h.acquire (h.present.write.lock (by simp [LockMap.value_write])) ?_ rfl
      (by rw [hpc]; rfl) (h.present n hv) rfl
    exact fun _ => LockMap.holder_lock
  | overtaken hv hh =>
    exact h.acquire (h.present.lock hv) (fun _ => LockMap.holder_lock) rfl (by rw [hpc]; rfl) hh
      rfl
  | count => exact h.keep h.present.write rfl rfl (by rw [hpc]; rfl)
  | first => exact h.keep h.present.write rfl rfl (by rw [hpc]; rfl)
  | release gotQuorum =>
    exact h.drop h.present.release (fun _ => LockMap.holder_release) rfl (by rw [hpc]; rfl) rfl

/-! ## What is counted -/

/-- The acknowledgement for `n` that is through but for the release of the entry, if there is one. -/
def settled (s : AckCount τ) (n : BitVec 64) : Nat :=
  match s.ackMap.holder n with
  | some t => (s.pc t).settled
  | none => 0

/-- An acknowledgement for `n` has met the threshold. -/
def Saw (s : AckCount τ) (n : BitVec 64) : Prop :=
  (n, true) ∈ s.processed ∨ ∃ t, s.pc t = .release n true

/-- `c` acknowledgements for `n` have been counted and `lost` have not. -/
structure Counted (ackThreshold : BitVec 64) (n : BitVec 64) (lost c : Nat) (s : AckCount τ) :
    Prop where
  count : s.count n = BitVec.ofNat 64 c
  absent : s.ackMap.value n = none → c = 0
  fresh : ∀ t, s.pc t = .inserted n → c = 0
  sum : s.acks n + s.settled n = c + lost
  saw : 0 < c → c < 2 ^ 64 → ackThreshold.toNat ≤ c → s.Saw n

omit [DecidableEq τ] in
theorem counted_init (ackThreshold n : BitVec 64) :
    Counted ackThreshold n 0 0 ({} : AckCount τ) where
  count := rfl
  absent _ := rfl
  fresh _ _ := rfl
  sum := rfl
  saw h := absurd h (Nat.lt_irrefl 0)

/-- `s'` differs from `s` in nothing that concerns `n`. -/
structure Same (n : BitVec 64) (t : τ) (s s' : AckCount τ) : Prop where
  value : s'.ackMap.value n = s.ackMap.value n
  holder : s'.ackMap.holder n = s.ackMap.holder n
  acks : s'.acks n = s.acks n
  processed : ∀ x ∈ s.processed, x ∈ s'.processed
  others : ∀ u, u ≠ t → s'.pc u = s.pc u
  before : (s.pc t).holds ≠ some n
  after : (s'.pc t).holds ≠ some n

theorem Same.counted (hs : Same n t s s') (hl : s.Locks) (h : Counted ackThreshold n lost c s) :
    Counted ackThreshold n lost c s' := by
  have hpc : ∀ u q, q.holds = some n → s'.pc u = q → s.pc u = q := by
    intro u q hq hu
    by_cases hut : u = t
    · rw [hut] at hu
      exact absurd (hu ▸ hq) hs.after
    · rw [← hs.others u hut, hu]
  have hpc' : ∀ u q, q.holds = some n → s.pc u = q → s'.pc u = q := by
    intro u q hq hu
    by_cases hut : u = t
    · rw [hut] at hu
      exact absurd (hu ▸ hq) hs.before
    · rw [hs.others u hut, hu]
  have hsettled : s'.settled n = s.settled n := by
    unfold settled
    rw [hs.holder]
    cases hh : s.ackMap.holder n with
    | none => rfl
    | some u =>
      have hu := (hl.holds u n).1 hh
      simp only [hpc' u _ hu rfl]
  constructor
  · rw [AckCount.count, hs.value]
    exact h.count
  · rw [hs.value]
    exact h.absent
  · exact fun u hu => h.fresh u (hpc u _ rfl hu)
  · rw [hs.acks, hsettled]
    exact h.sum
  · intro h0 hlt hle
    rcases h.saw h0 hlt hle with hmem | ⟨u, hu⟩
    · exact .inl (hs.processed _ hmem)
    · exact .inr ⟨u, hpc' u _ rfl hu⟩

theorem same_update {m : LockMap (BitVec 64) (BitVec 64) τ}
    (hv : m.value n = s.ackMap.value n) (hh : m.holder n = s.ackMap.holder n)
    (hb : (s.pc t).holds ≠ some n) (hq : q.holds ≠ some n) :
    Same n t s { s with ackMap := m, pc := Function.update s.pc t q } where
  value := hv
  holder := hh
  acks := rfl
  processed _ hx := hx
  others _ hu := Function.update_of_ne hu ..
  before := hb
  after := by simpa using hq

/-- A step on another entry. -/
theorem Moves.same {k : BitVec 64} (hm : Moves ackThreshold s t k (s.pc t) s') (hne : k ≠ n) :
    Same n t s s' := by
  have hk : some k ≠ some n := by simpa using hne
  generalize hpc : s.pc t = pc at hm
  cases hm with
  | miss => exact same_update rfl rfl (by simp [hpc, AckPc.holds]) (by simp [AckPc.holds])
  | hit =>
    exact same_update rfl (by rw [LockMap.holder_lock, if_neg hne.symm])
      (by simp [hpc, AckPc.holds]) hk
  | insert =>
    exact same_update (by rw [LockMap.value_lock, LockMap.value_write, if_neg hne.symm])
      (by rw [LockMap.holder_lock, if_neg hne.symm, LockMap.holder_write])
      (by simp [hpc, AckPc.holds]) hk
  | overtaken =>
    exact same_update rfl (by rw [LockMap.holder_lock, if_neg hne.symm])
      (by simp [hpc, AckPc.holds]) hk
  | count =>
    exact same_update (by rw [LockMap.value_write, if_neg hne.symm]) rfl (by rw [hpc]; exact hk) hk
  | first =>
    exact same_update (by rw [LockMap.value_write, if_neg hne.symm]) rfl (by rw [hpc]; exact hk) hk
  | release gotQuorum =>
    have hsame : Same n t s { s with
        ackMap := s.ackMap.release k, pc := Function.update s.pc t .idle } :=
      same_update rfl (by rw [LockMap.holder_release, if_neg hne.symm]) (by rw [hpc]; exact hk)
        (by simp [AckPc.holds])
    refine { hsame with acks := ?_, processed := ?_ }
    · simp [acks, hne]
    · exact fun x hx => List.mem_append_left _ hx

/-- Taking an acknowledgement from the batch. -/
theorem same_receive (hpc : s.pc t = .idle) (k n : BitVec 64) :
    Same n t s { s with pc := Function.update s.pc t (.find k) } :=
  same_update rfl rfl (by simp [hpc, AckPc.holds]) (by simp [AckPc.holds])

omit [DecidableEq τ] in
theorem settled_of_holder (h : s.ackMap.holder n = some t) : s.settled n = (s.pc t).settled := by
  simp only [settled, h]

omit [DecidableEq τ] in
theorem settled_of_free (h : s.ackMap.holder n = none) : s.settled n = 0 := by
  simp only [settled, h]

/-- A quorum that has been met stays met, except that its thread may record it. -/
theorem Saw.update (h : s.Saw n) {m : LockMap (BitVec 64) (BitVec 64) τ}
    (hpc : s.pc t ≠ .release n true) :
    Saw { s with ackMap := m, pc := Function.update s.pc t q } n := by
  rcases h with hmem | ⟨u, hu⟩
  · exact .inl hmem
  · refine .inr ⟨u, ?_⟩
    have hut : u ≠ t := by
      rintro rfl
      exact hpc hu
    exact (Function.update_of_ne hut ..).trans hu

omit [DecidableEq τ] in
/-- Nobody else is at work on an entry that `t` holds. -/
theorem Locks.alone (h : s.Locks) (ht : (s.pc t).holds = some n) (hu : (s.pc u).holds = some n) :
    u = t := by
  have heq := ((h.holds t n).2 ht).symm.trans ((h.holds u n).2 hu)
  exact (Option.some.inj heq).symm

/-- A thread that is at an insertion after the step was there before, or is the one that moved. -/
theorem inserted_update {m : LockMap (BitVec 64) (BitVec 64) τ} {l : List (BitVec 64 × Bool)}
    (h : (⟨m, Function.update s.pc t q, l⟩ : AckCount τ).pc u = .inserted n)
    (hq : q ≠ .inserted n) : u ≠ t ∧ s.pc u = .inserted n := by
  by_cases hut : u = t
  · rw [hut] at h
    exact absurd ((Function.update_self ..).symm.trans h) hq
  · exact ⟨hut, (Function.update_of_ne hut ..).symm.trans h⟩

theorem settled_update {m : LockMap (BitVec 64) (BitVec 64) τ} {l : List (BitVec 64 × Bool)}
    (h : m.holder n = some t) :
    (⟨m, Function.update s.pc t q, l⟩ : AckCount τ).settled n = q.settled := by
  rw [settled_of_holder (by exact h)]
  simp

/-- The entry of `n` is locked for one more acknowledgement. -/
theorem Counted.hit (h : Counted ackThreshold n lost c s) (hn : s.ackMap.holder n = none)
    (hpc : s.pc t ≠ .release n true) (hq : q ≠ .inserted n) (hv : s.ackMap.value n ≠ none) :
    Counted ackThreshold n (lost + q.settled) c { s with
      ackMap := s.ackMap.lock t n, pc := Function.update s.pc t q } where
  count := h.count
  absent hv' := absurd hv' hv
  fresh u hu := h.fresh u (inserted_update hu hq).2
  sum := by
    have hsum := h.sum
    rw [settled_of_free hn] at hsum
    rw [settled_update (by rw [LockMap.holder_lock, if_pos rfl])]
    simp only [acks] at hsum ⊢
    omega
  saw h0 hlt hle := (h.saw h0 hlt hle).update hpc

/-- A new entry for `n`. -/
theorem Counted.insert (h : Counted ackThreshold n lost c s) (hn : s.ackMap.holder n = none)
    (hv : s.ackMap.value n = none) : Counted ackThreshold n lost 0 { s with
      ackMap := (s.ackMap.write n 0).lock t n
      pc := Function.update s.pc t (.inserted n) } where
  count := by simp [AckCount.count, LockMap.value_write]
  absent _ := rfl
  fresh _ _ := rfl
  sum := by
    have hsum := h.sum
    rw [settled_of_free hn, h.absent hv] at hsum
    rw [settled_update (by rw [LockMap.holder_lock, if_pos rfl])]
    exact hsum
  saw h0 := absurd h0 (Nat.lt_irrefl 0)

/-- The count of `n` goes up by one. -/
theorem Counted.counts (h : Counted ackThreshold n lost c s) (hl : s.Locks)
    (ht : (s.pc t).holds = some n) (hns : (s.pc t).settled = 0) :
    Counted ackThreshold n lost (c + 1) { s with
      ackMap := s.ackMap.write n (BitVec.ofNat 64 (c + 1))
      pc := Function.update s.pc t
        (.release n (decide (ackThreshold ≤ BitVec.ofNat 64 (c + 1)))) } where
  count := by simp [AckCount.count, LockMap.value_write]
  absent := by simp [LockMap.value_write]
  fresh u hu := by
    obtain ⟨hut, hu⟩ := inserted_update hu (by simp)
    exact absurd (hl.alone ht (by rw [hu]; rfl)) hut
  sum := by
    have hholder := (hl.holds t n).2 ht
    have hsum := h.sum
    rw [settled_of_holder hholder, hns] at hsum
    rw [settled_update (by exact hholder)]
    simp only [acks, AckPc.settled] at hsum ⊢
    omega
  saw _ hlt hle := by
    have hge : ackThreshold ≤ BitVec.ofNat 64 (c + 1) := by
      rw [BitVec.le_def, BitVec.toNat_ofNat, Nat.mod_eq_of_lt hlt]
      exact hle
    exact .inr ⟨t, by simp [hge]⟩

/-- The entry of `n` is free again. -/
theorem Counted.release {gotQuorum : Bool} (h : Counted ackThreshold n lost c s) (hl : s.Locks)
    (ht : s.pc t = .release n gotQuorum) : Counted ackThreshold n lost c { s with
      ackMap := s.ackMap.release n
      pc := Function.update s.pc t .idle
      processed := s.processed ++ [(n, gotQuorum)] } where
  count := h.count
  absent := h.absent
  fresh u hu := h.fresh u (inserted_update hu (by simp)).2
  sum := by
    have hholder := (hl.holds t n).2 (by rw [ht]; rfl)
    have hsum := h.sum
    rw [settled_of_holder hholder, ht] at hsum
    rw [settled_of_free (by rw [LockMap.holder_release, if_pos rfl])]
    simp only [acks, AckPc.settled, List.countP_append] at hsum ⊢
    simp only [List.countP_singleton, decide_true, ↓reduceIte]
    omega
  saw h0 hlt hle := by
    rcases h.saw h0 hlt hle with hmem | ⟨u, hu⟩
    · exact .inl (List.mem_append_left _ hmem)
    · have hut : u = t := hl.alone (by rw [ht]; rfl) (by rw [hu]; rfl)
      rw [hut, ht] at hu
      cases hu
      exact .inl (List.mem_append_right _ (List.mem_singleton_self _))

/-- **What a thread's step on the entry of `n` does to the count.** -/
theorem Counted.moves (h : Counted ackThreshold n lost c s) (hl : s.Locks)
    (hm : Moves ackThreshold s t n (s.pc t) s') :
    ∃ c', Counted ackThreshold n (lost + if s.Overtaken n (.run t) then 1 else 0) c' s' := by
  generalize hpc : s.pc t = pc at hm
  have hover : pc ≠ .insert n → ¬ s.Overtaken n (.run t) := by
    rintro hne ⟨hins, -⟩
    exact hne (hpc.symm.trans hins)
  cases hm with
  | miss =>
    have hsame : Same n t s { s with pc := Function.update s.pc t (.insert n) } :=
      same_update rfl rfl (by simp [hpc, AckPc.holds]) (by simp [AckPc.holds])
    rw [if_neg (hover (by simp))]
    exact ⟨c, hsame.counted hl h⟩
  | hit hv hh =>
    rw [if_neg (hover (by simp))]
    have hc := h.hit (t := t) (q := .found n) hh (by simp [hpc]) (by simp) hv
    exact ⟨c, hc⟩
  | insert hv =>
    rw [if_neg fun hov => hov.2 hv]
    exact ⟨0, h.insert (hl.present n hv) hv⟩
  | overtaken hv hh =>
    rw [if_pos ⟨hpc, hv⟩]
    have hc := h.hit (t := t) (q := .release n false) hh (by simp [hpc]) (by simp) hv
    exact ⟨c, hc⟩
  | count =>
    rw [if_neg (hover (by simp)), h.count]
    have hcount : BitVec.ofNat 64 c + 1 = BitVec.ofNat 64 (c + 1) := (BitVec.ofNat_add ..).symm
    rw [hcount]
    exact ⟨c + 1, h.counts hl (by rw [hpc]; rfl) (by rw [hpc]; rfl)⟩
  | first =>
    rw [if_neg (hover (by simp))]
    have hc := h.counts hl (t := t) (by rw [hpc]; rfl) (by rw [hpc]; rfl)
    rw [h.fresh t hpc] at hc
    exact ⟨1, hc⟩
  | release gotQuorum =>
    rw [if_neg (hover (by simp))]
    exact ⟨c, h.release hl hpc⟩

/-! ## Runs -/

theorem machine_eq_some (h : (machine τ ackThreshold).step s e = some (s', found)) :
    s.step ackThreshold e = some s' ∧ found = s := by
  simp only [machine, Option.map_eq_some_iff, Prod.mk.injEq] at h
  obtain ⟨_, hs, rfl, rfl⟩ := h
  exact ⟨hs, rfl⟩

theorem Counted.step (h : Counted ackThreshold n lost c s) (hl : s.Locks)
    (hs : s.step ackThreshold e = some s') : s'.Locks ∧
      ∃ c', Counted ackThreshold n (lost + if s.Overtaken n e then 1 else 0) c' s' := by
  cases e with
  | receive t gIdx =>
    simp only [AckCount.step, Option.ite_none_right_eq_some, Option.some.injEq] at hs
    obtain ⟨hpc, rfl⟩ := hs
    rw [if_neg (by exact id)]
    refine ⟨hl.keep hl.present rfl rfl (by rw [hpc]; rfl), c, ?_⟩
    exact (same_receive hpc (seqNo gIdx) n).counted hl h
  | run t =>
    obtain ⟨k, hm⟩ := moves_of_appendResponse hs
    refine ⟨hl.moves hm, ?_⟩
    by_cases hk : k = n
    · subst hk
      exact h.moves hl hm
    · have hnot : ¬ s.Overtaken n (.run t) := by
        rintro ⟨hpc, -⟩
        rw [hpc] at hm
        cases hm
        · exact hk rfl
        · exact hk rfl
      rw [if_neg hnot]
      exact ⟨c, (hm.same hk).counted hl h⟩

/-- In every state an entry is held by one thread at most, and what has been processed for a number
is what has been counted and what overtaken insertions have lost. -/
theorem counted_run (hr : (machine τ ackThreshold).Run {} tr s) (n : BitVec 64) : s.Locks ∧
    ∃ c, Counted ackThreshold n (tr.countP fun x => x.2.Overtaken n x.1) c s := by
  refine hr.invariant (A := fun _ => True) (B := fun _ => True)
    (I := fun tr s => s.Locks ∧
      ∃ c, Counted ackThreshold n (tr.countP fun x => x.2.Overtaken n x.1) c s)
    (fun _ _ _ _ _ _ _ => trivial) ?_ (fun _ _ => trivial) ⟨locks_init, 0, ?_⟩ trivial
  · intro tr s e s' found _ ⟨hl, c, h⟩ _ hs
    obtain ⟨hs, rfl⟩ := machine_eq_some hs
    rw [List.countP_append, List.countP_singleton]
    simpa using h.step hl hs
  · exact counted_init ackThreshold n

/-- **No acknowledgement for `n` is lost exactly when no insertion of `n` was overtaken**, as long
as the count does not wrap. In a state in which nobody holds the entry of `n`, the count is then the
number of acknowledgements processed, and if these reach the threshold, one of them has met it. -/
theorem acks_counted_iff (hr : (machine τ ackThreshold).Run {} tr s)
    (hfree : s.ackMap.holder n = none) :
    ((s.count n).toNat = s.acks n ∧
      (0 < s.acks n → ackThreshold.toNat ≤ s.acks n → (n, true) ∈ s.processed)) ↔
    s.acks n < 2 ^ 64 ∧ ∀ x ∈ tr, ¬ x.2.Overtaken n x.1 := by
  obtain ⟨hl, c, h⟩ := counted_run hr n
  have hsum := h.sum
  rw [settled_of_free hfree, Nat.add_zero] at hsum
  have hlost : tr.countP (fun x => x.2.Overtaken n x.1) = 0 ↔ ∀ x ∈ tr, ¬ x.2.Overtaken n x.1 := by
    simp [List.countP_eq_zero]
  rw [h.count, BitVec.toNat_ofNat, ← hlost]
  constructor
  · rintro ⟨hcount, -⟩
    have hlt : c % 2 ^ 64 < 2 ^ 64 := Nat.mod_lt _ (by decide)
    have hle : c % 2 ^ 64 ≤ c := Nat.mod_le ..
    omega
  · rintro ⟨hlt, h0⟩
    have hc : s.acks n = c := by omega
    refine ⟨by rw [hc, Nat.mod_eq_of_lt (by omega)], ?_⟩
    intro hpos hle
    rcases h.saw (by omega) (by omega) (by omega) with hmem | ⟨t, ht⟩
    · exact hmem
    · -- its thread would still hold the entry
      have hholder := (hl.holds t n).2 (by rw [ht]; rfl)
      rw [hfree] at hholder
      cases hholder

/-- Two threads, one acknowledgement after the other, and a threshold of two. -/
theorem acks_counted_iff_two : ∃ tr s, (machine Bool 2).Run {} tr s ∧ s.acks 1 = 2 ∧
    (((s.count 1).toNat = s.acks 1 ∧
      (0 < s.acks 1 → (2 : BitVec 64).toNat ≤ s.acks 1 → (1, true) ∈ s.processed)) ↔
    s.acks 1 < 2 ^ 64 ∧ ∀ x ∈ tr, ¬ x.2.Overtaken 1 x.1) := by
  have hx : (machine Bool 2).exec {} [.receive true (htonl 1), .run true, .run true, .run true,
    .run true, .receive false (htonl 1), .run false, .run false, .run false] = some (_, _) := rfl
  exact ⟨_, _, .of_exec hx, by decide, acks_counted_iff (.of_exec hx) (by decide)⟩

/-- Both threads look the number up before either of them inserts it: one acknowledgement of the two
is lost, and nobody meets the threshold. -/
theorem acks_lost : ¬ ∀ tr s n, (machine Bool 2).Run {} tr s → s.ackMap.holder n = none →
    s.acks n < 2 ^ 64 → (s.count n).toNat = s.acks n ∧
      (0 < s.acks n → (2 : BitVec 64).toNat ≤ s.acks n → (n, true) ∈ s.processed) := by
  intro hall
  have hx : (machine Bool 2).exec {} [.receive true (htonl 1), .receive false (htonl 1), .run true,
    .run false, .run true, .run true, .run true, .run false, .run false] = some (_, _) := rfl
  have hcount := (hall _ _ 1 (.of_exec hx) (by decide) (by decide)).1
  exact absurd hcount (by decide)

end AckCount

end Pringles.Software
