import Pringles.Lib.LockMap
import Pringles.Lib.Machine
import Pringles.Software.Shards

/-!
# Streams and shards under concurrency

The threads of `append_request` share `stream_id_to_shard_id` and `next_available_shard`. A thread
that does not find its stream reads the next shard three times: for the address that it sends to, for
the map, and to advance it. Nothing keeps the first two reads together, so the append can go to one
shard and the map name another; and a thread whose insertion is refused sends to the shard that it has
read all the same. Streams stay on their shards in every run in which neither happens (`stays_run`).
-/

namespace Pringles.Software

/-- Where a thread of `append_request` stands with the stream `k` of its append, and the shard `x`
that it has the address of. -/
inductive ShardPc where
  | idle
  | find (k : BitVec 64)
  | choose (k : BitVec 64)
  | insert (k x : BitVec 64)
  | store (k x : BitVec 64)
  | release (k x : BitVec 64)
  | read (k x : BitVec 64)
  | write (k x v : BitVec 64)
  | forward (k x : BitVec 64)
deriving DecidableEq

/-- The entry that the thread holds. -/
def ShardPc.holds : ShardPc → Option (BitVec 64)
  | store k _ => some k
  | release k _ => some k
  | _ => none

/-- The stream and its shard, for a thread that is done with the entry but for its release. -/
def ShardPc.routes : ShardPc → Option (BitVec 64 × BitVec 64)
  | release k x => some (k, x)
  | read k x => some (k, x)
  | write k x _ => some (k, x)
  | forward k x => some (k, x)
  | _ => none

/-- The shard that the thread has the address of. -/
def ShardPc.shard : ShardPc → Option (BitVec 64)
  | insert _ x => some x
  | store _ x => some x
  | release _ x => some x
  | read _ x => some x
  | write _ x _ => some x
  | forward _ x => some x
  | _ => none

/-- What the threads share, where they stand, and which appends went to which shard. -/
structure StreamShards (τ : Type) where
  nextAvailableShard : BitVec 64 := 0
  streamIdToShardId : LockMap (BitVec 64) (BitVec 64) τ := {}
  pc : τ → ShardPc := fun _ => .idle
  forwarded : List (BitVec 64 × BitVec 64) := []

namespace StreamShards

/-- A thread takes an append from its socket, or goes on with the one that it has. -/
inductive Event (τ : Type) where
  | receive (t : τ) (streamId : BitVec 32)
  | run (t : τ)

variable {τ : Type} [DecidableEq τ] {size : Nat} {s s' found : StreamShards τ} {t u : τ}
  {k x y : BitVec 64} {q : ShardPc} {e : Event τ} {tr : List (Event τ × StreamShards τ)}

/-- The next operation of thread `t` in `append_request`. A new entry is zero. -/
def appendRequest (size : Nat) (s : StreamShards τ) (t : τ) : Option (StreamShards τ) :=
  match s.pc t with
  | .idle => none
  | .find k => (s.streamIdToShardId.read k).map fun found =>
      { s with
        pc := Function.update s.pc t <|
          match found with
          | some second => .forward k second
          | none => .choose k }
  | .choose k => some { s with pc := Function.update s.pc t (.insert k s.nextAvailableShard) }
  | .insert k x => (s.streamIdToShardId.insert t k 0).map fun q =>
      { s with
        streamIdToShardId := q.2
        pc := Function.update s.pc t (if q.1 then .store k x else .release k x) }
  | .store k x =>
    some { s with
      streamIdToShardId := s.streamIdToShardId.write k s.nextAvailableShard
      pc := Function.update s.pc t (.release k x) }
  | .release k x =>
    some { s with
      streamIdToShardId := s.streamIdToShardId.release k
      pc := Function.update s.pc t (.read k x) }
  | .read k x => some { s with pc := Function.update s.pc t (.write k x s.nextAvailableShard) }
  | .write k x v => (Shards.modSize (v + 1) size).map fun next =>
      { s with nextAvailableShard := next, pc := Function.update s.pc t (.forward k x) }
  | .forward k x =>
    some { s with pc := Function.update s.pc t .idle, forwarded := s.forwarded ++ [(k, x)] }

def step (size : Nat) (s : StreamShards τ) : Event τ → Option (StreamShards τ)
  | .receive t streamId =>
    if s.pc t = .idle then
      some { s with pc := Function.update s.pc t (.find ((ntohl streamId).setWidth 64)) }
    else none
  | .run t => s.appendRequest size t

variable (τ) in
/-- Any thread may move at any time. The output of a step is the state that it found. -/
def machine (size : Nat) : Machine (StreamShards τ) (Event τ) (StreamShards τ) :=
  ⟨fun s e => (s.step size e).map fun s' => (s', s)⟩

/-- The streams that have been forwarded are where the map says, each on one shard, and a reader of
the map finds it there. -/
structure Stays (s : StreamShards τ) : Prop where
  value : ∀ k x, (k, x) ∈ s.forwarded → s.streamIdToShardId.value k = some x
  unique : ∀ k x y, (k, x) ∈ s.forwarded → (k, y) ∈ s.forwarded → x = y
  read : ∀ k x o, (k, x) ∈ s.forwarded → s.streamIdToShardId.read k = some o → o = some x

/-- What the thread is about to find is the shard that it has the address of: at the store the next
shard has not been advanced, and an insertion is refused for the sake of the same shard only. -/
def Agrees (s : StreamShards τ) : Event τ → Prop
  | .receive _ _ => True
  | .run t =>
    match s.pc t with
    | .insert k x => ∀ v, s.streamIdToShardId.value k = some v → v = x
    | .store _ x => s.nextAvailableShard = x
    | _ => True

instance (s : StreamShards τ) (e : Event τ) : Decidable (s.Agrees e) :=
  match e with
  | .receive _ _ => .isTrue trivial
  | .run t =>
    match hpc : s.pc t with
    | .insert k x =>
      match hv : s.streamIdToShardId.value k with
      | none => .isTrue (by simp [Agrees, hpc, hv])
      | some v => decidable_of_iff (v = x) (by simp [Agrees, hpc, hv])
    | .store _ x => decidable_of_iff (s.nextAvailableShard = x) (by simp [Agrees, hpc])
    | .idle => .isTrue (by simp [Agrees, hpc])
    | .find _ => .isTrue (by simp [Agrees, hpc])
    | .choose _ => .isTrue (by simp [Agrees, hpc])
    | .release _ _ => .isTrue (by simp [Agrees, hpc])
    | .read _ _ => .isTrue (by simp [Agrees, hpc])
    | .write _ _ _ => .isTrue (by simp [Agrees, hpc])
    | .forward _ _ => .isTrue (by simp [Agrees, hpc])

omit [DecidableEq τ] in
theorem agrees_insert (hpc : s.pc t = .insert k x) :
    s.Agrees (.run t) ↔ ∀ v, s.streamIdToShardId.value k = some v → v = x := by
  simp [Agrees, hpc]

omit [DecidableEq τ] in
theorem agrees_store (hpc : s.pc t = .store k x) :
    s.Agrees (.run t) ↔ s.nextAvailableShard = x := by
  simp [Agrees, hpc]

/-! ## Steps -/

/-- What thread `t` does to the entry of its stream and to itself. -/
inductive Moves (size : Nat) (s : StreamShards τ) (t : τ) : ShardPc → StreamShards τ → Prop
  | miss (k : BitVec 64) : Moves size s t (.find k)
      { s with pc := Function.update s.pc t (.choose k) }
  | hit (k second : BitVec 64) : s.streamIdToShardId.holder k = none →
      s.streamIdToShardId.value k = some second →
      Moves size s t (.find k) { s with pc := Function.update s.pc t (.forward k second) }
  | choose (k : BitVec 64) : Moves size s t (.choose k)
      { s with pc := Function.update s.pc t (.insert k s.nextAvailableShard) }
  | insert (k x : BitVec 64) : s.streamIdToShardId.value k = none →
      Moves size s t (.insert k x) { s with
        streamIdToShardId := (s.streamIdToShardId.write k 0).lock t k
        pc := Function.update s.pc t (.store k x) }
  | refused (k x : BitVec 64) : s.streamIdToShardId.value k ≠ none →
      s.streamIdToShardId.holder k = none → Moves size s t (.insert k x) { s with
        streamIdToShardId := s.streamIdToShardId.lock t k
        pc := Function.update s.pc t (.release k x) }
  | store (k x : BitVec 64) : Moves size s t (.store k x) { s with
        streamIdToShardId := s.streamIdToShardId.write k s.nextAvailableShard
        pc := Function.update s.pc t (.release k x) }
  | release (k x : BitVec 64) : Moves size s t (.release k x) { s with
        streamIdToShardId := s.streamIdToShardId.release k
        pc := Function.update s.pc t (.read k x) }
  | read (k x : BitVec 64) : Moves size s t (.read k x)
      { s with pc := Function.update s.pc t (.write k x s.nextAvailableShard) }
  | write (k x v next : BitVec 64) : Shards.modSize (v + 1) size = some next →
      Moves size s t (.write k x v)
      { s with nextAvailableShard := next, pc := Function.update s.pc t (.forward k x) }
  | forward (k x : BitVec 64) : Moves size s t (.forward k x)
      { s with pc := Function.update s.pc t .idle, forwarded := s.forwarded ++ [(k, x)] }

theorem moves_of_appendRequest (h : s.appendRequest size t = some s') :
    Moves size s t (s.pc t) s' := by
  unfold appendRequest at h
  cases hpc : s.pc t with
  | idle => simp [hpc] at h
  | find k =>
    simp only [hpc, Option.map_eq_some_iff, LockMap.read_eq_some] at h
    obtain ⟨found, ⟨hfree, hv⟩, rfl⟩ := h
    cases found with
    | none => exact .miss k
    | some second => exact .hit k second hfree hv
  | choose k =>
    simp only [hpc, Option.some.injEq] at h
    exact h ▸ .choose k
  | insert k x =>
    simp only [hpc, Option.map_eq_some_iff, Prod.exists, LockMap.insert_eq_some] at h
    obtain ⟨b, m, ⟨hv, rfl, rfl⟩ | ⟨hv, hh, rfl, rfl⟩, rfl⟩ := h
    · exact .insert k x hv
    · exact .refused k x hv hh
  | store k x =>
    simp only [hpc, Option.some.injEq] at h
    exact h ▸ .store k x
  | release k x =>
    simp only [hpc, Option.some.injEq] at h
    exact h ▸ .release k x
  | read k x =>
    simp only [hpc, Option.some.injEq] at h
    exact h ▸ .read k x
  | write k x v =>
    simp only [hpc, Option.map_eq_some_iff] at h
    obtain ⟨next, hnext, rfl⟩ := h
    exact .write k x v next hnext
  | forward k x =>
    simp only [hpc, Option.some.injEq] at h
    exact h ▸ .forward k x

theorem pc_update {next : BitVec 64} {m : LockMap (BitVec 64) (BitVec 64) τ}
    {l : List (BitVec 64 × BitVec 64)} :
    (⟨next, m, Function.update s.pc t q, l⟩ : StreamShards τ).pc u = if u = t then q else s.pc u :=
  Function.update_apply ..

/-! ## A stream and its shard -/

/-- An append of stream `k` has gone to shard `x`, or is about to. -/
def Routes (s : StreamShards τ) (k x : BitVec 64) : Prop :=
  (k, x) ∈ s.forwarded ∨ ∃ t, (s.pc t).routes = some (k, x)

/-- The map names the shards that appends go to, and nobody is about to change it. -/
structure Inv (s : StreamShards τ) : Prop where
  present : s.streamIdToShardId.Present
  holds : ∀ t k, (s.pc t).holds = some k → s.streamIdToShardId.holder k = some t
  value : ∀ k x, s.Routes k x → s.streamIdToShardId.value k = some x
  fresh : ∀ t k x, s.pc t = .store k x → ∀ y, ¬ s.Routes k y

omit [DecidableEq τ] in
theorem inv_init : ({} : StreamShards τ).Inv where
  present := LockMap.present_init
  holds _ _ h := nomatch h
  value _ _ h := by
    rcases h with h | ⟨_, h⟩
    · cases h
    · cases h
  fresh _ _ _ h := nomatch h

namespace Inv

omit [DecidableEq τ] in
theorem stays (h : s.Inv) : s.Stays where
  value k x hx := h.value k x (.inl hx)
  unique k x y hx hy := by
    have heq := (h.value k x (.inl hx)).symm.trans (h.value k y (.inl hy))
    exact Option.some.inj heq
  read k x o hx ho := by
    rw [← (LockMap.read_eq_some.1 ho).2]
    exact h.value k x (.inl hx)

omit [DecidableEq τ] in
theorem ne_store_of_free (h : s.Inv) (hfree : s.streamIdToShardId.holder k = none) :
    s.pc u ≠ .store k y := by
  intro hu
  have hholder := h.holds u k (by rw [hu]; rfl)
  rw [hfree] at hholder
  cases hholder

omit [DecidableEq τ] in
theorem ne_store_of_holds (h : s.Inv) (ht : (s.pc t).holds = some k) (hut : u ≠ t) :
    s.pc u ≠ .store k y := by
  intro hu
  have heq := (h.holds u k (by rw [hu]; rfl)).symm.trans (h.holds t k ht)
  exact hut (Option.some.inj heq)

/-- What has to be seen of a step that takes thread `t` to `q`. -/
theorem update (h : s.Inv) {next : BitVec 64} {m : LockMap (BitVec 64) (BitVec 64) τ}
    {l : List (BitVec 64 × BitVec 64)} (hpresent : m.Present)
    (hl : ∀ k x, (k, x) ∈ l → s.Routes k x)
    (hothers : ∀ u k, u ≠ t → s.streamIdToShardId.holder k = some u → m.holder k = some u)
    (hholds : ∀ k, q.holds = some k → m.holder k = some t)
    (hvalue : ∀ k x, s.Routes k x → m.value k = some x)
    (hroutes : ∀ k x, q.routes = some (k, x) →
      m.value k = some x ∧ ∀ u y, u ≠ t → s.pc u ≠ .store k y)
    (hstore : ∀ k x, q = .store k x → ∀ y, ¬ s.Routes k y) :
    Inv ⟨next, m, Function.update s.pc t q, l⟩ := by
  have hnew : ∀ k x, Routes ⟨next, m, Function.update s.pc t q, l⟩ k x →
      s.Routes k x ∨ q.routes = some (k, x) := by
    rintro k x (hx | ⟨u, hu⟩)
    · exact .inl (hl k x hx)
    · rw [pc_update] at hu
      split at hu
      · exact .inr hu
      · exact .inl (.inr ⟨u, hu⟩)
  constructor
  · exact hpresent
  · intro u k hu
    rw [pc_update] at hu
    split at hu
    · next hut => exact hut ▸ hholds k hu
    · next hut => exact hothers u k hut (h.holds u k hu)
  · intro k x hx
    rcases hnew k x hx with hx | hx
    · exact hvalue k x hx
    · exact (hroutes k x hx).1
  · intro u k x hu y hy
    rw [pc_update] at hu
    split at hu
    · rcases hnew k y hy with hy | hy
      · exact hstore k x hu y hy
      · rw [hu] at hy
        cases hy
    · next hut =>
      rcases hnew k y hy with hy | hy
      · exact h.fresh u k x hu y hy
      · exact (hroutes k y hy).2 u x hut hu

/-- A step that leaves the map alone and does not change where the thread sends to. -/
theorem keep (h : s.Inv) {next : BitVec 64} {l : List (BitVec 64 × BitVec 64)}
    (hl : ∀ k x, (k, x) ∈ l → s.Routes k x) (hq : q.holds = none)
    (hroutes : ∀ p, q.routes = some p → (s.pc t).routes = some p) :
    Inv ⟨next, s.streamIdToShardId, Function.update s.pc t q, l⟩ := by
  refine h.update h.present hl (fun _ _ _ hu => hu) ?_ h.value ?_ ?_
  · exact fun k hk => nomatch hq.symm.trans hk
  · intro k x hx
    have hr : s.Routes k x := .inr ⟨t, hroutes _ hx⟩
    exact ⟨h.value k x hr, fun u y _ hu => h.fresh u k y hu x hr⟩
  · rintro k x rfl
    cases hq

theorem moves (h : s.Inv) (ha : s.Agrees (.run t)) (hm : Moves size s t (s.pc t) s') : s'.Inv := by
  have hl : ∀ k x, (k, x) ∈ s.forwarded → s.Routes k x := fun k x hx => .inl hx
  generalize hpc : s.pc t = pc at hm
  cases hm with
  | miss k => exact h.keep hl rfl (fun _ hp => nomatch hp)
  | choose k => exact h.keep hl rfl (fun _ hp => nomatch hp)
  | read k x => exact h.keep hl rfl (fun _ hp => by rw [hpc]; exact hp)
  | write k x v next hnext => exact h.keep hl rfl (fun _ hp => by rw [hpc]; exact hp)
  | forward k x =>
    refine h.keep ?_ rfl (fun _ hp => nomatch hp)
    intro k' x' hx
    rcases List.mem_append.1 hx with hx | hx
    · exact .inl hx
    · cases List.mem_singleton.1 hx
      exact .inr ⟨t, by rw [hpc]; rfl⟩
  | hit k second hfree hv =>
    refine h.update h.present hl (fun _ _ _ hu => hu) (fun _ hk => nomatch hk) h.value ?_
      (fun _ _ hq => nomatch hq)
    rintro _ _ ⟨⟩
    exact ⟨hv, fun u y _ => h.ne_store_of_free hfree⟩
  | insert k x hv =>
    have hfree := h.present k hv
    refine h.update (h.present.write.lock (by simp [LockMap.value_write])) hl ?_ ?_ ?_
      (fun _ _ hq => nomatch hq) ?_
    · intro u k' _ hu
      rw [LockMap.holder_lock, if_neg]
      · exact hu
      · rintro rfl
        exact nomatch hfree.symm.trans hu
    · rintro _ ⟨⟩
      rw [LockMap.holder_lock, if_pos rfl]
    · intro k' x' hx
      rw [LockMap.value_lock, LockMap.value_write, if_neg]
      · exact h.value k' x' hx
      · rintro rfl
        exact nomatch hv.symm.trans (h.value _ _ hx)
    · rintro _ _ ⟨⟩ y hy
      exact nomatch hv.symm.trans (h.value _ _ hy)
  | refused k x hv hfree =>
    obtain ⟨v, hv'⟩ := Option.ne_none_iff_exists'.1 hv
    refine h.update (h.present.lock hv) hl ?_ ?_ h.value ?_ (fun _ _ hq => nomatch hq)
    · intro u k' _ hu
      rw [LockMap.holder_lock, if_neg]
      · exact hu
      · rintro rfl
        exact nomatch hfree.symm.trans hu
    · rintro _ ⟨⟩
      rw [LockMap.holder_lock, if_pos rfl]
    · rintro _ _ ⟨⟩
      exact ⟨(agrees_insert hpc).1 ha v hv' ▸ hv', fun u y _ => h.ne_store_of_free hfree⟩
  | store k x =>
    have hholder := h.holds t k (by rw [hpc]; rfl)
    refine h.update h.present.write hl (fun _ _ _ hu => hu) ?_ ?_ ?_ (fun _ _ hq => nomatch hq)
    · rintro _ ⟨⟩
      exact hholder
    · intro k' x' hx
      rw [LockMap.value_write, if_neg]
      · exact h.value k' x' hx
      · rintro rfl
        exact h.fresh t _ x hpc x' hx
    · rintro _ _ ⟨⟩
      rw [LockMap.value_write, if_pos rfl]
      refine ⟨congrArg some ((agrees_store hpc).1 ha), fun u y hut => ?_⟩
      exact h.ne_store_of_holds (by rw [hpc]; rfl) hut
  | release k x =>
    have hholder := h.holds t k (by rw [hpc]; rfl)
    have hr : s.Routes k x := .inr ⟨t, by rw [hpc]; rfl⟩
    refine h.update h.present.release hl ?_ (fun _ hk => nomatch hk) h.value ?_
      (fun _ _ hq => nomatch hq)
    · intro u k' hut hu
      rw [LockMap.holder_release, if_neg]
      · exact hu
      · rintro rfl
        exact hut (Option.some.inj (hu.symm.trans hholder))
    · rintro _ _ ⟨⟩
      exact ⟨h.value k x hr, fun u y _ hu => h.fresh u k y hu x hr⟩

theorem step (h : s.Inv) (ha : s.Agrees e) (hs : s.step size e = some s') : s'.Inv := by
  cases e with
  | receive t streamId =>
    simp only [StreamShards.step, Option.ite_none_right_eq_some, Option.some.injEq] at hs
    obtain ⟨-, rfl⟩ := hs
    exact h.keep (fun k x hx => .inl hx) rfl (fun _ hp => nomatch hp)
  | run t => exact h.moves ha (moves_of_appendRequest hs)

end Inv

/-! ## Shards that exist -/

/-- All shard numbers are below the number of shards. -/
structure InRange (size : Nat) (s : StreamShards τ) : Prop where
  next : s.nextAvailableShard.toNat < size
  value : ∀ k x, s.streamIdToShardId.value k = some x → x.toNat < size
  shard : ∀ t x, (s.pc t).shard = some x → x.toNat < size
  forwarded : ∀ k x, (k, x) ∈ s.forwarded → x.toNat < size

omit [DecidableEq τ] in
theorem inRange_init (hsize : 0 < size) : ({} : StreamShards τ).InRange size where
  next := hsize
  value _ _ h := nomatch h
  shard _ _ h := nomatch h
  forwarded _ _ h := nomatch h

namespace InRange

theorem update (h : s.InRange size) (hq : ∀ x, q.shard = some x → x.toNat < size) :
    InRange size { s with pc := Function.update s.pc t q } where
  next := h.next
  value := h.value
  shard u x hx := by
    rw [pc_update] at hx
    split at hx
    · exact hq x hx
    · exact h.shard u x hx
  forwarded := h.forwarded

omit [DecidableEq τ] in
theorem write (h : s.InRange size) (hx : x.toNat < size) (k : BitVec 64) :
    InRange size { s with streamIdToShardId := s.streamIdToShardId.write k x } where
  next := h.next
  value k' x' hx' := by
    rw [LockMap.value_write] at hx'
    split at hx'
    · cases hx'
      exact hx
    · exact h.value k' x' hx'
  shard := h.shard
  forwarded := h.forwarded

theorem moves (h : s.InRange size) (hm : Moves size s t (s.pc t) s') : s'.InRange size := by
  have hold := h.shard t
  generalize s.pc t = pc at hm hold
  have hzero : (0 : BitVec 64).toNat < size := Nat.lt_of_le_of_lt (Nat.zero_le _) h.next
  cases hm with
  | miss k => exact h.update fun _ hx => nomatch hx
  | hit k second _ hv => exact h.update fun x hx => Option.some.inj hx ▸ h.value k second hv
  | choose k => exact h.update fun x hx => Option.some.inj hx ▸ h.next
  | insert k x =>
    have h' := (h.write hzero k).update (t := t) (q := .store k x) hold
    exact ⟨h'.next, h'.value, h'.shard, h'.forwarded⟩
  | refused k x =>
    have h' := h.update (t := t) (q := .release k x) hold
    exact ⟨h'.next, h'.value, h'.shard, h'.forwarded⟩
  | store k x => exact (h.write h.next k).update hold
  | release k x =>
    have h' := h.update (t := t) (q := .read k x) hold
    exact ⟨h'.next, h'.value, h'.shard, h'.forwarded⟩
  | read k x => exact h.update hold
  | write k x v next hnext =>
    obtain ⟨_, hnext', hlt⟩ := Shards.modSize_eq (v := v + 1) hzero
    cases hnext.symm.trans hnext'
    have h' := h.update (t := t) (q := .forward k x) hold
    exact ⟨hlt, h'.value, h'.shard, h'.forwarded⟩
  | forward k x =>
    have h' := h.update (t := t) (q := .idle) (fun _ hx => nomatch hx)
    refine ⟨h'.next, h'.value, h'.shard, ?_⟩
    intro k' x' hx
    rcases List.mem_append.1 hx with hx | hx
    · exact h.forwarded k' x' hx
    · cases List.mem_singleton.1 hx
      exact hold x rfl

theorem step (h : s.InRange size) (hs : s.step size e = some s') : s'.InRange size := by
  cases e with
  | receive t streamId =>
    simp only [StreamShards.step, Option.ite_none_right_eq_some, Option.some.injEq] at hs
    obtain ⟨-, rfl⟩ := hs
    exact h.update fun _ hx => nomatch hx
  | run t => exact h.moves (moves_of_appendRequest hs)

end InRange

/-! ## Runs -/

theorem machine_eq_some (h : (machine τ size).step s e = some (s', found)) :
    s.step size e = some s' ∧ found = s := by
  simp only [machine, Option.map_eq_some_iff, Prod.mk.injEq] at h
  obtain ⟨_, hs, rfl, rfl⟩ := h
  exact ⟨hs, rfl⟩

theorem inv_run (hr : (machine τ size).Run s tr s') (ha : ∀ x ∈ tr, x.2.Agrees x.1)
    (h : s.Inv) : s'.Inv := by
  induction hr with
  | nil => exact h
  | snoc _ hs ih =>
    obtain ⟨hs, rfl⟩ := machine_eq_some hs
    have hlast := ha _ (List.mem_append_right _ (List.mem_singleton_self _))
    exact (ih fun x hx => ha x (List.mem_append_left _ hx)).step hlast hs

/-- **Streams stay on their shards**, as long as no thread finds another shard than the one that it
has the address of. -/
theorem stays_run (hr : (machine τ size).Run {} tr s) (ha : ∀ x ∈ tr, x.2.Agrees x.1) :
    s.Stays :=
  (inv_run hr ha inv_init).stays

/-- Two threads forward the first appends of stream 1 at the same time. The insertion of the second
one is refused, for the sake of the shard that it has chosen as well. Then one of them forwards the
first append of stream 2, and the other stream 1 again. -/
theorem stays_run_two : ∃ tr s, (machine Bool 2).Run {} tr s ∧ (∀ x ∈ tr, x.2.Agrees x.1) ∧
    (∃ x ∈ tr, x.2.pc false = .insert 1 0 ∧ x.2.streamIdToShardId.value 1 = some 0) ∧
    s.forwarded = [(1, 0), (1, 0), (1, 0), (2, 1)] ∧ s.Stays := by
  have hx : ((machine Bool 2).exec {} (
      [.receive true (htonl 1), .run true, .run true, .receive false (htonl 1), .run false,
        .run false, .run true, .run true, .run true, .run false, .run false, .run true, .run false,
        .run true, .run false, .run true, .run false, .receive false (htonl 2),
        .receive true (htonl 1), .run false, .run false, .run true, .run true] ++
      List.replicate 6 (.run false))).any (fun q => decide ((∀ x ∈ q.2, x.2.Agrees x.1) ∧
        (∃ x ∈ q.2, x.2.pc false = .insert 1 0 ∧ x.2.streamIdToShardId.value 1 = some 0) ∧
        q.1.forwarded = [(1, 0), (1, 0), (1, 0), (2, 1)])) = true := rfl
  obtain ⟨⟨s, tr⟩, hr, hq⟩ := (Option.any_eq_true ..).1 hx
  obtain ⟨ha, hrefused, hforwarded⟩ := of_decide_eq_true hq
  exact ⟨tr, s, .of_exec hr, ha, hrefused, hforwarded, stays_run (.of_exec hr) ha⟩

/-- While a thread is between its two looks at the next shard, another one advances it. -/
def splitEvents : List (Event Bool) :=
  .receive true (htonl 1) :: List.replicate 2 (.run true) ++
    .receive false (htonl 2) :: List.replicate 8 (.run false) ++ List.replicate 6 (.run true) ++
    .receive true (htonl 1) :: List.replicate 2 (.run true)

/-- An append of stream 1 goes to shard 0, and the next one to shard 1. -/
theorem stream_split : ¬ ∀ tr s, (machine Bool 2).Run {} tr s → s.Stays := by
  intro hall
  have hx : ((machine Bool 2).exec {} splitEvents).any (fun q =>
    decide (q.1.forwarded = [(2, 0), (1, 0), (1, 1)])) = true := rfl
  obtain ⟨⟨s, tr⟩, hr, hq⟩ := (Option.any_eq_true ..).1 hx
  have hforwarded : s.forwarded = [(2, 0), (1, 0), (1, 1)] := of_decide_eq_true hq
  have hsame := (hall tr s (.of_exec hr)).unique 1 0 1 (by simp [hforwarded]) (by simp [hforwarded])
  cases hsame

/-- **Every append goes to a shard that there is**, whatever the threads do. -/
theorem inRange_run (hsize : 0 < size) (hr : (machine τ size).Run {} tr s) : s.InRange size := by
  refine (hr.invariant (I := fun _ s => s.InRange size) (B := fun _ => True) (A := fun _ => True)
    (fun _ _ _ _ _ _ _ => trivial) ?_ (fun _ _ => trivial) (inRange_init hsize) trivial)
  intro _ _ _ _ _ _ h _ hs
  exact h.step (machine_eq_some hs).1

/-- Even the stream that is split between two shards. -/
theorem inRange_run_split : ∃ tr s, (machine Bool 2).Run {} tr s ∧
    s.forwarded = [(2, 0), (1, 0), (1, 1)] ∧ s.InRange 2 := by
  have hx : ((machine Bool 2).exec {} splitEvents).any (fun q =>
    decide (q.1.forwarded = [(2, 0), (1, 0), (1, 1)])) = true := rfl
  obtain ⟨⟨s, tr⟩, hr, hq⟩ := (Option.any_eq_true ..).1 hx
  exact ⟨tr, s, .of_exec hr, of_decide_eq_true hq, inRange_run (by decide) (.of_exec hr)⟩

end StreamShards

end Pringles.Software
