import Pringles.Software.AppendResponse

/-!
# The shards of the software switch

`append_request` deals streams, or sequence numbers, out to the shards in turn, and `read_request`
looks up where they went. Both take the number of shards from `all_shards`, which the constructor does
not fill: it fills `all_shards_multicast` only. So the first append that is to be routed divides by
zero (`routed_iff`). Had `all_shards` the size of `all_shards_multicast`, all requests would be routed
(`Filled.run`).
-/

namespace Pringles.Software

/-- `stream_id_to_shard_id` and `seq_idx_to_shard_id`. -/
abbrev ShardMap := BitVec 64 → Option (BitVec 64)

/-- The members of `LogSoftwareSwitch` that have to do with shards, and what a read is checked
against. -/
structure Shards where
  nextAvailableShard : BitVec 64 := 0
  allShards : List (List String) := []
  allShardsMulticast : List String := []
  streamIdToShardId : ShardMap := fun _ => none
  seqIdxToShardId : ShardMap := fun _ => none
  maxIdx : BitVec 64 := 0
  ackMap : AckMap := fun _ => none

namespace Shards

structure Config where
  useShards : Bool
  useStreams : Bool
  useStore : Bool
  ackThreshold : BitVec 64

inductive Request where
  | append (streamId : BitVec 32)
  | read (gIdx streamId : BitVec 32)
  | ack (gIdx : BitVec 32)

/-- Where a request goes: to the multicast address of a shard, to the servers of one, to all storage
servers, back to the client, around again, or nowhere. -/
inductive Route where
  | shard (multicastAddr : String)
  | servers (ips : List String)
  | storage
  | client
  | recirculate
  | nowhere

/-- What the constructor leaves, for the shards of the configuration. -/
def construct (cfg : Config) (yamlVec : List String) : Shards where
  allShardsMulticast := if cfg.useShards then yamlVec else []

/-- `v % n`, which there is not for `n = 0`. -/
def modSize (v : BitVec 64) (n : Nat) : Option (BitVec 64) :=
  if n = 0 then none else some (BitVec.ofNat 64 (v.toNat % n))

/-- The choice of `append_request` for a key, stream or number: the multicast address, the map and
the next shard in turn. -/
def choose (s : Shards) (map : ShardMap) (keyId : BitVec 64) :
    Option (String × ShardMap × BitVec 64) :=
  match map keyId with
  | some second => do
    let multicastAddr ← s.allShardsMulticast[second.toNat]?
    pure (multicastAddr, map, s.nextAvailableShard)
  | none => do
    let multicastAddr ← s.allShardsMulticast[s.nextAvailableShard.toNat]?
    let next ← modSize (s.nextAvailableShard + 1) s.allShards.length
    pure (multicastAddr, Function.update map keyId (some s.nextAvailableShard), next)

/-- The shard that `read_request` finds for a key, empty when there is none. -/
def lookup (s : Shards) (map : ShardMap) (keyId : BitVec 64) : Option (List String) :=
  match map keyId with
  | some second => s.allShards[second.toNat]?
  | none => some []

def appendRequest (cfg : Config) (s : Shards) (streamId : BitVec 32) : Option (Shards × Route) :=
  let s := { s with maxIdx := s.maxIdx + 1 }
  if cfg.useStore then
    if cfg.useShards then
      if cfg.useStreams then do
        let (multicastAddr, map, next) ←
          s.choose s.streamIdToShardId ((ntohl streamId).setWidth 64)
        pure ({ s with streamIdToShardId := map, nextAvailableShard := next }, .shard multicastAddr)
      else do
        let keyId ← modSize (seqNo (htonl (s.maxIdx.truncate 32))) s.allShards.length
        let (multicastAddr, map, next) ← s.choose s.seqIdxToShardId keyId
        pure ({ s with seqIdxToShardId := map, nextAvailableShard := next }, .shard multicastAddr)
    else pure (s, .storage)
  else pure (s, .client)

/-- The number has been drawn and acknowledged. -/
def Acked (cfg : Config) (s : Shards) (n : BitVec 64) : Prop :=
  n ≤ s.maxIdx ∧ ∃ second, s.ackMap n = some second ∧ cfg.ackThreshold ≤ second

instance (cfg : Config) (s : Shards) (n : BitVec 64) : Decidable (s.Acked cfg n) :=
  match h : s.ackMap n with
  | none => .isFalse fun ⟨_, second, hs, _⟩ => by rw [h] at hs; cases hs
  | some second =>
    decidable_of_iff (n ≤ s.maxIdx ∧ cfg.ackThreshold ≤ second) <| by simp [Acked, h]

def readRequest (cfg : Config) (s : Shards) (gIdx streamId : BitVec 32) : Option Route :=
  let n := seqNo gIdx
  if s.maxIdx < n then some .client
  else if ¬ s.Acked cfg n then some .recirculate
  else if cfg.useStore then
    if cfg.useShards then do
      let shard ←
        if cfg.useStreams then s.lookup s.streamIdToShardId ((ntohl streamId).setWidth 64)
        else do
          let keyId ← modSize n s.allShards.length
          s.lookup s.seqIdxToShardId keyId
      pure (if shard = [] then .client else .servers shard)
    else some .storage
  else some .nowhere

/-- A request is routed, or divides by zero or reads behind a vector (`none`). -/
def step (cfg : Config) (s : Shards) : Request → Option (Shards × Route)
  | .append streamId => s.appendRequest cfg streamId
  | .read gIdx streamId => (s.readRequest cfg gIdx streamId).map fun route => (s, route)
  | .ack gIdx =>
    some ({ s with ackMap := (countAck cfg.ackThreshold s.ackMap (seqNo gIdx)).1 }, .nowhere)

def machine (cfg : Config) : Machine Shards Request Route := ⟨step cfg⟩

/-- The request does not come to a division, nor to a place in `all_shards`. -/
def Routable (cfg : Config) (s : Shards) : Request → Prop
  | .append _ => cfg.useStore = false ∨ cfg.useShards = false
  | .read gIdx _ => cfg.useStore = false ∨ cfg.useShards = false ∨ cfg.useStreams = true ∨
      ¬ s.Acked cfg (seqNo gIdx)
  | .ack _ => True

variable {cfg : Config} {s s' : Shards} {r : Request} {route : Route} {map : ShardMap}
  {keyId v : BitVec 64} {n : Nat} {yamlVec : List String} {tr : List (Request × Route)}

/-! ## As the constructor leaves it -/

/-- There are no shards, and nothing has been dealt out to them. -/
structure Unfilled (s : Shards) : Prop where
  allShards : s.allShards = []
  streams : ∀ k, s.streamIdToShardId k = none
  numbers : ∀ k, s.seqIdxToShardId k = none

theorem unfilled_construct : (construct cfg yamlVec).Unfilled :=
  ⟨rfl, fun _ => rfl, fun _ => rfl⟩

/-- A new key is not dealt out when there are no shards. -/
theorem choose_eq_none (hall : s.allShards = []) (hmap : map keyId = none) :
    s.choose map keyId = none := by
  unfold choose
  rw [hmap, hall]
  cases s.allShardsMulticast[s.nextAvailableShard.toNat]? with
  | none => rfl
  | some _ => rfl

namespace Unfilled

theorem appendRequest (h : s.Unfilled) (streamId : BitVec 32) :
    s.appendRequest cfg streamId =
      if cfg.useStore = false then some ({ s with maxIdx := s.maxIdx + 1 }, .client)
      else if cfg.useShards = false then some ({ s with maxIdx := s.maxIdx + 1 }, .storage)
      else none := by
  unfold Shards.appendRequest
  cases cfg.useStore with
  | false => rfl
  | true =>
    cases cfg.useShards with
    | false => rfl
    | true =>
      cases cfg.useStreams with
      | false => simp [h.allShards, modSize]
      | true =>
        have hnone : Shards.choose { s with maxIdx := s.maxIdx + 1 } s.streamIdToShardId
            ((ntohl streamId).setWidth 64) = none := choose_eq_none h.allShards (h.streams _)
        simp only [hnone, ↓reduceIte]
        rfl

theorem isSome_appendRequest (h : s.Unfilled) (streamId : BitVec 32) :
    (s.appendRequest cfg streamId).isSome ↔ cfg.useStore = false ∨ cfg.useShards = false := by
  rw [h.appendRequest]
  cases cfg.useStore with
  | false => simp
  | true =>
    cases cfg.useShards with
    | false => simp
    | true => simp

theorem isSome_readRequest (h : s.Unfilled) (gIdx streamId : BitVec 32) :
    (s.readRequest cfg gIdx streamId).isSome ↔ cfg.useStore = false ∨ cfg.useShards = false ∨
      cfg.useStreams = true ∨ ¬ s.Acked cfg (seqNo gIdx) := by
  unfold Shards.readRequest
  by_cases hmax : s.maxIdx < seqNo gIdx
  · have hnot : ¬ s.Acked cfg (seqNo gIdx) := by
      intro hack
      exact absurd hack.1 (BitVec.not_le.2 hmax)
    simp [hmax, hnot]
  · by_cases hack : s.Acked cfg (seqNo gIdx)
    · simp only [hmax, hack, not_true_eq_false, ↓reduceIte, or_false]
      cases cfg.useStore with
      | false => simp
      | true =>
        cases cfg.useShards with
        | false => simp
        | true =>
          cases cfg.useStreams with
          | false => simp [h.allShards, modSize]
          | true => simp [lookup, h.streams]
    · simp [hmax, hack]

theorem step (h : s.Unfilled) (hs : Shards.step cfg s r = some (s', route)) : s'.Unfilled := by
  cases r with
  | append streamId =>
    simp only [Shards.step, h.appendRequest] at hs
    split at hs
    · cases hs
      exact ⟨h.allShards, h.streams, h.numbers⟩
    · split at hs
      · cases hs
        exact ⟨h.allShards, h.streams, h.numbers⟩
      · cases hs
  | read gIdx streamId =>
    obtain ⟨_, -, heq⟩ := Option.map_eq_some_iff.1 hs
    cases heq
    exact h
  | ack gIdx =>
    cases hs
    exact ⟨h.allShards, h.streams, h.numbers⟩

theorem run (hr : (machine cfg).Run s tr s') (h : s.Unfilled) : s'.Unfilled := by
  induction hr with
  | nil => exact h
  | snoc _ hs ih => exact ih.step hs

end Unfilled

/-- **What is routed.** After any run of a new switch, an append is routed unless it is to go to a
shard, and a read unless its number is to be taken modulo the number of shards. -/
theorem routed_iff (hr : (machine cfg).Run (construct cfg yamlVec) tr s) (r : Request) :
    (step cfg s r).isSome ↔ s.Routable cfg r := by
  have h := Unfilled.run hr unfilled_construct
  cases r with
  | append streamId => exact h.isSome_appendRequest streamId
  | read gIdx streamId =>
    rw [step, Option.isSome_map]
    exact h.isSome_readRequest gIdx streamId
  | ack gIdx => exact ⟨fun _ => trivial, fun _ => rfl⟩

/-- Nothing is stored. Two appends, an acknowledgement and a read of the first have been routed, and
so are another append and the same read. -/
theorem routed_iff_behind : ∃ tr s,
    (machine ⟨true, false, false, 1⟩).Run (construct ⟨true, false, false, 1⟩ ["a", "b"]) tr s ∧
      tr.map Prod.snd = [.client, .client, .nowhere, .nowhere] ∧ s.Acked ⟨true, false, false, 1⟩ 1 ∧
      (step ⟨true, false, false, 1⟩ s (.append 7)).isSome ∧
      (step ⟨true, false, false, 1⟩ s (.read (htonl 1) 7)).isSome := by
  have hx : (machine ⟨true, false, false, 1⟩).exec (construct ⟨true, false, false, 1⟩ ["a", "b"])
    [.append 7, .append 5, .ack (htonl 1), .read (htonl 1) 7] = some (_, _) := rfl
  have hr := Machine.Run.of_exec hx
  exact ⟨_, _, hr, rfl, by decide, (routed_iff hr _).2 (.inl rfl), (routed_iff hr _).2 (.inl rfl)⟩

def twoShards (useStreams : Bool) : Config := ⟨true, useStreams, true, 1⟩

/-- The first append is not routed, whether streams are dealt out or numbers. -/
theorem first_append_not_routed :
    (step (twoShards true) (construct (twoShards true) ["a", "b"]) (.append 1)).isSome = false ∧
      (step (twoShards false) (construct (twoShards false) ["a", "b"]) (.append 1)).isSome =
        false := by
  have hrouted : ∀ useStreams, (step (twoShards useStreams)
      (construct (twoShards useStreams) ["a", "b"]) (.append 1)).isSome → False := by
    intro useStreams hsome
    have hoff : (twoShards useStreams).useStore = false ∨
        (twoShards useStreams).useShards = false :=
      (unfilled_construct.isSome_appendRequest 1).1 hsome
    cases hoff <;> contradiction
  exact ⟨Bool.eq_false_iff.2 (hrouted true), Bool.eq_false_iff.2 (hrouted false)⟩

/-! ## With the shards filled in -/

/-- Each shard that is or will be dealt out has its servers and its multicast address. -/
structure Filled (s : Shards) : Prop where
  pos : 0 < s.allShards.length
  addresses : s.allShards.length ≤ s.allShardsMulticast.length
  next : s.nextAvailableShard.toNat < s.allShards.length
  streams : ∀ k x, s.streamIdToShardId k = some x → x.toNat < s.allShards.length
  numbers : ∀ k x, s.seqIdxToShardId k = some x → x.toNat < s.allShards.length

theorem modSize_eq (hn : 0 < n) : ∃ x, modSize v n = some x ∧ x.toNat < n := by
  refine ⟨_, if_neg (Nat.ne_of_gt hn), ?_⟩
  have hlt := Nat.mod_lt v.toNat hn
  rw [BitVec.toNat_ofNat]
  exact Nat.lt_of_le_of_lt (Nat.mod_le ..) hlt

namespace Filled

theorem choose (h : s.Filled) (hmap : ∀ k x, map k = some x → x.toNat < s.allShards.length)
    (keyId : BitVec 64) : ∃ addr map' next, s.choose map keyId = some (addr, map', next) ∧
      next.toNat < s.allShards.length ∧ ∀ k x, map' k = some x → x.toNat < s.allShards.length := by
  unfold Shards.choose
  cases hk : map keyId with
  | some second =>
    have hlt := Nat.lt_of_lt_of_le (hmap _ _ hk) h.addresses
    exact ⟨_, map, s.nextAvailableShard, by simp only [List.getElem?_eq_getElem hlt]; rfl,
      h.next, hmap⟩
  | none =>
    have hlt := Nat.lt_of_lt_of_le h.next h.addresses
    obtain ⟨next, hnext, hbound⟩ := modSize_eq (v := s.nextAvailableShard + 1) h.pos
    refine ⟨_, _, next, by simp only [List.getElem?_eq_getElem hlt, hnext]; rfl, hbound, ?_⟩
    intro k x hx
    by_cases hkey : k = keyId
    · subst hkey
      rw [Function.update_self] at hx
      cases hx
      exact h.next
    · rw [Function.update_of_ne hkey] at hx
      exact hmap k x hx

theorem lookup (hmap : ∀ k x, map k = some x → x.toNat < s.allShards.length)
    (keyId : BitVec 64) : ∃ shard, s.lookup map keyId = some shard := by
  unfold Shards.lookup
  cases hk : map keyId with
  | some second => exact ⟨_, List.getElem?_eq_getElem (hmap _ _ hk)⟩
  | none => exact ⟨[], rfl⟩

theorem appendRequest (h : s.Filled) (cfg : Config) (streamId : BitVec 32) :
    ∃ s' route, s.appendRequest cfg streamId = some (s', route) ∧ s'.Filled := by
  have h' : Filled { s with maxIdx := s.maxIdx + 1 } :=
    ⟨h.pos, h.addresses, h.next, h.streams, h.numbers⟩
  unfold Shards.appendRequest
  cases cfg.useStore with
  | false => exact ⟨_, _, rfl, h'⟩
  | true =>
    cases cfg.useShards with
    | false => exact ⟨_, _, rfl, h'⟩
    | true =>
      cases cfg.useStreams with
      | true =>
        obtain ⟨addr, map, next, heq, hnext, hmap⟩ :=
          h'.choose h.streams ((ntohl streamId).setWidth 64)
        refine ⟨{ s with
          maxIdx := s.maxIdx + 1, streamIdToShardId := map, nextAvailableShard := next },
          .shard addr, ?_, ⟨h.pos, h.addresses, hnext, hmap, h.numbers⟩⟩
        simp only [heq, ↓reduceIte]
        rfl
      | false =>
        obtain ⟨keyId, hkey, -⟩ :=
          modSize_eq (v := seqNo (htonl ((s.maxIdx + 1).truncate 32))) h.pos
        obtain ⟨addr, map, next, heq, hnext, hmap⟩ := h'.choose h.numbers keyId
        refine ⟨{ s with
          maxIdx := s.maxIdx + 1, seqIdxToShardId := map, nextAvailableShard := next },
          .shard addr, ?_, ⟨h.pos, h.addresses, hnext, h.streams, hmap⟩⟩
        have hseq : modSize (seqNo (htonl ((s.maxIdx + 1).truncate 32))) s.allShards.length =
          some keyId := hkey
        simp only [hseq, Bool.false_eq_true, ↓reduceIte]
        rw [Option.bind_eq_bind, Option.bind_some, heq]
        rfl

theorem readRequest (h : s.Filled) (cfg : Config) (gIdx streamId : BitVec 32) :
    ∃ route, s.readRequest cfg gIdx streamId = some route := by
  obtain ⟨keyId, hkey, -⟩ := modSize_eq (v := seqNo gIdx) h.pos
  obtain ⟨stream, hstream⟩ := lookup h.streams ((ntohl streamId).setWidth 64)
  obtain ⟨shard, hshard⟩ := lookup h.numbers keyId
  rw [← Option.isSome_iff_exists]
  unfold Shards.readRequest
  by_cases hmax : s.maxIdx < seqNo gIdx
  · simp [hmax]
  · by_cases hack : s.Acked cfg (seqNo gIdx)
    · simp only [hmax, hack, not_true_eq_false, ↓reduceIte]
      cases cfg.useStore with
      | false => rfl
      | true =>
        cases cfg.useShards with
        | false => rfl
        | true =>
          cases cfg.useStreams with
          | true => simp [hstream]
          | false => simp [hkey, hshard]
    · simp [hmax, hack]

theorem step (h : s.Filled) (cfg : Config) (r : Request) :
    ∃ s' route, Shards.step cfg s r = some (s', route) ∧ s'.Filled := by
  cases r with
  | append streamId => exact h.appendRequest cfg streamId
  | read gIdx streamId =>
    obtain ⟨route, hroute⟩ := h.readRequest cfg gIdx streamId
    exact ⟨s, route, by simp [Shards.step, hroute], h⟩
  | ack gIdx => exact ⟨_, _, rfl, ⟨h.pos, h.addresses, h.next, h.streams, h.numbers⟩⟩

/-- With the shards filled in, every sequence of requests is routed. -/
theorem run (h : s.Filled) (cfg : Config) (rs : List Request) :
    ∃ tr s', (machine cfg).Run s tr s' ∧ tr.map Prod.fst = rs ∧ s'.Filled := by
  induction rs using List.reverseRecOn with
  | nil => exact ⟨[], s, .nil s, rfl, h⟩
  | append_singleton rs r ih =>
    obtain ⟨tr, s₁, hr, hrs, h₁⟩ := ih
    obtain ⟨s', route, hs, h'⟩ := h₁.step cfg r
    exact ⟨tr ++ [(r, route)], s', hr.snoc hs, by simp [hrs], h'⟩

end Filled

end Shards

end Pringles.Software
