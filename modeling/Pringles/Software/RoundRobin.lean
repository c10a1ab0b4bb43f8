import Pringles.Lib.RoundRobin
import Pringles.Software.Shards

/-!
# Sharding in turn

One thread of `append_request`, with the shards filled in. Streams, or remainders of sequence numbers,
are the keys that are dealt out: a key stays on the shard of its first append, and the shards take
turns at getting new keys (`RoundRobin.place`).
-/

namespace Pringles.Software.Shards

open FirstOrder RoundRobin

variable {cfg : Config} {s s' : Shards} {r : Request} {route : Route} {map : ShardMap}
  {keyId next : BitVec 64} {size : Nat} {tr : List (Request × Route)}
  {items : List (BitVec 64 × Route)} {allShards : List (List String)}
  {allShardsMulticast : List String}

/-- A switch that has its shards, and has routed nothing yet. -/
def fill (allShards : List (List String)) (allShardsMulticast : List String) : Shards where
  allShards := allShards
  allShardsMulticast := allShardsMulticast

/-- The map that shards are looked up in. -/
def shardMap (cfg : Config) (s : Shards) : ShardMap :=
  if cfg.useStreams then s.streamIdToShardId else s.seqIdxToShardId

def Request.append? : Request → Option (BitVec 32)
  | .append streamId => some streamId
  | .read .. => none
  | .ack _ => none

/-- The streams of the appends of a run, with where they went. -/
def appends (tr : List (Request × Route)) : List (BitVec 32 × Route) :=
  tr.filterMap fun x => x.1.append?.map fun streamId => (streamId, x.2)

/-- The key of an append of `streamId` that gets the number `n`. -/
def keyOf (cfg : Config) (size n : Nat) (streamId : BitVec 32) : BitVec 64 :=
  if cfg.useStreams then (ntohl streamId).setWidth 64 else BitVec.ofNat 64 (n % size)

/-- The keys of the appends of a run; the first append has got the number 1. -/
def keyed (cfg : Config) (size : Nat) (tr : List (Request × Route)) : List (BitVec 64 × Route) :=
  (appends tr).mapIdx fun i a => (keyOf cfg size (i + 1) a.1, a.2)

/-- An append with the route has gone to shard `x`. -/
def GoesTo (allShardsMulticast : List String) (route : Route) (x : BitVec 64) : Prop :=
  ∃ addr, allShardsMulticast[x.toNat]? = some addr ∧ route = .shard addr

/-! ## One choice -/

/-- The map and the next shard after the keys of `items` have been dealt out. -/
structure Dealt (size : Nat) (items : List (BitVec 64 × Route)) (map : ShardMap)
    (next : BitVec 64) : Prop where
  next : next.toNat = (keys items).length % size
  map : ∀ k, map k = if k ∈ keys items then some (BitVec.ofNat 64 (place size items k)) else none

/-- The routes lead to the shards that the map names. -/
def Follows (allShardsMulticast : List String) (items : List (BitVec 64 × Route))
    (map : ShardMap) : Prop :=
  ∀ k route, (k, route) ∈ items → ∃ x, map k = some x ∧ GoesTo allShardsMulticast route x

theorem Dealt.map_of_mem (h : Dealt size items map next) (hk : keyId ∈ keys items) :
    map keyId = some (BitVec.ofNat 64 (place size items keyId)) := by
  rw [h.map, if_pos hk]

theorem toNat_next (hnext : next.toNat = n % size) (hn : n + 1 < 2 ^ 64) (hsize : 0 < size) :
    modSize (next + 1) size = some (BitVec.ofNat 64 ((n + 1) % size)) := by
  have hle : n % size ≤ n := Nat.mod_le ..
  have hone : (next + 1).toNat = n % size + 1 := by
    rw [BitVec.toNat_add, hnext]
    exact Nat.mod_eq_of_lt (by rw [show (1 : BitVec 64).toNat = 1 from rfl]; omega)
  rw [modSize, if_neg (Nat.ne_of_gt hsize), hone, Nat.mod_add_mod]

theorem toNat_place_lt (hsize : 0 < size) :
    (BitVec.ofNat 64 (place size items keyId)).toNat < size := by
  rw [BitVec.toNat_ofNat]
  exact Nat.lt_of_le_of_lt (Nat.mod_le ..) (place_lt hsize)

namespace Dealt

/-- An append of a key that has a shard. -/
theorem again (h : Dealt size items map next) (hk : keyId ∈ keys items) (route : Route) :
    Dealt size (items ++ [(keyId, route)]) map next := by
  have hkeys : keys (items ++ [(keyId, route)]) = keys items := by rw [keys_snoc, if_pos hk]
  constructor
  · rw [hkeys, h.next]
  · intro k
    rw [h.map, hkeys]
    split
    · next hmem => rw [place_snoc hmem]
    · rfl

/-- An append of a key that gets the next shard. -/
theorem first (h : Dealt size items map next) (hk : keyId ∉ keys items) (route : Route)
    (hlen : (keys items).length + 1 < 2 ^ 64) :
    Dealt size (items ++ [(keyId, route)]) (Function.update map keyId (some next))
      (BitVec.ofNat 64 (((keys items).length + 1) % size)) := by
  have hkeys : keys (items ++ [(keyId, route)]) = keys items ++ [keyId] := by
    rw [keys_snoc, if_neg hk]
  constructor
  · have hle := Nat.mod_le ((keys items).length + 1) size
    rw [hkeys, List.length_append, List.length_singleton, BitVec.toNat_ofNat,
      Nat.mod_eq_of_lt (by omega)]
  · intro k
    by_cases hkey : k = keyId
    · subst hkey
      have hnext : next = BitVec.ofNat 64 ((keys items).length % size) := by
        rw [← h.next, BitVec.ofNat_toNat, BitVec.setWidth_eq]
      rw [Function.update_self, if_pos (mem_keys_snoc.2 (.inr rfl)), place_self hk, hnext]
    · have hiff : k ∈ keys (items ++ [(keyId, route)]) ↔ k ∈ keys items := by
        rw [mem_keys_snoc, or_iff_left hkey]
      rw [Function.update_of_ne hkey, h.map]
      simp only [hiff]
      split
      · next hmem => rw [place_snoc hmem]
      · rfl

end Dealt

theorem Follows.snoc {map' : ShardMap} {x : BitVec 64}
    (h : Follows allShardsMulticast items map)
    (hkept : ∀ k ∈ keys items, map' k = map k) (hx : map' keyId = some x)
    (hgoes : GoesTo allShardsMulticast route x) :
    Follows allShardsMulticast (items ++ [(keyId, route)]) map' := by
  intro k route' hmem
  rcases List.mem_append.1 hmem with hmem | hmem
  · rw [hkept k (mem_keys.2 ⟨route', hmem⟩)]
    exact h k route' hmem
  · cases List.mem_singleton.1 hmem
    exact ⟨x, hx, hgoes⟩

/-- One choice, of a key that has a shard or of one that gets the next. -/
theorem choose_dealt (h : Dealt size items map s.nextAvailableShard)
    (hfollows : Follows s.allShardsMulticast items map) (hall : s.allShards.length = size)
    (haddr : s.allShardsMulticast.length = size) (hsize : 0 < size)
    (hlen : (keys items).length + 1 < 2 ^ 64) (keyId : BitVec 64) :
    ∃ addr map' next', s.choose map keyId = some (addr, map', next') ∧
      Dealt size (items ++ [(keyId, .shard addr)]) map' next' ∧
      Follows s.allShardsMulticast (items ++ [(keyId, .shard addr)]) map' := by
  unfold choose
  by_cases hk : keyId ∈ keys items
  · have hx := h.map_of_mem hk
    have hlt : (BitVec.ofNat 64 (place size items keyId)).toNat < size := toNat_place_lt hsize
    generalize BitVec.ofNat 64 (place size items keyId) = x at hx hlt
    have hlt : x.toNat < s.allShardsMulticast.length := by
      rw [haddr]
      exact hlt
    have hget := List.getElem?_eq_getElem hlt
    refine ⟨s.allShardsMulticast[x.toNat], map, s.nextAvailableShard, ?_, h.again hk _, ?_⟩
    · simp only [hx, hget]
      rfl
    · exact hfollows.snoc (fun _ _ => rfl) hx ⟨_, hget, rfl⟩
  · have hnone : map keyId = none := by rw [h.map, if_neg hk]
    have hlt : s.nextAvailableShard.toNat < s.allShardsMulticast.length := by
      rw [h.next, haddr]
      exact Nat.mod_lt _ hsize
    have hget := List.getElem?_eq_getElem hlt
    refine ⟨s.allShardsMulticast[s.nextAvailableShard.toNat], _, _, ?_,
      h.first hk _ hlen, ?_⟩
    · simp only [hnone, hget, hall, toNat_next h.next hlen hsize]
      rfl
    · refine hfollows.snoc (fun k hmem => ?_) (Function.update_self ..) ⟨_, hget, rfl⟩
      exact Function.update_of_ne (ne_of_mem_of_not_mem hmem hk) ..

/-! ## Runs -/

/-- What holds while requests are routed. -/
structure Dealing (cfg : Config) (size : Nat) (allShardsMulticast : List String)
    (tr : List (Request × Route)) (s : Shards) : Prop where
  filled : s.Filled
  allShards : s.allShards.length = size
  addresses : s.allShardsMulticast = allShardsMulticast
  maxIdx : s.maxIdx = BitVec.ofNat 64 (appends tr).length
  dealt : Dealt size (keyed cfg size tr) (s.shardMap cfg) s.nextAvailableShard
  follows : Follows allShardsMulticast (keyed cfg size tr) (s.shardMap cfg)

theorem dealing_fill (hall : allShards.length = size) (haddr : allShardsMulticast.length = size)
    (hsize : 0 < size) :
    Dealing cfg size allShardsMulticast [] (fill allShards allShardsMulticast) where
  filled := {
    pos := hall ▸ hsize
    addresses := (hall.trans haddr.symm).le
    next := hall ▸ hsize
    streams := fun _ _ h => nomatch h
    numbers := fun _ _ h => nomatch h }
  allShards := hall
  addresses := rfl
  maxIdx := rfl
  dealt := {
    next := (Nat.zero_mod size).symm
    map := by
      intro k
      rw [shardMap]
      split <;> rfl }
  follows := fun _ _ h => nomatch h

theorem appends_snoc : appends (tr ++ [(r, route)]) =
    appends tr ++ (r.append?.map fun streamId => (streamId, route)).toList := by
  rw [appends, List.filterMap_append]
  cases r <;> rfl

theorem keyed_snoc (streamId : BitVec 32) : keyed cfg size (tr ++ [(.append streamId, route)]) =
    keyed cfg size tr ++ [(keyOf cfg size ((appends tr).length + 1) streamId, route)] := by
  rw [keyed, appends_snoc]
  exact List.mapIdx_concat

theorem keyed_streams (hstreams : cfg.useStreams = true) :
    keyed cfg size tr = (appends tr).map fun a => ((ntohl a.1).setWidth 64, a.2) := by
  refine List.ext_getElem? fun i => ?_
  simp only [keyed, keyOf, hstreams, ↓reduceIte, List.getElem?_mapIdx, List.getElem?_map]

theorem length_keyed : (keyed cfg size tr).length = (appends tr).length := List.length_mapIdx

/-- An append goes where the choice for its key leads. -/
theorem appendRequest_choose (hstore : cfg.useStore = true) (hshards : cfg.useShards = true)
    {n : Nat} (hsize : 0 < s.allShards.length) (hmax : (s.maxIdx + 1).toNat = n)
    (hn : n < 2 ^ 32) {streamId : BitVec 32} {addr : String}
    (hchoose : Shards.choose { s with maxIdx := s.maxIdx + 1 } (s.shardMap cfg)
      (keyOf cfg s.allShards.length n streamId) = some (addr, map, next)) :
    ∃ s', s.appendRequest cfg streamId = some (s', .shard addr) ∧ s'.allShards = s.allShards ∧
      s'.allShardsMulticast = s.allShardsMulticast ∧ s'.maxIdx = s.maxIdx + 1 ∧
      s'.shardMap cfg = map ∧ s'.nextAvailableShard = next := by
  unfold appendRequest
  rw [hstore, hshards]
  unfold shardMap keyOf at hchoose
  cases hstreams : cfg.useStreams with
  | true =>
    simp only [hstreams, ↓reduceIte] at hchoose ⊢
    rw [hchoose]
    refine ⟨_, rfl, rfl, rfl, rfl, ?_, rfl⟩
    rw [shardMap, hstreams, if_pos rfl]
  | false =>
    have hkey : modSize (seqNo (htonl ((s.maxIdx + 1).truncate 32))) s.allShards.length =
        some (BitVec.ofNat 64 (n % s.allShards.length)) := by
      rw [modSize, if_neg (Nat.ne_of_gt hsize), toNat_seqNo_htonl, hmax, Nat.mod_eq_of_lt hn]
    simp only [hstreams, Bool.false_eq_true, ↓reduceIte] at hchoose ⊢
    rw [hkey, Option.bind_eq_bind, Option.bind_some, hchoose]
    refine ⟨_, rfl, rfl, rfl, rfl, ?_, rfl⟩
    rw [shardMap, hstreams, if_neg Bool.false_ne_true]

namespace Dealing

theorem append (h : Dealing cfg size allShardsMulticast tr s)
    (hstore : cfg.useStore = true) (hshards : cfg.useShards = true)
    (haddr : allShardsMulticast.length = size) (hsize : 0 < size)
    (hlen : (appends tr).length + 1 < 2 ^ 32) (streamId : BitVec 32) :
    ∃ s' route, s.appendRequest cfg streamId = some (s', route) ∧
      Dealing cfg size allShardsMulticast (tr ++ [(.append streamId, route)]) s' := by
  have hall := h.allShards
  have hmax : (s.maxIdx + 1).toNat = (appends tr).length + 1 := by
    rw [BitVec.toNat_add, h.maxIdx, BitVec.toNat_ofNat, show (1 : BitVec 64).toNat = 1 from rfl]
    omega
  have hkeys : (keys (keyed cfg size tr)).length ≤ (appends tr).length :=
    (length_keys_le _).trans_eq length_keyed
  obtain ⟨addr, map', next', hchoose, hdealt, hfollows⟩ :=
    choose_dealt (s := { s with maxIdx := s.maxIdx + 1 }) h.dealt (h.addresses ▸ h.follows) hall
      (h.addresses ▸ haddr) hsize (by omega) (keyOf cfg size ((appends tr).length + 1) streamId)
  subst hall
  obtain ⟨s', hs, hall', haddr', hmax', rfl, rfl⟩ :=
    appendRequest_choose hstore hshards hsize hmax hlen hchoose
  obtain ⟨s'', route, hs', hfilled⟩ := h.filled.appendRequest cfg streamId
  cases hs.symm.trans hs'
  refine ⟨s', _, hs, hfilled, congrArg List.length hall', haddr'.trans h.addresses, ?_, ?_, ?_⟩
  · rw [hmax', h.maxIdx, appends_snoc]
    rw [List.length_append]
    exact (BitVec.ofNat_add _ 1).symm
  · rw [keyed_snoc]
    exact hdealt
  · rw [keyed_snoc]
    exact h.addresses ▸ hfollows

/-- A request that is no append. -/
theorem other (h : Dealing cfg size allShardsMulticast tr s) (hr : r.append? = none)
    (route : Route) : Dealing cfg size allShardsMulticast (tr ++ [(r, route)]) s := by
  have happends : appends (tr ++ [(r, route)]) = appends tr := by
    rw [appends_snoc, hr]
    exact List.append_nil _
  have hkeyed : keyed cfg size (tr ++ [(r, route)]) = keyed cfg size tr := by
    rw [keyed, happends, keyed]
  constructor
  · exact h.filled
  · exact h.allShards
  · exact h.addresses
  · rw [happends, h.maxIdx]
  · exact hkeyed ▸ h.dealt
  · exact hkeyed ▸ h.follows

theorem step (h : Dealing cfg size allShardsMulticast tr s)
    (hstore : cfg.useStore = true) (hshards : cfg.useShards = true)
    (haddr : allShardsMulticast.length = size) (hsize : 0 < size)
    (hlen : (appends tr).length + 1 < 2 ^ 32 ∨ r.append? = none) :
    ∃ s' route, Shards.step cfg s r = some (s', route) ∧
      Dealing cfg size allShardsMulticast (tr ++ [(r, route)]) s' := by
  cases r with
  | append streamId =>
    exact h.append hstore hshards haddr hsize (hlen.resolve_right nofun) streamId
  | read gIdx streamId =>
    obtain ⟨route, hroute⟩ := h.filled.readRequest cfg gIdx streamId
    exact ⟨s, route, by rw [Shards.step, hroute]; rfl, h.other rfl route⟩
  | ack gIdx =>
    have h' := h.other (r := .ack gIdx) rfl .nowhere
    have hf := h'.filled
    exact ⟨_, _, rfl, ⟨hf.pos, hf.addresses, hf.next, hf.streams, hf.numbers⟩, h'.allShards,
      h'.addresses, h'.maxIdx, h'.dealt, h'.follows⟩

end Dealing

theorem length_appends :
    (appends tr).length = ((tr.map Prod.fst).filterMap Request.append?).length := by
  induction tr using List.reverseRecOn with
  | nil => rfl
  | append_singleton tr x ih =>
    obtain ⟨r, route⟩ := x
    rw [appends_snoc, List.length_append, ih, List.map_append, List.filterMap_append,
      List.length_append]
    cases r <;> rfl

theorem dealing_run (hall : allShards.length = size) (haddr : allShardsMulticast.length = size)
    (hsize : 0 < size) (hstore : cfg.useStore = true) (hshards : cfg.useShards = true)
    (rs : List Request) (hlen : (rs.filterMap Request.append?).length < 2 ^ 32) :
    ∃ tr s, (machine cfg).Run (fill allShards allShardsMulticast) tr s ∧
      tr.map Prod.fst = rs ∧ Dealing cfg size allShardsMulticast tr s := by
  induction rs using List.reverseRecOn with
  | nil => exact ⟨[], _, .nil _, rfl, dealing_fill hall haddr hsize⟩
  | append_singleton rs r ih =>
    rw [List.filterMap_append, List.length_append] at hlen
    obtain ⟨tr, s, hr, rfl, h⟩ := ih (by omega)
    have hroom : (appends tr).length + 1 < 2 ^ 32 ∨ r.append? = none := by
      rw [length_appends]
      cases r with
      | append streamId => exact .inl hlen
      | read gIdx streamId => exact .inr rfl
      | ack gIdx => exact .inr rfl
    obtain ⟨s', route, hs, h'⟩ := h.step hstore hshards haddr hsize hroom
    exact ⟨tr ++ [(r, route)], s', hr.snoc hs, by rw [List.map_append]; rfl, h'⟩

/-! ## What the shards get -/

/-- The streams of a run, in the order of their first appends. -/
def streams (tr : List (Request × Route)) : List (BitVec 64) :=
  keys ((appends tr).map fun a => ((ntohl a.1).setWidth 64, a.2))

/-- All appends of a stream go to one shard, and the streams are dealt out in turn. -/
structure StreamsInTurn (size : Nat) (allShardsMulticast : List String)
    (tr : List (Request × Route)) (s : Shards) : Prop where
  goes : ∀ streamId route, (streamId, route) ∈ appends tr →
    ∃ x, s.streamIdToShardId ((ntohl streamId).setWidth 64) = some x ∧
      GoesTo allShardsMulticast route x
  turn : ∀ i k, (streams tr)[i]? = some k →
    ∃ x, s.streamIdToShardId k = some x ∧ x.toNat = i % size
  balanced : ∀ x y : BitVec 64, x.toNat < size → y.toNat < size →
    (streams tr).countP (fun k => s.streamIdToShardId k = some x) ≤
      (streams tr).countP (fun k => s.streamIdToShardId k = some y) + 1

/-- The shard that `append_request` looks up for the sequence number `n`. -/
def shardOfNumber (size : Nat) (s : Shards) (n : Nat) : Option (BitVec 64) :=
  s.seqIdxToShardId (BitVec.ofNat 64 (n % size))

/-- Sequence numbers that are less than `size` apart go to different shards. -/
structure NumbersInTurn (size : Nat) (allShardsMulticast : List String)
    (tr : List (Request × Route)) (s : Shards) : Prop where
  drawn : s.maxIdx.toNat = (appends tr).length
  goes : ∀ i streamId route, (appends tr)[i]? = some (streamId, route) →
    ∃ x, s.shardOfNumber size (i + 1) = some x ∧ GoesTo allShardsMulticast route x
  different : ∀ m n, 0 < m → m < n → n < m + size → n ≤ (appends tr).length →
    s.shardOfNumber size m ≠ s.shardOfNumber size n

namespace Dealing

theorem toNat_place (h : Dealing cfg size allShardsMulticast tr s)
    (hlen : (appends tr).length < 2 ^ 32) (hk : keyId ∈ keys (keyed cfg size tr)) :
    ∃ x, s.shardMap cfg keyId = some x ∧ x.toNat = place size (keyed cfg size tr) keyId := by
  refine ⟨_, h.dealt.map_of_mem hk, ?_⟩
  have hlt := List.idxOf_lt_length_iff.2 hk
  have hle := length_keys_le (keyed cfg size tr)
  have hmod := Nat.mod_le ((keys (keyed cfg size tr)).idxOf keyId) size
  rw [length_keyed] at hle
  rw [BitVec.toNat_ofNat, place, Nat.mod_eq_of_lt (by omega)]

theorem shardMap_eq_iff (h : Dealing cfg size allShardsMulticast tr s)
    (hlen : (appends tr).length < 2 ^ 32) (hk : keyId ∈ keys (keyed cfg size tr))
    (x : BitVec 64) :
    s.shardMap cfg keyId = some x ↔ place size (keyed cfg size tr) keyId = x.toNat := by
  obtain ⟨y, hy, hplace⟩ := h.toNat_place hlen hk
  rw [hy, ← hplace, Option.some.injEq]
  exact ⟨congrArg _, BitVec.eq_of_toNat_eq⟩

theorem streamsInTurn (h : Dealing cfg size allShardsMulticast tr s)
    (hlen : (appends tr).length < 2 ^ 32) (hstreams : cfg.useStreams = true) :
    StreamsInTurn size allShardsMulticast tr s := by
  have hkeyed : keyed cfg size tr =
      (appends tr).map fun a => ((ntohl a.1).setWidth 64, a.2) := keyed_streams hstreams
  have hmap : s.shardMap cfg = s.streamIdToShardId := by rw [shardMap, hstreams, if_pos rfl]
  have hkeys : keys (keyed cfg size tr) = streams tr := by rw [hkeyed, streams]
  have hiff := fun k (hk : k ∈ streams tr) => h.shardMap_eq_iff hlen (hkeys ▸ hk)
  rw [hmap] at hiff
  constructor
  · intro streamId route hmem
    have hgoes := h.follows ((ntohl streamId).setWidth 64) route <| by
      rw [hkeyed]
      exact List.mem_map.2 ⟨(streamId, route), hmem, rfl⟩
    rw [hmap] at hgoes
    exact hgoes
  · intro i k hk
    obtain ⟨hi, hk⟩ := List.getElem?_eq_some_iff.1 hk
    obtain ⟨x, hx, hplace⟩ := h.toNat_place hlen (hkeys ▸ hk ▸ List.getElem_mem hi)
    refine ⟨x, hmap ▸ hx, ?_⟩
    have hnodup : (streams tr).Nodup := nodup_keys _
    rw [hplace, place, hkeys, ← hk, hnodup.idxOf_getElem]
  · intro x y hx hy
    have hcount : ∀ x : BitVec 64, (streams tr).countP (fun k => s.streamIdToShardId k = some x) =
        (streams tr).countP (fun k => place size (keyed cfg size tr) k = x.toNat) := by
      intro x
      refine List.countP_congr fun k hk => ?_
      rw [decide_eq_true_eq, decide_eq_true_eq, hiff k hk]
    rw [hcount, hcount, ← hkeys]
    exact countP_place_le hx hy

/-- The number `i + 1` comes around with its remainder. -/
theorem place_number (h : Dealing cfg size allShardsMulticast tr s)
    (hlen : (appends tr).length < 2 ^ 32) (hstreams : cfg.useStreams = false) (hsize : 0 < size)
    {i : Nat} (hi : i < (appends tr).length) :
    ∃ x, s.shardOfNumber size (i + 1) = some x ∧ x.toNat = i % size := by
  have hkey : ∀ i streamId, keyOf cfg size (i + 1) streamId =
      BitVec.ofNat 64 ((i % size + 1) % size) := by
    intro i streamId
    rw [keyOf, hstreams, if_neg Bool.false_ne_true, Nat.mod_add_mod]
  have hitems : ∀ i k v, (keyed cfg size tr)[i]? = some (k, v) →
      k = BitVec.ofNat 64 ((i % size + 1) % size) := by
    intro i k v hget
    simp only [keyed, List.getElem?_mapIdx, Option.map_eq_some_iff, Prod.mk.injEq, hkey] at hget
    obtain ⟨_, -, hk, -⟩ := hget
    exact hk.symm
  have hf : Set.InjOn (fun j => BitVec.ofNat 64 ((j + 1) % size))
      (Set.Iio (min (keyed cfg size tr).length size)) := by
    intro j hj j' hj' heq
    rw [length_keyed, Set.mem_Iio, lt_min_iff] at hj hj'
    have hle := Nat.mod_le (j + 1) size
    have hle' := Nat.mod_le (j' + 1) size
    have hmod : (j + 1) % size = (j' + 1) % size := by
      have hnat := congrArg BitVec.toNat heq
      simp only [BitVec.toNat_ofNat] at hnat
      omega
    have hj'' : j % size = j' % size := Nat.ModEq.add_right_cancel' 1 hmod
    rw [Nat.mod_eq_of_lt hj.2, Nat.mod_eq_of_lt hj'.2] at hj''
    exact hj''
  have hmem : BitVec.ofNat 64 ((i % size + 1) % size) ∈ keys (keyed cfg size tr) := by
    rw [keys_cycle hsize hf hitems, length_keyed]
    refine List.mem_map_of_mem (f := fun j => BitVec.ofNat 64 ((j + 1) % size)) ?_
    exact List.mem_range.2 (lt_min ((Nat.mod_le ..).trans_lt hi) (Nat.mod_lt _ hsize))
  obtain ⟨x, hx, hplace⟩ := h.toNat_place hlen hmem
  refine ⟨x, ?_, ?_⟩
  · rw [shardOfNumber, ← Nat.mod_add_mod, ← hx, shardMap, hstreams, if_neg Bool.false_ne_true]
  · rw [hplace]
    exact place_cycle hsize hf hitems (by rw [length_keyed]; exact hi)

theorem numbersInTurn (h : Dealing cfg size allShardsMulticast tr s)
    (hlen : (appends tr).length < 2 ^ 32) (hstreams : cfg.useStreams = false) (hsize : 0 < size) :
    NumbersInTurn size allShardsMulticast tr s := by
  constructor
  · rw [h.maxIdx, BitVec.toNat_ofNat, Nat.mod_eq_of_lt (by omega)]
  · intro i streamId route hget
    have hkeyed : (keyOf cfg size (i + 1) streamId, route) ∈ keyed cfg size tr := by
      refine List.mem_of_getElem? (i := i) ?_
      rw [keyed, List.getElem?_mapIdx, hget]
      rfl
    have hgoes := h.follows _ _ hkeyed
    rw [keyOf, shardMap, hstreams, if_neg Bool.false_ne_true, if_neg Bool.false_ne_true] at hgoes
    exact hgoes
  · intro m n hm hmn hn hle heq
    obtain ⟨i, rfl⟩ := Nat.exists_eq_succ_of_ne_zero hm.ne'
    obtain ⟨j, rfl⟩ := Nat.exists_eq_succ_of_ne_zero (hm.trans hmn).ne'
    obtain ⟨x, hx, hxi⟩ := h.place_number hlen hstreams hsize (i := i) (by omega)
    obtain ⟨y, hy, hyj⟩ := h.place_number hlen hstreams hsize (i := j) (by omega)
    rw [Nat.succ_eq_add_one, hx, hy, Option.some.injEq] at heq
    have hmod : i ≡ j [MOD size] := by rw [Nat.ModEq, ← hxi, ← hyj, heq]
    have hdvd := (Nat.modEq_iff_dvd' (by omega)).1 hmod
    have hge := Nat.le_of_dvd (by omega) hdvd
    omega

end Dealing

/-- Streams or numbers, whichever the switch shards by, are dealt out in turn. -/
structure InTurn (cfg : Config) (size : Nat) (allShardsMulticast : List String)
    (tr : List (Request × Route)) (s : Shards) : Prop where
  streams : cfg.useStreams = true → StreamsInTurn size allShardsMulticast tr s
  numbers : cfg.useStreams = false → NumbersInTurn size allShardsMulticast tr s

/-- **Sharding in turn.** One thread deals out streams, and numbers, one after the other to the
shards, and keeps them there. -/
theorem dealt_in_turn (hall : allShards.length = size) (haddr : allShardsMulticast.length = size)
    (hsize : 0 < size) (hstore : cfg.useStore = true) (hshards : cfg.useShards = true)
    (rs : List Request) (hlen : (rs.filterMap Request.append?).length < 2 ^ 32) :
    ∃ tr s, (machine cfg).Run (fill allShards allShardsMulticast) tr s ∧
      tr.map Prod.fst = rs ∧ InTurn cfg size allShardsMulticast tr s := by
  obtain ⟨tr, s, hr, rfl, h⟩ := dealing_run hall haddr hsize hstore hshards rs hlen
  rw [← length_appends] at hlen
  exact ⟨tr, s, hr, rfl, h.streamsInTurn hlen, fun hs => h.numbersInTurn hlen hs hsize⟩

theorem dealt_in_turn_two : ∃ tr s, (machine (twoShards true)).Run
    (fill [ ["s1"], ["s2"] ] ["a", "b"]) tr s ∧
      tr.map Prod.fst = [.append 1, .append 2, .append 1] ∧
      InTurn (twoShards true) 2 ["a", "b"] tr s :=
  dealt_in_turn (show [ ["s1"], ["s2"] ].length = 2 from rfl) rfl Nat.two_pos rfl rfl _
    (by decide)

end Pringles.Software.Shards
