import Mathlib.Data.List.Forall2
import Mathlib.Data.List.Perm.Basic
import Mathlib.Logic.Function.Basic
import Pringles.Control.SwitchConfig

/-!
# Starting the storage servers

`run_experiment_cycle_pringles` splits the storage servers into shards and starts a server on each
machine of a shard. The split reads behind the list when the last shard is not full
(`setupShards_eq`). A server gets the interface at its position in the shard, not at its position in
the list, and the shard that its address was entered for last (`exists_kept_fits_iff`). And its
command is executed twice: everything is as it should be only when there is no server
(`started_iff`).
-/

namespace Pringles.Control

/-- What the configuration says about the storage servers. -/
structure ServerSetup where
  useShard : Bool
  numServersPerShard : Nat
  numShards : Nat
  storIps : List String
  storNetIfs : List String
  pathServer : String
  jsonOutputName : String

/-- The variables that hold the shards. -/
structure Sharding where
  serverIps : List String := []
  totalListOfShards : List (List String) := []
  shardToMulticastAddr : List String := []
  ipToShard : String → Option Nat := fun _ => none
  numOfShard : Nat := 0

def baseMulticastAddr : String := "239.1.1."

/-! ## The shards -/

namespace Sharding

/-- One turn of the inner loop, for the server at `j`. -/
def placeServer (allServerIps : List String) (st : Sharding × List String) (j : Nat) :
    Except PyError (Sharding × List String) := do
  let ip ← index allServerIps j
  pure ({ st.1 with
    serverIps := st.1.serverIps ++ [ip]
    ipToShard := Function.update st.1.ipToShard ip (some st.1.numOfShard) }, st.2 ++ [ip])

/-- One turn of the outer loop, for the shard that begins at `i`. -/
def placeShard (allServerIps : List String) (sizeOfShard : Nat) (st : Sharding) (i : Nat) :
    Except PyError Sharding := do
  let (st, shard) ← (List.range' i sizeOfShard).foldlM (placeServer allServerIps) (st, [])
  pure { st with
    totalListOfShards := st.totalListOfShards ++ [shard], numOfShard := st.numOfShard + 1 }

def placeShards (allServerIps : List String) (sizeOfShard maxNumShards : Nat) :
    List Nat → Sharding → Except PyError Sharding
  | [], st => pure st
  | i :: is, st => do
    let st ← placeShard allServerIps sizeOfShard st i
    if st.numOfShard = maxNumShards then pure st
    else placeShards allServerIps sizeOfShard maxNumShards is st

/-- `range(0, len(all_server_ips), size_of_shard)`, for a size that is not zero. -/
def firstPositions (n sizeOfShard : Nat) : List Nat :=
  List.range' 0 ((n + sizeOfShard - 1) / sizeOfShard) sizeOfShard

end Sharding

def ServerSetup.setupShards (c : ServerSetup) : Except PyError Sharding :=
  if c.useShard then do
    let st ← Sharding.placeShards c.storIps c.numServersPerShard c.numShards
      (Sharding.firstPositions c.storIps.length c.numServersPerShard) {}
    pure { st with
      shardToMulticastAddr := (List.range st.numOfShard).map fun i => baseMulticastAddr ++ toString i }
  else do
    let ip ← index c.storIps 0
    pure {
      serverIps := [ip]
      totalListOfShards := [ [ip] ]
      shardToMulticastAddr := [baseMulticastAddr ++ toString 0]
      ipToShard := Function.update (fun _ => none) ip (some 0) }

/-! ## The servers -/

/-- What `generate_yaml_config` writes for a server about its place. -/
structure ServerConfig where
  selfIp : String
  storIps : List String
  sendPort : Nat
  recvPort : Nat
  interface : String
  shardId : Nat
  shardMulticastAddr : String

/-- A start of the server program on the machine `ip`. -/
structure Start where
  ip : String
  config : ServerConfig

/-- The machines: whether a file reaches them, and whether a command there can be started. -/
structure Remote where
  transferFile : (path ip : String) → Bool
  executeRemoteCommand : (ip : String) → Bool

structure Remote.Works (remote : Remote) : Prop where
  transfers : ∀ path ip, remote.transferFile path ip = true
  executes : ∀ ip, remote.executeRemoteCommand ip = true

inductive StartError where
  | python (e : PyError)
  | exception (message : String)

def python {α : Type} (x : Except PyError α) : Except StartError α := x.mapError .python

/-- `ip_to_shard[ip]`. -/
def Sharding.shardOf (st : Sharding) (ip : String) : Except PyError Nat :=
  match st.ipToShard ip with
  | some shard => .ok shard
  | none => .error (.keyError ip)

/-- `execute_remote_command` is called twice, and the process of the second call is kept. -/
structure Launch where
  dropped : Start
  kept : Start

/-- The server `ip`, the `i`-th one of its shard. -/
def startServer (remote : Remote) (c : ServerSetup) (st : Sharding) (ip : String) (i : Nat) :
    Except StartError Launch := do
  let networkInterface ← python (index c.storNetIfs i)
  let shardId ← python (st.shardOf ip)
  let shardMulticast ← python (index st.shardToMulticastAddr shardId)
  let portOffset := i * 2
  let config : ServerConfig := {
    selfIp := ip
    storIps := st.serverIps
    sendPort := basePort + portOffset
    recvPort := basePort + portOffset + 1
    interface := networkInterface
    shardId := shardId
    shardMulticastAddr := shardMulticast }
  let configFilename := "server_config_" ++ c.jsonOutputName ++ "_" ++ toString i ++ ".yaml"
  if ¬ remote.transferFile configFilename ip then
    throw (.exception ("Failed to transfer config to server " ++ ip))
  else if ¬ remote.transferFile c.pathServer ip then
    throw (.exception ("Failed to transfer server binary to server " ++ ip))
  else if ¬ remote.executeRemoteCommand ip then
    throw (.exception ("Failed to start server process on " ++ ip))
  else pure ⟨⟨ip, config⟩, ⟨ip, config⟩⟩

/-- The servers of the shards, each with its position in its shard. -/
def Sharding.enumerated (st : Sharding) : List (String × Nat) :=
  st.totalListOfShards.flatMap fun shard => shard.zipIdx

/-- The shards and the storage servers of `run_experiment_cycle_pringles`, without a tunnel, as `main`
calls it. -/
def ServerSetup.run (remote : Remote) (c : ServerSetup) :
    Except StartError (Sharding × List Launch) := do
  let st ← python c.setupShards
  let launches ← st.enumerated.mapM fun x => startServer remote c st x.1 x.2
  pure (st, launches)

/-! ## Where the loop over the shards ends -/

namespace Sharding

variable {allServerIps shard : List String} {sizeOfShard maxNumShards i k n : Nat} {st : Sharding}

/-- The servers from position `i` on. -/
def block (allServerIps : List String) (sizeOfShard k : Nat) : List String :=
  (allServerIps.drop (k * sizeOfShard)).take sizeOfShard

/-- The last of the first `k` shards that an address is in. -/
def lastShard (allServerIps : List String) (sizeOfShard : Nat) : Nat → String → Option Nat
  | 0, _ => none
  | k + 1, ip =>
    if ip ∈ block allServerIps sizeOfShard k then some k
    else lastShard allServerIps sizeOfShard k ip

/-- The variables after `k` shards. -/
def afterShards (allServerIps : List String) (sizeOfShard k : Nat) : Sharding where
  serverIps := allServerIps.take (k * sizeOfShard)
  totalListOfShards := (List.range k).map (block allServerIps sizeOfShard)
  ipToShard := lastShard allServerIps sizeOfShard k
  numOfShard := k

theorem placeServer_of_lt (hi : i < allServerIps.length) :
    placeServer allServerIps (st, shard) i = .ok ({ st with
      serverIps := st.serverIps ++ [allServerIps[i]]
      ipToShard := Function.update st.ipToShard allServerIps[i] (some st.numOfShard) },
      shard ++ [allServerIps[i]]) := by
  rw [placeServer, index, List.getElem?_eq_getElem hi]
  rfl

theorem placeServer_of_le (hi : allServerIps.length ≤ i) :
    placeServer allServerIps (st, shard) i = .error .indexError := by
  rw [placeServer, index, List.getElem?_eq_none hi]
  rfl

/-- The inner loop within the list. -/
theorem placeServers_ok (hn : i + n ≤ allServerIps.length) :
    (List.range' i n).foldlM (placeServer allServerIps) (st, shard) = .ok ({ st with
      serverIps := st.serverIps ++ (allServerIps.drop i).take n
      ipToShard := fun ip => if ip ∈ (allServerIps.drop i).take n then some st.numOfShard
        else st.ipToShard ip }, shard ++ (allServerIps.drop i).take n) := by
  induction n generalizing i st shard with
  | zero =>
    simp only [List.range'_zero, List.foldlM_nil, List.take_zero, List.append_nil,
      List.not_mem_nil, ↓reduceIte]
    rfl
  | succ n ih =>
    have hi : i < allServerIps.length := by omega
    have hdrop : (allServerIps.drop i).take (n + 1) =
        allServerIps[i] :: (allServerIps.drop (i + 1)).take n := by
      rw [List.drop_eq_getElem_cons hi, List.take_succ_cons]
    have hrest : (List.range' (i + 1) n).foldlM (placeServer allServerIps) ({ st with
        serverIps := st.serverIps ++ [allServerIps[i]]
        ipToShard := Function.update st.ipToShard allServerIps[i] (some st.numOfShard) },
        shard ++ [allServerIps[i]]) = _ := ih (by omega)
    have hmap : (fun ip => if ip ∈ (allServerIps.drop (i + 1)).take n then some st.numOfShard
        else Function.update st.ipToShard allServerIps[i] (some st.numOfShard) ip) =
        fun ip => if ip ∈ (allServerIps.drop i).take (n + 1) then some st.numOfShard
          else st.ipToShard ip := by
      funext ip
      rw [hdrop, Function.update_apply]
      by_cases hip : ip = allServerIps[i]
      · simp [hip]
      · simp [hip]
    rw [List.range'_succ, List.foldlM_cons, placeServer_of_lt hi]
    refine hrest.trans ?_
    rw [hmap, hdrop, List.append_assoc, List.append_assoc]
    rfl

/-- The inner loop past the end of the list. -/
theorem placeServers_error (hi : i ≤ allServerIps.length) (hn : allServerIps.length < i + n) :
    (List.range' i n).foldlM (placeServer allServerIps) (st, shard) = .error .indexError := by
  induction n generalizing i st shard with
  | zero => omega
  | succ n ih =>
    rw [List.range'_succ, List.foldlM_cons]
    rcases Nat.lt_or_ge i allServerIps.length with hlt | hge
    · rw [placeServer_of_lt hlt]
      exact ih hlt (by omega)
    · rw [placeServer_of_le hge]
      rfl

theorem placeShard_ok (hk : (k + 1) * sizeOfShard ≤ allServerIps.length) :
    placeShard allServerIps sizeOfShard (afterShards allServerIps sizeOfShard k)
      (k * sizeOfShard) = .ok (afterShards allServerIps sizeOfShard (k + 1)) := by
  have hn : k * sizeOfShard + sizeOfShard ≤ allServerIps.length := by
    rw [← Nat.succ_mul]
    exact hk
  have hips : allServerIps.take (k * sizeOfShard) ++ block allServerIps sizeOfShard k =
      allServerIps.take ((k + 1) * sizeOfShard) := by
    rw [block, Nat.succ_mul, List.take_add]
  have hshards : (List.range (k + 1)).map (block allServerIps sizeOfShard) =
      (List.range k).map (block allServerIps sizeOfShard) ++ [block allServerIps sizeOfShard k] := by
    rw [List.range_succ, List.map_append]
    rfl
  rw [placeShard, placeServers_ok hn, afterShards, afterShards, hshards, ← hips]
  rfl

theorem placeShard_error (hk : k * sizeOfShard ≤ allServerIps.length)
    (hn : allServerIps.length < (k + 1) * sizeOfShard) (st : Sharding) :
    placeShard allServerIps sizeOfShard st (k * sizeOfShard) = .error .indexError := by
  rw [Nat.succ_mul] at hn
  rw [placeShard, placeServers_error hk hn]
  rfl

/-- The outer loop, from the `k`-th shard on: it ends with the last shard that it wants, or with the
list, and fails in a shard that is not full. -/
theorem placeShards_eq (hs : 0 < sizeOfShard) (hk : k * sizeOfShard ≤ allServerIps.length)
    (hlt : k < maxNumShards)
    (hn : k + n = (allServerIps.length + sizeOfShard - 1) / sizeOfShard) :
    placeShards allServerIps sizeOfShard maxNumShards (List.range' (k * sizeOfShard) n sizeOfShard)
      (afterShards allServerIps sizeOfShard k) =
      if sizeOfShard ∣ allServerIps.length ∨ maxNumShards ≤ allServerIps.length / sizeOfShard then
        .ok (afterShards allServerIps sizeOfShard
          (min maxNumShards (allServerIps.length / sizeOfShard)))
      else .error .indexError := by
  have hle : k ≤ allServerIps.length / sizeOfShard := (Nat.le_div_iff_mul_le hs).2 hk
  induction n generalizing k with
  | zero =>
    -- all full shards have been made, and the list ends with the last one
    have hceil : allServerIps.length + sizeOfShard - 1 < (k + 1) * sizeOfShard :=
      (Nat.div_lt_iff_lt_mul hs).1 (by omega)
    have hceil' : allServerIps.length ≤ k * sizeOfShard := by
      rw [Nat.succ_mul] at hceil
      omega
    have heq : allServerIps.length = k * sizeOfShard := Nat.le_antisymm hceil' hk
    have hdiv : allServerIps.length / sizeOfShard = k := by rw [heq, Nat.mul_div_cancel _ hs]
    rw [if_pos (.inl (heq ▸ Nat.dvd_mul_left ..)), hdiv, Nat.min_eq_right (Nat.le_of_lt hlt)]
    rfl
  | succ n ih =>
    rw [List.range'_succ, placeShards]
    by_cases hfull : (k + 1) * sizeOfShard ≤ allServerIps.length
    · have hfull' : k + 1 ≤ allServerIps.length / sizeOfShard :=
        (Nat.le_div_iff_mul_le hs).2 hfull
      rw [placeShard_ok hfull]
      change (if k + 1 = maxNumShards then Except.ok (afterShards allServerIps sizeOfShard (k + 1))
        else placeShards allServerIps sizeOfShard maxNumShards
          (List.range' (k * sizeOfShard + sizeOfShard) n sizeOfShard)
          (afterShards allServerIps sizeOfShard (k + 1))) = _
      by_cases hmax : k + 1 = maxNumShards
      · rw [if_pos hmax, if_pos (.inr (hmax ▸ hfull')), ← hmax, Nat.min_eq_left hfull']
      · rw [if_neg hmax, ← Nat.succ_mul]
        exact ih hfull (by omega) (by omega) hfull'
    · have hdiv : allServerIps.length / sizeOfShard = k :=
        Nat.le_antisymm (Nat.lt_succ_iff.1 ((Nat.div_lt_iff_lt_mul hs).2 (Nat.not_le.1 hfull))) hle
      have hmore : k * sizeOfShard < allServerIps.length := by
        have hlt' : k < (allServerIps.length + sizeOfShard - 1) / sizeOfShard := by omega
        have hmul := (Nat.le_div_iff_mul_le hs).1 hlt'
        rw [Nat.succ_mul] at hmul
        omega
      rw [placeShard_error hk (Nat.not_le.1 hfull), if_neg]
      · rfl
      · rintro (⟨d, hd⟩ | hmax)
        · rw [hd, Nat.mul_div_cancel_left _ hs] at hdiv
          rw [hd, hdiv, Nat.mul_comm] at hmore
          exact Nat.lt_irrefl _ hmore
        · omega

end Sharding

/-- The shards, when they can be made. -/
def ServerSetup.sharding (c : ServerSetup) (n : Nat) : Sharding :=
  { Sharding.afterShards c.storIps c.numServersPerShard n with
    shardToMulticastAddr := (List.range n).map fun i => baseMulticastAddr ++ toString i }

/-- The number of shards that there is to be. -/
def ServerSetup.wanted (c : ServerSetup) : Nat :=
  min c.numShards (c.storIps.length / c.numServersPerShard)

/-- The last shard is full or not wanted. -/
def ServerSetup.Divides (c : ServerSetup) : Prop :=
  c.numServersPerShard ∣ c.storIps.length ∨ c.numShards ≤ c.storIps.length / c.numServersPerShard

instance (c : ServerSetup) : Decidable c.Divides := inferInstanceAs (Decidable (_ ∨ _))

variable {c : ServerSetup} {st : Sharding} {remote : Remote}

theorem ServerSetup.setupShards_eq (hon : c.useShard = true) (hs : 0 < c.numServersPerShard)
    (hm : 0 < c.numShards) :
    c.setupShards = if c.Divides then .ok (c.sharding c.wanted) else .error .indexError := by
  have hzero : 0 * c.numServersPerShard ≤ c.storIps.length := by
    rw [Nat.zero_mul]
    exact Nat.zero_le _
  have hloop := Sharding.placeShards_eq hs hzero hm (Nat.zero_add _)
  rw [Nat.zero_mul] at hloop
  have hstart : Sharding.afterShards c.storIps c.numServersPerShard 0 = {} := by
    rw [Sharding.afterShards, Nat.zero_mul]
    rfl
  rw [hstart] at hloop
  rw [setupShards, if_pos hon, Sharding.firstPositions, hloop]
  by_cases hd : c.Divides
  · rw [if_pos hd, if_pos (show _ ∨ _ from hd)]
    rfl
  · rw [if_neg hd, if_neg (show ¬ (_ ∨ _) from hd)]
    rfl

/-! ## What the shards are -/

namespace Sharding

variable {allServerIps : List String} {sizeOfShard k n j : Nat} {ip : String}

theorem length_block (hk : (k + 1) * sizeOfShard ≤ allServerIps.length) :
    (block allServerIps sizeOfShard k).length = sizeOfShard := by
  rw [Nat.succ_mul] at hk
  rw [block, List.length_take, List.length_drop]
  omega

theorem getElem?_block {i : Nat} (hi : i < sizeOfShard) :
    (block allServerIps sizeOfShard k)[i]? = allServerIps[k * sizeOfShard + i]? := by
  rw [block, List.getElem?_take_of_lt hi, List.getElem?_drop]

theorem flatten_blocks (n : Nat) : ((List.range n).map (block allServerIps sizeOfShard)).flatten =
    allServerIps.take (n * sizeOfShard) := by
  induction n with
  | zero => rw [Nat.zero_mul]; rfl
  | succ n ih =>
    rw [List.range_succ, List.map_append, List.flatten_append, ih, Nat.succ_mul, List.take_add]
    simp [block]

/-- The shard that is found for an address is the last one with the address. -/
theorem lastShard_eq_some : lastShard allServerIps sizeOfShard n ip = some j ↔
    j < n ∧ ip ∈ block allServerIps sizeOfShard j ∧
      ∀ j', j < j' → j' < n → ip ∉ block allServerIps sizeOfShard j' := by
  induction n with
  | zero =>
    rw [lastShard]
    exact iff_of_false (fun h => by cases h) fun h => absurd h.1 (Nat.not_lt_zero _)
  | succ n ih =>
    rw [lastShard]
    by_cases hmem : ip ∈ block allServerIps sizeOfShard n
    · rw [if_pos hmem, Option.some.injEq]
      constructor
      · rintro rfl
        exact ⟨Nat.lt_succ_self _, hmem, fun j' hlt hle => absurd hle (by omega)⟩
      · rintro ⟨hlt, -, hlast⟩
        by_contra hne
        exact hlast n (by omega) (Nat.lt_succ_self n) hmem
    · rw [if_neg hmem, ih]
      constructor
      · rintro ⟨hlt, hj, hlast⟩
        refine ⟨Nat.lt_succ_of_lt hlt, hj, fun j' hj' hle => ?_⟩
        rcases Nat.lt_succ_iff_lt_or_eq.1 hle with hle | rfl
        · exact hlast j' hj' hle
        · exact hmem
      · rintro ⟨hlt, hj, hlast⟩
        have hne : j ≠ n := fun heq => hmem (heq ▸ hj)
        exact ⟨by omega, hj, fun j' hj' hle => hlast j' hj' (by omega)⟩

/-- The servers in the order in which they are started. -/
theorem enumerated_blocks (hn : n * sizeOfShard ≤ allServerIps.length) :
    ((List.range n).map (block allServerIps sizeOfShard)).flatMap (fun shard => shard.zipIdx) =
      (List.range (n * sizeOfShard)).map fun k => (allServerIps.getD k "", k % sizeOfShard) := by
  induction n with
  | zero => rw [Nat.zero_mul]; rfl
  | succ n ih =>
    have hle : n * sizeOfShard ≤ allServerIps.length :=
      Nat.le_trans (Nat.mul_le_mul_right _ (Nat.le_succ n)) hn
    have hlast : (block allServerIps sizeOfShard n).zipIdx =
        (List.range sizeOfShard).map fun i =>
          (allServerIps.getD (n * sizeOfShard + i) "", (n * sizeOfShard + i) % sizeOfShard) := by
      refine List.ext_getElem? fun i => ?_
      rcases Nat.lt_or_ge i sizeOfShard with hi | hi
      · have hget : n * sizeOfShard + i < allServerIps.length := by
          rw [Nat.succ_mul] at hn
          omega
        have hmod : (n * sizeOfShard + i) % sizeOfShard = i := by
          rw [Nat.mul_comm, Nat.mul_add_mod, Nat.mod_eq_of_lt hi]
        rw [List.getElem?_zipIdx, getElem?_block hi, List.getElem?_map, List.getElem?_range hi,
          List.getElem?_eq_getElem hget, Nat.zero_add, Option.map_some, Option.map_some,
          List.getD_eq_getElem?_getD, List.getElem?_eq_getElem hget, Option.getD_some,
          hmod]
      · rw [List.getElem?_eq_none, List.getElem?_eq_none]
        · rw [List.length_map, List.length_range]
          exact hi
        · rw [List.length_zipIdx, length_block hn]
          exact hi
    rw [List.range_succ, List.map_append, List.flatMap_append, ih hle, Nat.succ_mul,
      List.range_add, List.map_append, List.map_map]
    exact congrArg _ ((List.flatMap_singleton ..).trans hlast)

theorem mem_block (hk : (k + 1) * sizeOfShard ≤ allServerIps.length) :
    ip ∈ block allServerIps sizeOfShard k ↔
      ∃ i < sizeOfShard, allServerIps[k * sizeOfShard + i]? = some ip := by
  rw [List.mem_iff_getElem?]
  constructor
  · rintro ⟨i, hi⟩
    obtain ⟨hlt, -⟩ := List.getElem?_eq_some_iff.1 hi
    rw [length_block hk] at hlt
    exact ⟨i, hlt, getElem?_block hlt ▸ hi⟩
  · rintro ⟨i, hi, hget⟩
    exact ⟨i, (getElem?_block hi).trans hget⟩

end Sharding

/-! ## What is asked of the start -/

/-- The shards are blocks of consecutive servers, without a server in two of them. -/
structure ServerSetup.Split (c : ServerSetup) (st : Sharding) : Prop where
  count : st.totalListOfShards.length = c.wanted
  size : ∀ shard ∈ st.totalListOfShards, shard.length = c.numServersPerShard
  consecutive : st.totalListOfShards.flatten = c.storIps.take (c.wanted * c.numServersPerShard)
  disjoint : c.storIps.Nodup → st.totalListOfShards.Pairwise List.Disjoint

/-- The start is the one of the server at position `k` of the list. -/
structure ServerSetup.Fits (c : ServerSetup) (k : Nat) (x : Start) : Prop where
  ip : c.storIps[k]? = some x.ip
  selfIp : x.config.selfIp = x.ip
  shardId : x.config.shardId = k / c.numServersPerShard
  shardMulticastAddr : x.config.shardMulticastAddr =
    baseMulticastAddr ++ toString (k / c.numServersPerShard)
  interface : c.storNetIfs[k]? = some x.config.interface

def Launch.starts (l : Launch) : List Start := [l.dropped, l.kept]

/-- Every server of a shard is started once, as it should be. -/
def ServerSetup.StartedOnce (c : ServerSetup) (launches : List Launch) : Prop :=
  ∃ xs, xs.Perm (launches.flatMap Launch.starts) ∧
    List.Forall₂ c.Fits (List.range (c.wanted * c.numServersPerShard)) xs

/-- The processes that are kept are as they should be. -/
def ServerSetup.KeptFit (c : ServerSetup) (launches : List Launch) : Prop :=
  List.Forall₂ c.Fits (List.range (c.wanted * c.numServersPerShard)) (launches.map Launch.kept)

/-- The server at `k` has the interface of its position in the shard, and its address is in no later
shard. -/
structure ServerSetup.Placed (c : ServerSetup) (k : Nat) : Prop where
  interface : ∃ interface, c.storNetIfs[k % c.numServersPerShard]? = some interface ∧
    c.storNetIfs[k]? = some interface
  lastShard : ∀ k' < c.wanted * c.numServersPerShard,
    k / c.numServersPerShard < k' / c.numServersPerShard → c.storIps[k']? ≠ c.storIps[k]?

/-! ## The split -/

theorem ServerSetup.wanted_mul_le : c.wanted * c.numServersPerShard ≤ c.storIps.length :=
  Nat.le_trans (Nat.mul_le_mul_right _ (Nat.min_le_right ..)) (Nat.div_mul_le_self ..)

theorem ServerSetup.succ_mul_le {k : Nat} (hk : k < c.wanted) :
    (k + 1) * c.numServersPerShard ≤ c.storIps.length :=
  Nat.le_trans (Nat.mul_le_mul_right _ hk) wanted_mul_le

theorem Sharding.disjoint_block {allServerIps : List String} {sizeOfShard j k : Nat}
    (hn : allServerIps.Nodup) (hjk : j < k) :
    (block allServerIps sizeOfShard j).Disjoint (block allServerIps sizeOfShard k) := by
  intro ip hj hk
  have hle : (j + 1) * sizeOfShard ≤ k * sizeOfShard := Nat.mul_le_mul_right _ hjk
  rw [Nat.succ_mul] at hle
  have hbefore : ip ∈ allServerIps.take (k * sizeOfShard) := by
    have htake : ip ∈ (allServerIps.drop (j * sizeOfShard)).take
        (k * sizeOfShard - j * sizeOfShard) :=
      List.take_subset_take_left _ (by omega) hj
    rw [← List.drop_take] at htake
    exact List.mem_of_mem_drop htake
  have hafter : ip ∈ allServerIps.drop (k * sizeOfShard) := List.mem_of_mem_take hk
  exact List.disjoint_take_drop hn (Nat.le_refl _) hbefore hafter

theorem ServerSetup.split_sharding : c.Split (c.sharding c.wanted) where
  count := by
    rw [sharding, Sharding.afterShards, List.length_map, List.length_range]
  size := by
    intro shard hshard
    obtain ⟨k, hk, rfl⟩ := List.mem_map.1 hshard
    exact Sharding.length_block (succ_mul_le (List.mem_range.1 hk))
  consecutive := Sharding.flatten_blocks _
  disjoint hn := List.pairwise_map.2
    (List.pairwise_lt_range.imp fun hjk => Sharding.disjoint_block hn hjk)

theorem ServerSetup.exists_split_iff (hon : c.useShard = true) (hs : 0 < c.numServersPerShard)
    (hm : 0 < c.numShards) : (∃ st, c.setupShards = .ok st ∧ c.Split st) ↔ c.Divides := by
  rw [setupShards_eq hon hs hm]
  by_cases hd : c.Divides
  · rw [if_pos hd]
    exact iff_of_true ⟨_, rfl, split_sharding⟩ hd
  · rw [if_neg hd]
    refine iff_of_false ?_ hd
    rintro ⟨st, hst, -⟩
    cases hst

/-! ## The start of one server -/

/-- The start of the server `ip`, the `i`-th one of its shard. -/
def Sharding.startOf (st : Sharding) (ip : String) (i : Nat) (interface : String) (shard : Nat)
    (multicast : String) : Start where
  ip := ip
  config := {
    selfIp := ip
    storIps := st.serverIps
    sendPort := basePort + i * 2
    recvPort := basePort + i * 2 + 1
    interface := interface
    shardId := shard
    shardMulticastAddr := multicast }

theorem python_bind_eq_ok {α β : Type} {x : Except PyError α} {f : α → Except StartError β}
    {b : β} : (python x >>= f) = .ok b ↔ ∃ a, x = .ok a ∧ f a = .ok b := by
  cases x with
  | error e =>
    refine iff_of_false (fun h => by cases h) ?_
    rintro ⟨a, ha, -⟩
    cases ha
  | ok a =>
    constructor
    · exact fun h => ⟨a, rfl, h⟩
    · rintro ⟨a', ha, h⟩
      cases ha
      exact h

theorem startServer_eq_ok (hworks : remote.Works) {ip : String} {i : Nat} {l : Launch} :
    startServer remote c st ip i = .ok l ↔ ∃ interface, index c.storNetIfs i = .ok interface ∧
      ∃ shard, st.shardOf ip = .ok shard ∧
      ∃ multicast, index st.shardToMulticastAddr shard = .ok multicast ∧
        l = ⟨st.startOf ip i interface shard multicast,
          st.startOf ip i interface shard multicast⟩ := by
  rw [startServer, python_bind_eq_ok]
  refine exists_congr fun interface => and_congr_right fun _ => ?_
  rw [python_bind_eq_ok]
  refine exists_congr fun shard => and_congr_right fun _ => ?_
  rw [python_bind_eq_ok]
  refine exists_congr fun multicast => and_congr_right fun _ => ?_
  rw [if_neg (not_not.2 (hworks.transfers _ _)), if_neg (not_not.2 (hworks.transfers _ _)),
    if_neg (not_not.2 (hworks.executes _))]
  constructor
  · intro h
    cases h
    rfl
  · rintro rfl
    rfl

theorem index_eq_ok {α : Type} {l : List α} {i : Nat} {a : α} :
    index l i = .ok a ↔ l[i]? = some a := by
  rw [index]
  cases l[i]? with
  | none => exact iff_of_false (fun h => by cases h) fun h => by cases h
  | some b => rw [Except.ok.injEq, Option.some.injEq]

theorem Sharding.shardOf_eq_ok {ip : String} {j : Nat} :
    st.shardOf ip = .ok j ↔ st.ipToShard ip = some j := by
  rw [shardOf]
  cases st.ipToShard ip with
  | none => exact iff_of_false (fun h => by cases h) fun h => by cases h
  | some b => rw [Except.ok.injEq, Option.some.injEq]

/-- The shard of the server at `k` is found for its address when no later shard has the address. -/
theorem ServerSetup.lastShard_iff (hs : 0 < c.numServersPerShard) {k : Nat}
    (hk : k < c.wanted * c.numServersPerShard) {ip : String} (hip : c.storIps[k]? = some ip) :
    Sharding.lastShard c.storIps c.numServersPerShard c.wanted ip =
      some (k / c.numServersPerShard) ↔
    ∀ k' < c.wanted * c.numServersPerShard,
      k / c.numServersPerShard < k' / c.numServersPerShard → c.storIps[k']? ≠ c.storIps[k]? := by
  -- a position in the list is one in the block of its shard
  have hmem {k : Nat} (hk : k < c.wanted * c.numServersPerShard) (hip : c.storIps[k]? = some ip) :
      ip ∈ Sharding.block c.storIps c.numServersPerShard (k / c.numServersPerShard) := by
    rw [Sharding.mem_block (succ_mul_le ((Nat.div_lt_iff_lt_mul hs).2 hk))]
    refine ⟨k % c.numServersPerShard, Nat.mod_lt _ hs, ?_⟩
    rw [Nat.div_add_mod']
    exact hip
  rw [Sharding.lastShard_eq_some, hip]
  constructor
  · rintro ⟨-, -, hlast⟩ k' hk' hlt hip'
    exact hlast _ hlt ((Nat.div_lt_iff_lt_mul hs).2 hk') (hmem hk' hip')
  · intro hlast
    refine ⟨(Nat.div_lt_iff_lt_mul hs).2 hk, hmem hk hip, fun j hj hjw hin => ?_⟩
    obtain ⟨i, hi, hget⟩ := (Sharding.mem_block (succ_mul_le hjw)).1 hin
    have hdiv : (j * c.numServersPerShard + i) / c.numServersPerShard = j := by
      rw [Nat.mul_comm, Nat.mul_add_div hs, Nat.div_eq_of_lt hi, Nat.add_zero]
    refine hlast _ ?_ (hdiv.symm ▸ hj) hget
    exact (Nat.div_lt_iff_lt_mul hs).1 (hdiv.symm ▸ hjw)

/-- When the server at `k` is started as it should be. -/
theorem ServerSetup.exists_kept_fits_iff (hs : 0 < c.numServersPerShard) (hworks : remote.Works)
    {k : Nat} (hk : k < c.wanted * c.numServersPerShard) :
    (∃ l, startServer remote c (c.sharding c.wanted) (c.storIps.getD k "")
      (k % c.numServersPerShard) = .ok l ∧ c.Fits k l.kept) ↔ c.Placed k := by
  have hlt : k < c.storIps.length := Nat.lt_of_lt_of_le hk wanted_mul_le
  have hip : c.storIps[k]? = some (c.storIps.getD k "") := by
    rw [List.getD_eq_getElem?_getD, List.getElem?_eq_getElem hlt, Option.getD_some]
  constructor
  · rintro ⟨l, hl, hfits⟩
    obtain ⟨interface, hinterface, shard, hshard, multicast, -, rfl⟩ :=
      (startServer_eq_ok hworks).1 hl
    refine ⟨⟨interface, index_eq_ok.1 hinterface, hfits.interface⟩, ?_⟩
    have hlast := Sharding.shardOf_eq_ok.1 hshard
    rw [show shard = k / c.numServersPerShard from hfits.shardId] at hlast
    exact (lastShard_iff hs hk hip).1 hlast
  · rintro ⟨⟨interface, hi, hk'⟩, hlast⟩
    have hshard : k / c.numServersPerShard < c.wanted := (Nat.div_lt_iff_lt_mul hs).2 hk
    have hmulticast : (c.sharding c.wanted).shardToMulticastAddr[k / c.numServersPerShard]? =
        some (baseMulticastAddr ++ toString (k / c.numServersPerShard)) := by
      rw [sharding, List.getElem?_map, List.getElem?_range hshard]
      rfl
    refine ⟨_, (startServer_eq_ok hworks).2 ⟨interface, index_eq_ok.2 hi, _,
      Sharding.shardOf_eq_ok.2 ((lastShard_iff hs hk hip).2 hlast), _,
      index_eq_ok.2 hmulticast, rfl⟩, ?_⟩
    exact ⟨hip, rfl, rfl, rfl, hk'⟩

/-! ## The start of all servers -/

theorem mapM_eq_ok {α β ε : Type} {f : α → Except ε β} {l : List α} {r : List β} :
    l.mapM f = .ok r ↔ List.Forall₂ (fun a b => f a = .ok b) l r := by
  induction l generalizing r with
  | nil =>
    rw [List.mapM_nil, List.forall₂_nil_left_iff]
    exact ⟨fun h => by cases h; rfl, fun h => by rw [h]; rfl⟩
  | cons a l ih =>
    rw [List.mapM_cons, List.forall₂_cons_left_iff]
    cases ha : f a with
    | error e =>
      refine iff_of_false (fun h => by cases h) ?_
      rintro ⟨b, bs, hb, -⟩
      cases hb
    | ok b =>
      cases hl : l.mapM f with
      | error e =>
        refine iff_of_false (fun h => by cases h) ?_
        rintro ⟨b, bs, -, hbs, -⟩
        rw [← ih, hl] at hbs
        cases hbs
      | ok bs =>
        constructor
        · intro h
          cases h
          exact ⟨b, bs, rfl, ih.1 hl, rfl⟩
        · rintro ⟨b', bs', hb, hbs, rfl⟩
          cases hb
          rw [← ih, hl] at hbs
          cases hbs
          rfl

theorem exists_forall₂ {α β : Type} {R : α → β → Prop} {l : List α} :
    (∃ r, List.Forall₂ R l r) ↔ ∀ a ∈ l, ∃ b, R a b := by
  induction l with
  | nil => exact iff_of_true ⟨[], .nil⟩ fun a ha => absurd ha (List.not_mem_nil)
  | cons a l ih =>
    rw [List.forall_mem_cons, ← ih]
    constructor
    · rintro ⟨_, h⟩
      cases h with
      | cons h hs => exact ⟨⟨_, h⟩, _, hs⟩
    · rintro ⟨⟨b, h⟩, r, hs⟩
      exact ⟨b :: r, .cons h hs⟩

theorem ServerSetup.run_eq_ok (hon : c.useShard = true) (hs : 0 < c.numServersPerShard)
    (hm : 0 < c.numShards) {r : Sharding × List Launch} : c.run remote = .ok r ↔
      c.Divides ∧ r.1 = c.sharding c.wanted ∧
        List.Forall₂ (fun k l => startServer remote c (c.sharding c.wanted) (c.storIps.getD k "")
          (k % c.numServersPerShard) = .ok l) (List.range (c.wanted * c.numServersPerShard)) r.2 := by
  have henum : (c.sharding c.wanted).enumerated = (List.range (c.wanted * c.numServersPerShard)).map
      fun k => (c.storIps.getD k "", k % c.numServersPerShard) :=
    Sharding.enumerated_blocks wanted_mul_le
  rw [run, setupShards_eq hon hs hm]
  by_cases hd : c.Divides
  · rw [if_pos hd, python_bind_eq_ok]
    constructor
    · rintro ⟨st, hst, h⟩
      cases hst
      rw [henum] at h
      cases hl : List.mapM (fun x => startServer remote c (c.sharding c.wanted) x.1 x.2)
          ((List.range (c.wanted * c.numServersPerShard)).map
            fun k => (c.storIps.getD k "", k % c.numServersPerShard)) with
      | error e =>
        rw [hl] at h
        cases h
      | ok launches =>
        rw [hl] at h
        cases h
        exact ⟨hd, rfl, List.forall₂_map_left_iff.1 (mapM_eq_ok.1 hl)⟩
    · rintro ⟨-, hst, hl⟩
      refine ⟨_, rfl, ?_⟩
      rw [henum, mapM_eq_ok.2 (List.forall₂_map_left_iff.2 hl), ← hst]
      rfl
  · rw [if_neg hd]
    refine iff_of_false (fun h => by cases h) fun h => hd h.1

/-- What is left over is as it should be when the list divides and every server is placed. -/
theorem ServerSetup.exists_keptFit_iff (hon : c.useShard = true) (hs : 0 < c.numServersPerShard)
    (hm : 0 < c.numShards) (hworks : remote.Works) :
    (∃ r, c.run remote = .ok r ∧ c.KeptFit r.2) ↔
      c.Divides ∧ ∀ k < c.wanted * c.numServersPerShard, c.Placed k := by
  have hall : (∀ k < c.wanted * c.numServersPerShard, c.Placed k) ↔
      ∃ launches, List.Forall₂ (fun k l => startServer remote c (c.sharding c.wanted)
        (c.storIps.getD k "") (k % c.numServersPerShard) = .ok l ∧ c.Fits k l.kept)
        (List.range (c.wanted * c.numServersPerShard)) launches := by
    rw [exists_forall₂]
    constructor
    · exact fun h k hk =>
        (exists_kept_fits_iff hs hworks (List.mem_range.1 hk)).2 (h k (List.mem_range.1 hk))
    · exact fun h k hk => (exists_kept_fits_iff hs hworks hk).1 (h k (List.mem_range.2 hk))
  rw [hall]
  constructor
  · rintro ⟨r, hr, hfit⟩
    obtain ⟨hd, -, hl⟩ := (run_eq_ok hon hs hm).1 hr
    exact ⟨hd, r.2, hl.mp (fun _ _ => And.intro) (List.forall₂_map_right_iff.1 hfit)⟩
  · rintro ⟨hd, launches, hl⟩
    refine ⟨(c.sharding c.wanted, launches), (run_eq_ok hon hs hm).2 ⟨hd, rfl, ?_⟩, ?_⟩
    · exact hl.imp fun _ _ h => h.1
    · exact List.forall₂_map_right_iff.2 (hl.imp fun _ _ h => h.2)

/-- Two starts for each server. -/
theorem Launch.length_starts (launches : List Launch) :
    (launches.flatMap starts).length = 2 * launches.length := by
  induction launches with
  | nil => rfl
  | cons l launches ih =>
    rw [List.flatMap_cons, List.length_append, ih, List.length_cons]
    change 2 + _ = _
    omega

/-- Every server is started once only when there is none. -/
theorem ServerSetup.exists_startedOnce_iff (hon : c.useShard = true)
    (hs : 0 < c.numServersPerShard) (hm : 0 < c.numShards) :
    (∃ r, c.run remote = .ok r ∧ c.Split r.1 ∧ c.StartedOnce r.2) ↔ c.storIps = [] := by
  constructor
  · rintro ⟨r, hr, -, xs, hperm, hfit⟩
    obtain ⟨hd, -, hl⟩ := (run_eq_ok hon hs hm).1 hr
    have hzero : c.wanted * c.numServersPerShard = 0 := by
      have hxs := hfit.length_eq
      rw [hperm.length_eq, Launch.length_starts, ← hl.length_eq, List.length_range] at hxs
      omega
    have hwanted : c.wanted = 0 := (Nat.mul_eq_zero.1 hzero).resolve_right (Nat.ne_of_gt hs)
    have hfew : c.storIps.length / c.numServersPerShard = 0 := by
      rw [wanted] at hwanted
      omega
    rcases hd with ⟨d, hd⟩ | hd
    · rw [hd, Nat.mul_div_cancel_left _ hs] at hfew
      rw [hfew, Nat.mul_zero] at hd
      exact List.eq_nil_of_length_eq_zero hd
    · omega
  · intro hnil
    have hzero : c.wanted * c.numServersPerShard = 0 := by
      rw [wanted, hnil, List.length_nil, Nat.zero_div, Nat.min_zero, Nat.zero_mul]
    have hd : c.Divides := .inl (by rw [hnil]; exact Nat.dvd_zero _)
    refine ⟨(c.sharding c.wanted, []), (run_eq_ok hon hs hm).2 ⟨hd, rfl, ?_⟩, split_sharding, [],
      .refl _, ?_⟩
    · rw [hzero]
      exact .nil
    · rw [hzero]
      exact .nil

/-- The split and the start, with the conditions under which they are as they should be: altogether,
the split alone, and the start without the processes that are dropped. -/
theorem ServerSetup.started_iff (remote : Remote) (c : ServerSetup) (hon : c.useShard = true)
    (hs : 0 < c.numServersPerShard) (hm : 0 < c.numShards) (hworks : remote.Works) :
    ((∃ r, c.run remote = .ok r ∧ c.Split r.1 ∧ c.StartedOnce r.2) ↔ c.storIps = []) ∧
    ((∃ st, c.setupShards = .ok st ∧ c.Split st) ↔ c.Divides) ∧
    ((∃ r, c.run remote = .ok r ∧ c.KeptFit r.2) ↔
      c.Divides ∧ ∀ k < c.wanted * c.numServersPerShard, c.Placed k) :=
  ⟨exists_startedOnce_iff hon hs hm, exists_split_iff hon hs hm, exists_keptFit_iff hon hs hm hworks⟩

/-- Three servers with interfaces of different names. -/
def threeServers (numServersPerShard numShards : Nat) : ServerSetup where
  useShard := true
  numServersPerShard := numServersPerShard
  numShards := numShards
  storIps := ["10.0.0.1", "10.0.0.2", "10.0.0.3"]
  storNetIfs := ["eno1", "eno2", "eno3"]
  pathServer := "server"
  jsonOutputName := "run"

def Remote.always : Remote := ⟨fun _ _ => true, fun _ => true⟩

theorem Remote.always_works : Remote.always.Works := ⟨fun _ _ => rfl, fun _ => rfl⟩

/-- One shard of three servers. -/
theorem ServerSetup.started_iff_three :
    (¬ ∃ r, (threeServers 3 1).run .always = .ok r ∧ (threeServers 3 1).Split r.1 ∧
      (threeServers 3 1).StartedOnce r.2) ∧
    (∃ st, (threeServers 3 1).setupShards = .ok st ∧ (threeServers 3 1).Split st) ∧
    ∃ r, (threeServers 3 1).run .always = .ok r ∧ (threeServers 3 1).KeptFit r.2 := by
  obtain ⟨hall, hsplit, hkept⟩ := started_iff .always (threeServers 3 1) rfl (Nat.succ_pos 2)
    Nat.one_pos Remote.always_works
  have hd : (threeServers 3 1).Divides := .inl ⟨1, rfl⟩
  refine ⟨fun h => List.cons_ne_nil _ _ (hall.1 h), hsplit.2 hd, hkept.2 ⟨hd, fun k hk => ?_⟩⟩
  have hk3 : k < 3 := hk
  refine ⟨?_, fun k' hk' hlt => ?_⟩
  · refine ⟨["eno1", "eno2", "eno3"].get ⟨k, hk3⟩, ?_, List.getElem?_eq_getElem hk3⟩
    rw [show k % (threeServers 3 1).numServersPerShard = k from Nat.mod_eq_of_lt hk3]
    exact List.getElem?_eq_getElem hk3
  · have hk3' : k' < 3 := hk'
    have hzero : k' / (threeServers 3 1).numServersPerShard = 0 := Nat.div_eq_of_lt hk3'
    rw [hzero] at hlt
    exact absurd hlt (Nat.not_lt_zero _)

/-- With shards of two, the third server has no partner; a shard of one is started twice; and the
server of a second shard has the interface of the first one's. -/
theorem ServerSetup.three_not_started :
    (threeServers 2 2).setupShards = .error .indexError ∧
    (¬ ∃ r, (threeServers 1 1).run .always = .ok r ∧ (threeServers 1 1).Split r.1 ∧
      (threeServers 1 1).StartedOnce r.2) ∧
    ¬ ∃ r, (threeServers 1 2).run .always = .ok r ∧ (threeServers 1 2).KeptFit r.2 := by
  refine ⟨rfl, ?_, ?_⟩
  · rw [exists_startedOnce_iff rfl Nat.one_pos Nat.one_pos]
    exact List.cons_ne_nil _ _
  · rw [exists_keptFit_iff rfl Nat.one_pos Nat.two_pos Remote.always_works]
    rintro ⟨-, hplaced⟩
    obtain ⟨interface, hshard, hlist⟩ := (hplaced 1 Nat.one_lt_two).interface
    have heq : (some "eno1" : Option String) = some "eno2" := hshard.trans hlist.symm
    exact absurd heq (by decide)

end Pringles.Control
