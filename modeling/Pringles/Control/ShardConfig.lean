import Mathlib.Data.BitVec
import Pringles.Control.ShardStart

/-!
# The shards in the configuration of the software switch

The experiment script writes two lists for the software switch: `all_shards`, the addresses of the
servers of each shard, and `all_shards_multicast`, one multicast address for each shard. The switch
takes the second one from the key of the first. A list of lists is not a list of strings, so the
constructor fails as soon as there is a shard (`roundTrips_iff`). Under its own key the list could be
read (`asVector_allShardsMulticast`).
-/

namespace Pringles.Control

/-! ## Writing -/

def Value.strings (l : List String) : Value := .list (l.map .str)

/-- The items of `generate_yaml_config` for a switch that are about the servers and their shards,
added to the others. -/
def generateYamlConfig (others : Config) (useShard : Bool) (serverIps : List String)
    (totalShards : List (List String)) (totalShardsMulticast : List String) : Config :=
  ((((others.update "stor_ips" (.strings serverIps)).update "use_shard"
    (.int (if useShard then 1 else 0))).update "all_shards"
    (.list (totalShards.map .strings))).update "all_shards_multicast"
    (.strings totalShardsMulticast)).update "shard_multicast_addr" (.str "")

/-- The configuration that `run_experiment_cycle_pringles` writes for the switch. The list of
multicast addresses is filled with `use_shard` only. -/
def ServerSetup.switchConfig (others : Config) (c : ServerSetup) (st : Sharding) : Config :=
  generateYamlConfig others c.useShard st.serverIps st.totalListOfShards
    (if c.useShard then st.shardToMulticastAddr else [])

/-! ## Reading -/

/-- The conversions `YAML::Node::as`; `none` stands for an exception. -/
structure YamlCpp where
  asString : Value → Option String
  asUint64 : Value → Option Nat
  asVector : {α : Type} → (Value → Option α) → Value → Option (List α)

/-- What is known of them. -/
structure YamlCpp.Converts (yaml : YamlCpp) : Prop where
  string_str : ∀ s, yaml.asString (.str s) = some s
  string_list : ∀ l, yaml.asString (.list l) = none
  uint64_int : ∀ n : Nat, n < 2 ^ 64 → yaml.asUint64 (.int n) = some n
  vector_list : ∀ {α : Type} (as : Value → Option α) (l : List Value),
    yaml.asVector as (.list l) = l.mapM as

namespace YamlCpp

variable (yaml : YamlCpp) (config : Config)

def getUseShards : Option Bool := do
  let node ← config "use_shard"
  let n ← yaml.asUint64 node
  pure (n = 1)

def getAllShards : Option (List (List String)) := do
  let node ← config "all_shards"
  yaml.asVector (yaml.asVector yaml.asString) node

def getAllShardsMulticast : Option (List String) := do
  let node ← config "all_shards"
  yaml.asVector yaml.asString node

/-- `all_shards_multicast` after the constructor of `LogSoftwareSwitch`. -/
def allShardsMulticast : Option (List String) := do
  if ← yaml.getUseShards config then yaml.getAllShardsMulticast config
  else pure []

end YamlCpp

/-- The switch has one address for each shard, in their order, and it is the one that every server of
the shard is started with. -/
def RoundTrips (loaded : Option (List String)) (remote : Remote) (c : ServerSetup)
    (st : Sharding) : Prop :=
  ∃ addrs : List String, loaded = some addrs ∧ addrs.length = st.totalListOfShards.length ∧
    ∀ (j : Nat) (shard : List String), st.totalListOfShards[j]? = some shard →
      ∀ (i : Nat) ip l, shard[i]? = some ip → startServer remote c st ip i = .ok l →
        addrs[j]? = some l.kept.config.shardMulticastAddr

/-! ## What can be read -/

variable {yaml : YamlCpp} {others : Config} {remote : Remote} {c : ServerSetup} {st st' : Sharding}

/-- A list can be read when its elements can. -/
theorem YamlCpp.Converts.asVector_map (h : yaml.Converts) {α : Type} {as : Value → Option α}
    {f : α → Value} (hf : ∀ a, as (f a) = some a) (l : List α) :
    yaml.asVector as (.list (l.map f)) = some l := by
  rw [h.vector_list]
  induction l with
  | nil => rfl
  | cons a l ih =>
    rw [List.map_cons, List.mapM_cons, hf, ih]
    rfl

theorem YamlCpp.Converts.asVector_strings (h : yaml.Converts) (l : List String) :
    yaml.asVector yaml.asString (.strings l) = some l :=
  h.asVector_map h.string_str l

/-- Under its own key the list of multicast addresses can be read. -/
theorem YamlCpp.Converts.asVector_allShardsMulticast (h : yaml.Converts) (hon : c.useShard = true) :
    (c.switchConfig others st "all_shards_multicast").bind (yaml.asVector yaml.asString) =
      some st.shardToMulticastAddr := by
  have hwritten : c.switchConfig others st "all_shards_multicast" =
      some (.strings st.shardToMulticastAddr) := by
    rw [ServerSetup.switchConfig, if_pos hon]
    rfl
  rw [hwritten]
  exact h.asVector_strings _

/-- The list of shards can be read as a list of lists. -/
theorem YamlCpp.Converts.getAllShards_switchConfig (h : yaml.Converts) :
    yaml.getAllShards (c.switchConfig others st) = some st.totalListOfShards :=
  h.asVector_map h.asVector_strings st.totalListOfShards

/-- The switch reads nothing when there are no shards, and fails when there are some. -/
theorem YamlCpp.Converts.allShardsMulticast_switchConfig (h : yaml.Converts)
    (hon : c.useShard = true) : yaml.allShardsMulticast (c.switchConfig others st) =
      if st.totalListOfShards = [] then some [] else none := by
  have huse : yaml.getUseShards (c.switchConfig others st) = some true := by
    have hone : yaml.asUint64 (.int 1) = some 1 := h.uint64_int 1 (Nat.one_lt_two_pow (by decide))
    have hwritten : c.switchConfig others st "use_shard" = some (.int 1) := by
      change some (Value.int (if c.useShard then 1 else 0)) = _
      rw [hon]
      rfl
    rw [getUseShards, hwritten]
    simp only [Option.bind_eq_bind, Option.bind_some, hone]
    rfl
  have hread : yaml.getAllShardsMulticast (c.switchConfig others st) =
      (st.totalListOfShards.map .strings).mapM yaml.asString := h.vector_list ..
  rw [allShardsMulticast, huse]
  change yaml.getAllShardsMulticast (c.switchConfig others st) = _
  rw [hread]
  cases st.totalListOfShards with
  | nil => rfl
  | cons shard shards =>
    rw [List.map_cons, List.mapM_cons, Value.strings, h.string_list]
    rfl

/-! ## When there are shards -/

namespace Sharding

theorem placeShard_ne_nil {allServerIps : List String} {sizeOfShard i : Nat}
    (h : placeShard allServerIps sizeOfShard st i = .ok st') : st'.totalListOfShards ≠ [] := by
  rw [placeShard] at h
  cases hplaced : (List.range' i sizeOfShard).foldlM (placeServer allServerIps) (st, []) with
  | error e =>
    rw [hplaced] at h
    cases h
  | ok q =>
    rw [hplaced] at h
    cases h
    exact List.append_ne_nil_of_right_ne_nil _ (List.cons_ne_nil _ _)

/-- The loop over the shards keeps the shards that there are, and makes one in its first turn. -/
theorem placeShards_ne_nil {allServerIps : List String} {sizeOfShard maxNumShards : Nat}
    {is : List Nat} (h : placeShards allServerIps sizeOfShard maxNumShards is st = .ok st')
    (hsome : is ≠ [] ∨ st.totalListOfShards ≠ []) : st'.totalListOfShards ≠ [] := by
  induction is generalizing st with
  | nil =>
    cases h
    exact hsome.resolve_left fun hnil => hnil rfl
  | cons i is ih =>
    rw [placeShards] at h
    cases hplaced : placeShard allServerIps sizeOfShard st i with
    | error e =>
      rw [hplaced] at h
      cases h
    | ok st₁ =>
      rw [hplaced] at h
      change (if st₁.numOfShard = maxNumShards then pure st₁
        else placeShards allServerIps sizeOfShard maxNumShards is st₁) = .ok st' at h
      split at h
      · cases h
        exact placeShard_ne_nil hplaced
      · exact ih h (.inr (placeShard_ne_nil hplaced))

end Sharding

/-- There are no shards exactly when there are no servers. -/
theorem ServerSetup.shards_eq_nil_iff (hon : c.useShard = true) (hs : 0 < c.numServersPerShard)
    (h : c.setupShards = .ok st) : st.totalListOfShards = [] ↔ c.storIps = [] := by
  rw [setupShards, if_pos hon] at h
  cases hplaced : Sharding.placeShards c.storIps c.numServersPerShard c.numShards
      (Sharding.firstPositions c.storIps.length c.numServersPerShard) {} with
  | error e =>
    rw [hplaced] at h
    cases h
  | ok st₁ =>
    rw [hplaced] at h
    cases h
    constructor
    · intro hnil
      by_contra hips
      refine Sharding.placeShards_ne_nil hplaced (.inl ?_) hnil
      have hlen : 0 < c.storIps.length := List.length_pos_iff.2 hips
      have hpos : 0 < (c.storIps.length + c.numServersPerShard - 1) / c.numServersPerShard :=
        Nat.div_pos (by omega) hs
      rw [Sharding.firstPositions, Ne, List.range'_eq_nil_iff]
      omega
    · intro hips
      have hzero : (0 + c.numServersPerShard - 1) / c.numServersPerShard = 0 :=
        Nat.div_eq_of_lt (by omega)
      rw [Sharding.firstPositions, hips, List.length_nil, hzero] at hplaced
      cases hplaced
      rfl

/-- **The shards reach the switch only when there are none.** -/
theorem ServerSetup.roundTrips_iff (hyaml : yaml.Converts) (others : Config) (remote : Remote)
    (hon : c.useShard = true) (hs : 0 < c.numServersPerShard) (h : c.setupShards = .ok st) :
    RoundTrips (yaml.allShardsMulticast (c.switchConfig others st)) remote c st ↔
      c.storIps = [] := by
  rw [hyaml.allShardsMulticast_switchConfig hon, ← shards_eq_nil_iff hon hs h]
  constructor
  · rintro ⟨addrs, hloaded, -⟩
    by_contra hsome
    rw [if_neg hsome] at hloaded
    cases hloaded
  · intro hnil
    refine ⟨[], if_pos hnil, (congrArg List.length hnil).symm, fun j shard hshard => ?_⟩
    rw [hnil] at hshard
    cases hshard

/-- Conversions of scalars and sequences. -/
def YamlCpp.plain : YamlCpp where
  asString
    | .str s => some s
    | .int n => some (toString n)
    | .list _ => none
  asUint64
    | .int n => if 0 ≤ n ∧ n.toNat < 2 ^ 64 then some n.toNat else none
    | .str s => s.toNat?
    | .list _ => none
  asVector as
    | .list l => l.mapM as
    | _ => none

theorem YamlCpp.plain_converts : YamlCpp.plain.Converts where
  string_str _ := rfl
  string_list _ := rfl
  uint64_int n hn := if_pos ⟨Int.natCast_nonneg n, hn⟩
  vector_list _ _ := rfl

/-- One shard of three servers does not. -/
theorem ServerSetup.roundTrips_iff_three :
    ¬ RoundTrips (YamlCpp.plain.allShardsMulticast
      ((threeServers 3 1).switchConfig (fun _ => none) ((threeServers 3 1).sharding 1))) .always
      (threeServers 3 1) ((threeServers 3 1).sharding 1) := by
  have hsetup : (threeServers 3 1).setupShards = .ok ((threeServers 3 1).sharding 1) :=
    (setupShards_eq rfl (Nat.succ_pos 2) Nat.one_pos).trans (if_pos (.inl ⟨1, rfl⟩))
  rw [roundTrips_iff YamlCpp.plain_converts (fun _ => none) .always rfl (Nat.succ_pos 2) hsetup]
  exact List.cons_ne_nil _ _

/-- The switch does not come up with it, although its address is in the configuration. -/
theorem ServerSetup.three_not_loaded : ∃ st, (threeServers 3 1).setupShards = .ok st ∧
    (threeServers 3 1).switchConfig (fun _ => none) st "all_shards_multicast" =
      some (.list [.str "239.1.1.0"]) ∧
    YamlCpp.plain.allShardsMulticast ((threeServers 3 1).switchConfig (fun _ => none) st) = none ∧
    ¬ RoundTrips (YamlCpp.plain.allShardsMulticast
      ((threeServers 3 1).switchConfig (fun _ => none) st)) .always (threeServers 3 1) st := by
  refine ⟨_, rfl, rfl, rfl, ?_⟩
  rintro ⟨addrs, hloaded, -⟩
  cases hloaded

end Pringles.Control
