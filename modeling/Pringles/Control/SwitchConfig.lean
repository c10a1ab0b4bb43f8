import Mathlib.Data.List.Nodup

/-!
# Configurations of the switches

The experiment script writes one configuration file for each switch of the ring. A file is a
dictionary; exactly one of the files tells its switch to send the control packet, the one of the
switch that comes last in `switches_in_ring`.
-/

namespace Pringles.Control

/-- What a YAML file holds under a key. -/
inductive Value where
  | int (n : Int)
  | str (s : String)
  | list (l : List Value)

inductive PyError where
  | keyError (key : String)
  | indexError

/-- A dictionary. -/
def Config := String → Option Value

namespace Config

/-- A dictionary display: of two items with one key the later one counts. -/
def ofItems (items : List (String × Value)) : Config := fun key =>
  (items.reverse.find? fun x => x.1 == key).map Prod.snd

def update (data : Config) (key : String) (v : Value) : Config :=
  fun k => if k = key then some v else data k

/-- `data[key]`. -/
def item (data : Config) (key : String) : Except PyError Value :=
  match data key with
  | some v => .ok v
  | none => .error (.keyError key)

/-- The switch is told to send the control packet. -/
def SendsCntrl (data : Config) : Prop := data "send_cntrl_pkt" = some (.int 1)

end Config

/-- `l[i]`. -/
def index {α : Type} (l : List α) (i : Nat) : Except PyError α :=
  match l[i]? with
  | some a => .ok a
  | none => .error .indexError

/-! ## The experiment's own configuration -/

/-- The table `switches`; `switch_ports<i>` and `cntrl_port_switch<i>` as functions of `i`. -/
structure Switches where
  switchIps : List String
  switchMacs : List String
  switchPorts : Nat → Option (List Int)
  cntrlPortSwitch : Nat → Option (List Int)
  loopbackPorts : List Int
  cpuPort : Int
  listenPort : Int
  dummyIpAddr : String
  macDstAddr : String
  macSrcAddr : String
  devNumber : Int
  cpuInterface : String
  externalInterface : String
  jumpMac : String
  jumpIp : String
  ipv4TableEntries : List String

structure NetworkSetup where
  storIps : List String
  storRecvPort : String
  cliIps : List String

structure ExperimentParameters where
  numClientThreads : Nat
  useStore : Int
  switchesInRing : List Nat

structure BaseConfig where
  switches : Switches
  networkSetup : NetworkSetup
  experimentParameters : ExperimentParameters

def basePort : Nat := 30000

/-- `config["switches"][prefix + str(i)]`. -/
def numbered (table : Nat → Option (List Int)) (name : String) (i : Nat) :
    Except PyError (List Int) :=
  match table i with
  | some l => .ok l
  | none => .error (.keyError (name ++ toString i))

/-- `switches_in_ring[len(switches_in_ring) - 1]`. -/
def lastInRing (base : BaseConfig) : Except PyError Nat :=
  match base.experimentParameters.switchesInRing.getLast? with
  | some i => .ok i
  | none => .error .indexError

/-- `generate_switch_config`. -/
def generateSwitchConfig (base : BaseConfig) (i : Nat) (cntrlPortNum : Int)
    (ringSize clientBaseRecvPort servRecvPort : Nat) (loopbackPort : Int)
    (numClientThreads : Nat) : Except PyError Config := do
  let switchParams := base.switches
  let switchPorts ← numbered switchParams.switchPorts "switch_ports" i
  let storIp ← index base.networkSetup.storIps 0
  let cliIp ← index base.networkSetup.cliIps 0
  let switchMac ← index switchParams.switchMacs i
  let switchIp ← index switchParams.switchIps i
  let switchConfig := Config.ofItems [
    ("loopback_port", .int loopbackPort),
    ("switch_ports", .list (switchPorts.map .int)),
    ("cntrl_port", .int cntrlPortNum),
    ("cpu_port", .int switchParams.cpuPort),
    ("listen_port", .int switchParams.listenPort),
    ("dummy_ip_addr", .str switchParams.dummyIpAddr),
    ("mac_dst_addr", .str switchParams.macDstAddr),
    ("mac_src_addr", .str switchParams.macSrcAddr),
    ("device_number", .int switchParams.devNumber),
    ("cpu_interface", .str switchParams.cpuInterface),
    ("external_interface", .str switchParams.externalInterface),
    ("port_speed", .str "BF_SPEED_10G"),
    ("port_fec", .str "BF_FEC_TYP_NONE"),
    ("loopback_mode", .str "BF_LPBK_MAC_NEAR"),
    ("meta_circulate", .int 1),
    ("in_cntrl", .int 1),
    ("out_cntrl", .int 1),
    ("storage_server_ip", .str storIp),
    ("storage_server_recv_port", .str base.networkSetup.storRecvPort),
    ("client_ip", .str cliIp),
    ("size_of_ring", .int ringSize),
    ("switch_mac", .str switchMac),
    ("switch_ip", .str switchIp),
    ("client_mac", .str switchParams.jumpMac),
    ("client_ip", .str switchParams.jumpIp),
    ("num_client_threads", .int base.experimentParameters.numClientThreads),
    ("client_recv_port", .int clientBaseRecvPort),
    ("use_stor", .int base.experimentParameters.useStore),
    ("ipv4_table_entries", .list (switchParams.ipv4TableEntries.map .str)),
    ("cli_d_port", .int clientBaseRecvPort),
    ("num_client_threads", .int numClientThreads),
    ("serv_d_port", .int servRecvPort)]
  let last ← lastInRing base
  if i = last then
    pure (switchConfig.update "send_cntrl_pkt" (.int 1))
  else
    pure (switchConfig.update "send_cntrl_pkt" (.int 0))

/-- The switch before the `it`-th one of the ring. -/
def beforeInRing (base : BaseConfig) (it : Nat) : Except PyError Nat :=
  if it = 0 then lastInRing base else index base.experimentParameters.switchesInRing (it - 1)

/-- One round of the loop of `setup_switches`, the `it`-th one, for the switch `idx`: the address of
the switch and the file that is copied there. -/
def setupSwitch (base : BaseConfig) (it idx : Nat) : Except PyError (String × Config) := do
  let switchesInRing := base.experimentParameters.switchesInRing
  let switchIp ← index base.switches.switchIps idx
  let cntrlPorts ← numbered base.switches.cntrlPortSwitch "cntrl_port_switch" idx
  let before ← beforeInRing base it
  let cntrlPort ← index cntrlPorts before
  let numClientThreads := base.experimentParameters.numClientThreads
  let clientRecvPort := basePort + base.networkSetup.storIps.length * 2 + numClientThreads
  let serverRecvPort := basePort + 3
  let loopbackPort ← index base.switches.loopbackPorts idx
  let switchConfig ← generateSwitchConfig base idx cntrlPort switchesInRing.length clientRecvPort
    serverRecvPort loopbackPort numClientThreads
  pure (switchIp, switchConfig)

/-- The loop of `setup_switches` from round `it` on. -/
def setupFrom (base : BaseConfig) : Nat → List Nat → Except PyError (List (String × Config))
  | _, [] => pure []
  | it, idx :: rest => do
    let first ← setupSwitch base it idx
    let others ← setupFrom base (it + 1) rest
    pure (first :: others)

/-- `setup_switches`. -/
def setupSwitches (base : BaseConfig) : Except PyError (List (String × Config)) :=
  setupFrom base 0 base.experimentParameters.switchesInRing

/-! ## The switch that sends the control packet -/

variable {α β : Type} {base : BaseConfig} {i it idx : Nat} {data : Config}

theorem bind_eq_ok {x : Except PyError α} {f : α → Except PyError β} {b : β}
    (h : (x >>= f) = .ok b) : ∃ a, x = .ok a ∧ f a = .ok b := by
  cases x with
  | error e => cases h
  | ok a => exact ⟨a, rfl, h⟩

theorem lastInRing_eq_ok {last : Nat} (h : lastInRing base = .ok last) :
    base.experimentParameters.switchesInRing.getLast? = some last := by
  unfold lastInRing at h
  split at h
  · cases h
    assumption
  · cases h

theorem sendsCntrl_update {v : Value} :
    (data.update "send_cntrl_pkt" v).SendsCntrl ↔ v = .int 1 := by
  simp [Config.SendsCntrl, Config.update]

/-- The last switch of the ring is told to send the control packet, and no other one. -/
theorem generateSwitchConfig_sendsCntrl {cntrlPortNum loopbackPort : Int}
    {ringSize clientBaseRecvPort servRecvPort numClientThreads : Nat}
    (h : generateSwitchConfig base i cntrlPortNum ringSize clientBaseRecvPort servRecvPort
      loopbackPort numClientThreads = .ok data) :
    data.SendsCntrl ↔ base.experimentParameters.switchesInRing.getLast? = some i := by
  unfold generateSwitchConfig at h
  obtain ⟨ports, -, h⟩ := bind_eq_ok h
  obtain ⟨storIp, -, h⟩ := bind_eq_ok h
  obtain ⟨cliIp, -, h⟩ := bind_eq_ok h
  obtain ⟨mac, -, h⟩ := bind_eq_ok h
  obtain ⟨ip, -, h⟩ := bind_eq_ok h
  obtain ⟨last, hlast, h⟩ := bind_eq_ok h
  rw [lastInRing_eq_ok hlast, Option.some.injEq]
  split at h
  · cases h
    simp_all [sendsCntrl_update]
  · cases h
    rw [sendsCntrl_update]
    refine iff_of_false ?_ ?_
    · intro hv
      cases hv
    · intro heq
      exact absurd heq.symm ‹_›

theorem setupSwitch_sendsCntrl {x : String × Config} (h : setupSwitch base it idx = .ok x) :
    x.2.SendsCntrl ↔ base.experimentParameters.switchesInRing.getLast? = some idx := by
  unfold setupSwitch at h
  obtain ⟨ip, -, h⟩ := bind_eq_ok h
  obtain ⟨ports, -, h⟩ := bind_eq_ok h
  obtain ⟨before, -, h⟩ := bind_eq_ok h
  obtain ⟨cntrlPort, -, h⟩ := bind_eq_ok h
  obtain ⟨loopback, -, h⟩ := bind_eq_ok h
  obtain ⟨data, hdata, h⟩ := bind_eq_ok h
  cases h
  exact generateSwitchConfig_sendsCntrl hdata

/-- One file for each switch of the ring, in order, and each from its own round. -/
theorem setupFrom_getElem {l : List Nat} {configs : List (String × Config)}
    (h : setupFrom base it l = .ok configs) : configs.length = l.length ∧
      ∀ (k idx : Nat), l[k]? = some idx → ∃ x, configs[k]? = some x ∧
        setupSwitch base (it + k) idx = .ok x := by
  induction l generalizing it configs with
  | nil =>
    cases h
    exact ⟨rfl, by simp⟩
  | cons a l ih =>
    obtain ⟨first, hfirst, h⟩ := bind_eq_ok h
    obtain ⟨others, hothers, h⟩ := bind_eq_ok h
    cases h
    obtain ⟨hlen, hall⟩ := ih hothers
    refine ⟨by simp [hlen], ?_⟩
    intro k idx hk
    cases k with
    | zero =>
      simp only [List.getElem?_cons_zero, Option.some.injEq] at hk
      exact ⟨first, rfl, hk ▸ hfirst⟩
    | succ k =>
      obtain ⟨x, hx, hset⟩ := hall k idx hk
      rw [Nat.add_right_comm] at hset
      exact ⟨x, hx, hset⟩

/-- **`setup_switches` tells exactly one switch to send the control packet**, the last one. -/
theorem setupSwitches_sendsCntrl {configs : List (String × Config)}
    (h : setupSwitches base = .ok configs)
    (hnodup : base.experimentParameters.switchesInRing.Nodup) {k : Nat} {x : String × Config}
    (hk : configs[k]? = some x) : x.2.SendsCntrl ↔ k + 1 = configs.length := by
  obtain ⟨hlen, hall⟩ := setupFrom_getElem h
  have hlt := (List.getElem?_eq_some_iff.1 hk).1
  rw [hlen] at hlt ⊢
  have hget := List.getElem?_eq_getElem hlt
  obtain ⟨y, hy, hset⟩ := hall k _ hget
  obtain rfl : x = y := Option.some.inj (hk.symm.trans hy)
  rw [setupSwitch_sendsCntrl hset, List.getLast?_eq_getElem?, ← hget]
  constructor
  · intro heq
    have := (List.getElem?_inj (by omega) hnodup).1 heq
    omega
  · intro heq
    rw [← heq, Nat.add_sub_cancel]

end Pringles.Control
