import Mathlib.Algebra.BigOperators.Group.Finset.Basic
import Mathlib.Data.Fintype.BigOperators
import Pringles.Control.SwitchConfig

/-!
# The control plane's start-up

`runTest` reads the configuration of its switch, installs the tables and injects a control packet.
It reads `send_cntrl_pkt` too, but nothing depends on what it finds there: every switch injects one
(`injected_runTest`), so there is a single token only in a ring of one switch.
-/

namespace Pringles.Control

/-! ## The packets -/

def typeIp : Nat := 0x0800
def typeControl : Nat := 0x0820
def typeAppend : Nat := 0x0860
def typeTail : Nat := 0x0840

/-- A frame as scapy is given it. The layers that all frames with a ring type share are constant but
for the type and `switch_to_process`. -/
inductive Packet where
  | cntrl (dst src : Value) (type globalSeqNo ringView : Nat) (pktId : Value)
  | append (dst src : Value) (type : Nat) (ip : Value) (ringType switchToProcess nonce payloadSize
      streamId gIdx cntrlPktIt recvPort startTs : Nat)
  | tail (dst src : Value) (type : Nat) (ip : Value) (ringType switchToProcess nonce hops tailSeqNo
      recvPort : Nat)

def Packet.IsControl : Packet → Bool
  | cntrl .. => true
  | _ => false

/-! ## What `runTest` does to its switch

The values of the configuration are passed on as they are; what the switch driver makes of them is
not modelled. -/

inductive Action where
  | setupSwitchPorts (switchPorts loopbackPort cntrlPort portSpeed portFec sizeOfRing : Value)
      (pktgenLoopbackPort : Nat)
  | setupCirculateTable (loopbackPort : Value)
  | setupClientResponseTable (clientIps : Value)
  | setupShardMulticastGroups (allShards : Value)
  | setupCntrlTable (inCntrl outCntrl cntrlPort : Value)
  | setupTailTable (sizeOfRing cntrlPort : Value)
  | setupSubscribeRoutingTable (portsToRingMembers cpuPort : Value)
  | setupSubscriberAcksTable
  | receivePktFromTofino (interface : Value)
  | send (interface : Value) (pkt : Packet)
  | setupTimerPktGen (pktGenAppId : Nat) (dstAddr srcAddr ipAddr payloadSize inCntrl
      cpuInterface : Value)

def sendTestCntrlPacket (interface dstAddr srcAddr _ipAddr inCntrl : Value) (seqNo : Nat) :
    Action :=
  .send interface (.cntrl dstAddr srcAddr typeControl seqNo 1 inCntrl)

def sendTestAppendPacket (interface dstAddr srcAddr ipAddr : Value) : Action :=
  .send interface (.append dstAddr srcAddr typeIp ipAddr typeAppend 1 1 12 0 0 0 192 0)

def sendTestTailPacket (interface dstAddr srcAddr ipAddr : Value) : Action :=
  .send interface (.tail dstAddr srcAddr typeIp ipAddr typeTail 0 1 0 0 192)

def testTail (interface dstAddr srcAddr ipAddr inCntrl : Value) : List Action :=
  [sendTestCntrlPacket interface dstAddr srcAddr ipAddr inCntrl 0,
    sendTestAppendPacket interface dstAddr srcAddr ipAddr,
    sendTestAppendPacket interface dstAddr srcAddr ipAddr,
    sendTestAppendPacket interface dstAddr srcAddr ipAddr,
    sendTestTailPacket interface dstAddr srcAddr ipAddr]

/-- The parameters that `runTest` works with, and the flag. -/
structure Parameters where
  dstAddr : Value
  srcAddr : Value
  ipAddr : Value
  portSpeed : Value
  portFec : Value
  loopbackPort : Value
  cpuInterface : Value
  listOfSwitchPorts : Value
  cntrlPort : Value
  cpuPort : Value
  inCntrl : Value
  outCntrl : Value
  sendCntrl : Value
  sizeOfRing : Value
  clientIps : Value
  portsToRingMembers : Value
  payloadSize : Value
  allShards : Value

/-- The head of `runTest`: every key is read, whether its value is used or not. -/
def readParameters (data : Config) : Except PyError Parameters := do
  let _devNumber ← data.item "device_number"
  let dstAddr ← data.item "mac_dst_addr"
  let srcAddr ← data.item "mac_src_addr"
  let ipAddr ← data.item "dummy_ip_addr"
  let portSpeed ← data.item "port_speed"
  let portFec ← data.item "port_fec"
  let loopbackPort ← data.item "loopback_port"
  let cpuInterface ← data.item "cpu_interface"
  let _externalInterface ← data.item "external_interface"
  let listOfSwitchPorts ← data.item "switch_ports"
  let cntrlPort ← data.item "cntrl_port"
  let cpuPort ← data.item "cpu_port"
  let inCntrl ← data.item "in_cntrl"
  let outCntrl ← data.item "out_cntrl"
  let _metaCirculate ← data.item "meta_circulate"
  let sendCntrl ← data.item "send_cntrl_pkt"
  let sizeOfRing ← data.item "size_of_ring"
  let _targetMac ← data.item "client_mac"
  let _targetIp ← data.item "client_ip"
  let _clientBasePort ← data.item "client_recv_port"
  let _clientNumThreads ← data.item "num_client_threads"
  let clientIps ← data.item "all_client_ips_and_ports"
  let _switchMac ← data.item "switch_mac"
  let _useStor ← data.item "use_stor"
  let _cliBaseDPort ← data.item "cli_d_port"
  let _numClientThreads ← data.item "num_client_threads"
  let _servDPort ← data.item "serv_d_port"
  let _ipv4TableVals ← data.item "ipv4_table_entries"
  let _numShards ← data.item "num_shards"
  let _shardSize ← data.item "shard_size"
  let _view ← data.item "start_view"
  let portsToRingMembers ← data.item "ports_to_ring_members"
  let _cntrlTimeout ← data.item "cntrl_timeout"
  let _ackThreshold ← data.item "ack_threshold"
  let payloadSize ← data.item "payload_size"
  let allShards ← data.item "all_shards"
  pure ⟨dstAddr, srcAddr, ipAddr, portSpeed, portFec, loopbackPort, cpuInterface,
    listOfSwitchPorts, cntrlPort, cpuPort, inCntrl, outCntrl, sendCntrl, sizeOfRing, clientIps,
    portsToRingMembers, payloadSize, allShards⟩

/-- The constant `run_setup` of `runTest`. -/
def runSetup : Bool := true

/-- The constant `use_pktgen` of `runTest`. -/
def usePktgen : Bool := true

def pktgenLoopbackPort : Nat := 169

def setup (p : Parameters) : List Action :=
  [.setupSwitchPorts p.listOfSwitchPorts p.loopbackPort p.cntrlPort p.portSpeed p.portFec
      p.sizeOfRing pktgenLoopbackPort,
    .setupCirculateTable p.loopbackPort,
    .setupClientResponseTable p.clientIps,
    .setupShardMulticastGroups p.allShards,
    .setupCntrlTable p.inCntrl p.outCntrl p.cntrlPort,
    .setupTailTable p.sizeOfRing p.cntrlPort,
    .setupSubscribeRoutingTable p.portsToRingMembers p.cpuPort,
    .setupSubscriberAcksTable]

/-- `runTest`, up to the point where it waits for its listener. -/
def runTest (data : Config) : Except PyError (List Action) := do
  let p ← readParameters data
  pure ((if runSetup then setup p else []) ++ [.receivePktFromTofino p.cpuInterface] ++
    if usePktgen then
      [sendTestCntrlPacket p.cpuInterface p.dstAddr p.srcAddr p.ipAddr p.inCntrl 0,
        .setupTimerPktGen 1 p.dstAddr p.srcAddr p.ipAddr p.payloadSize p.inCntrl p.cpuInterface]
    else testTail p.cpuInterface p.dstAddr p.srcAddr p.ipAddr p.inCntrl)

/-- The control packets among the packets that have been sent. -/
def injected (acts : List Action) : List Packet :=
  acts.filterMap fun
    | .send _ pkt => if pkt.IsControl then some pkt else none
    | _ => none

/-! ## Reading the configuration -/

/-- The keys that `runTest` reads. -/
def readKeys : List String :=
  ["device_number", "mac_dst_addr", "mac_src_addr", "dummy_ip_addr", "port_speed", "port_fec",
    "loopback_port", "cpu_interface", "external_interface", "switch_ports", "cntrl_port",
    "cpu_port", "in_cntrl", "out_cntrl", "meta_circulate", "send_cntrl_pkt", "size_of_ring",
    "client_mac", "client_ip", "client_recv_port", "num_client_threads",
    "all_client_ips_and_ports", "switch_mac", "use_stor", "cli_d_port", "serv_d_port",
    "ipv4_table_entries", "num_shards", "shard_size", "start_view", "ports_to_ring_members",
    "cntrl_timeout", "ack_threshold", "payload_size", "all_shards"]

/-- The configuration carries all the keys that `runTest` reads. -/
def Config.Complete (data : Config) : Prop := ∀ key ∈ readKeys, (data key).isSome

variable {data : Config} {acts : List Action}

theorem Config.Complete.item (hc : data.Complete) {key : String} (hkey : key ∈ readKeys) :
    data.item key = .ok ((data key).getD (.int 0)) := by
  obtain ⟨v, hv⟩ := Option.isSome_iff_exists.1 (hc key hkey)
  simp [Config.item, hv]

theorem Config.Complete.readParameters (hc : data.Complete) :
    ∃ p, readParameters data = .ok p := by
  have hitem : ∀ key, key ∈ readKeys → data.item key = .ok ((data key).getD (.int 0)) :=
    fun _ => hc.item
  simp only [readKeys, List.forall_mem_cons] at hitem
  simp only [Control.readParameters, hitem]
  exact ⟨_, rfl⟩

/-! ## Tokens -/

/-- **Every switch injects a control packet**, whatever its flag says. -/
theorem injected_runTest (h : runTest data = .ok acts) : ∃ p, readParameters data = .ok p ∧
    injected acts = [.cntrl p.dstAddr p.srcAddr typeControl 0 1 p.inCntrl] := by
  obtain ⟨p, hp, h⟩ := bind_eq_ok h
  cases h
  exact ⟨p, hp, rfl⟩

theorem Config.Complete.runTest (hc : data.Complete) : ∃ acts, runTest data = .ok acts := by
  obtain ⟨p, hp⟩ := hc.readParameters
  unfold Control.runTest
  rw [hp]
  exact ⟨_, rfl⟩

section
variable {ι : Type} [Fintype ι] {ring : ι → Config} {acts : ι → List Action}

/-- One control packet in total, and it comes from a switch that was told to send it. -/
def SingleToken (ring : ι → Config) (acts : ι → List Action) : Prop :=
  ∑ i, (injected (acts i)).length = 1 ∧ ∀ i, injected (acts i) ≠ [] → (ring i).SendsCntrl

/-- There are as many tokens as switches. -/
theorem sum_injected (hrun : ∀ i, runTest (ring i) = .ok (acts i)) :
    ∑ i, (injected (acts i)).length = Fintype.card ι := by
  have hone : ∀ i, (injected (acts i)).length = 1 := by
    intro i
    obtain ⟨p, -, hp⟩ := injected_runTest (hrun i)
    rw [hp, List.length_singleton]
  simp [hone]

/-- **When the start-up injects a single token**: only in a ring of one switch. -/
theorem single_token_iff (hflag : ∃! s, (ring s).SendsCntrl) (hkeys : ∀ i, (ring i).Complete) :
    ∃ acts, (∀ i, runTest (ring i) = .ok (acts i)) ∧
      (SingleToken ring acts ↔ Fintype.card ι = 1) := by
  choose acts hrun using fun i => (hkeys i).runTest
  refine ⟨acts, hrun, ?_⟩
  rw [SingleToken, sum_injected hrun]
  constructor
  · exact fun h => h.1
  · intro hcard
    refine ⟨hcard, ?_⟩
    intro i _
    obtain ⟨s, hs, -⟩ := hflag
    obtain ⟨j, hj⟩ := Fintype.card_eq_one_iff.1 hcard
    rw [hj i, ← hj s]
    exact hs

end

/-- A configuration with all the keys. -/
def sampleConfig (sizeOfRing sendCntrlPkt : Int) : Config := .ofItems [
  ("device_number", .int 0), ("mac_dst_addr", .str "00:90:fb:70:65:71"),
  ("mac_src_addr", .str "00:25:90:53:e6:00"), ("dummy_ip_addr", .str "10.229.49.9"),
  ("port_speed", .str "BF_SPEED_10G"), ("port_fec", .str "BF_FEC_TYP_NONE"),
  ("loopback_port", .int 168), ("cpu_interface", .str "enp5s0"),
  ("external_interface", .str "ma1"), ("switch_ports", .list [.int 172, .int 188]),
  ("cntrl_port", .int 164), ("cpu_port", .int 192), ("in_cntrl", .int 1), ("out_cntrl", .int 1),
  ("meta_circulate", .int 1), ("send_cntrl_pkt", .int sendCntrlPkt),
  ("size_of_ring", .int sizeOfRing),
  ("client_mac", .str "00:25:90:53:e6:00"), ("client_ip", .str "169.229.48.63"),
  ("client_recv_port", .int 30013), ("num_client_threads", .int 1),
  ("all_client_ips_and_ports",
    .list [.list [.str "169.229.48.63", .str "00:25:90:53:e6:00", .str "192"]]),
  ("switch_mac", .str "00:90:fb:70:65:71"), ("use_stor", .int 1), ("cli_d_port", .int 30013),
  ("serv_d_port", .int 30003), ("ipv4_table_entries", .list [.str "10.229.49.9"]),
  ("num_shards", .int 1), ("shard_size", .int 1), ("start_view", .int 1),
  ("ports_to_ring_members", .list [.int 164, .int 0]), ("cntrl_timeout", .int 1),
  ("ack_threshold", .int 1), ("payload_size", .int 100),
  ("all_shards", .list [.list [.int 0, .int 172]])]

/-- A dictionary has the keys that are written down. -/
theorem Config.isSome_ofItems {items : List (String × Value)} {key : String}
    (hkey : key ∈ items.map Prod.fst) : (Config.ofItems items key).isSome := by
  obtain ⟨x, hx, rfl⟩ := List.mem_map.1 hkey
  rw [Config.ofItems, Option.isSome_map, List.find?_isSome]
  exact ⟨x, List.mem_reverse.2 hx, beq_self_eq_true _⟩

theorem sampleConfig_complete (m n : Int) : (sampleConfig m n).Complete :=
  fun _ hkey => Config.isSome_ofItems hkey

theorem sampleConfig_sendsCntrl (m n : Int) : (sampleConfig m n).SendsCntrl ↔ n = 1 := by
  simp [Config.SendsCntrl, sampleConfig, Config.ofItems]

/-- In a ring of one switch the token is the switch's own. -/
theorem single_token_iff_one : ∃ acts,
    (∀ i : Unit, runTest (sampleConfig 1 1) = .ok (acts i)) ∧
      SingleToken (fun _ => sampleConfig 1 1) acts := by
  have hflag : ∃! _s : Unit, (sampleConfig 1 1).SendsCntrl :=
    ⟨(), (sampleConfig_sendsCntrl 1 1).2 rfl, fun _ _ => rfl⟩
  obtain ⟨acts, hrun, hiff⟩ := single_token_iff hflag fun _ => sampleConfig_complete 1 1
  exact ⟨acts, hrun, hiff.2 rfl⟩

/-- In a ring of two switches, of which one is told to send the control packet, both send one. -/
theorem two_tokens : ¬ ∀ (ring : Bool → Config) (acts : Bool → List Action),
    (∃! s, (ring s).SendsCntrl) → (∀ i, (ring i).Complete) →
    (∀ i, runTest (ring i) = .ok (acts i)) → SingleToken ring acts := by
  intro hall
  have hkeys : ∀ i : Bool, (sampleConfig 2 (if i then 1 else 0)).Complete :=
    fun i => sampleConfig_complete 2 _
  have hflag : ∃! s : Bool, (sampleConfig 2 (if s then 1 else 0)).SendsCntrl := by
    refine ⟨true, (sampleConfig_sendsCntrl 2 1).2 rfl, ?_⟩
    intro i hi
    simpa using (sampleConfig_sendsCntrl 2 _).1 hi
  choose acts hrun using fun i => (hkeys i).runTest
  have hone := (hall _ acts hflag hkeys hrun).1
  rw [sum_injected hrun] at hone
  exact absurd hone (by decide)

end Pringles.Control
