import Pringles.Lib.RegArray
import Pringles.P4.Headers

/-!
# The ingress control `MyIngress`

One pass of a packet through the ingress pipeline of `sequencing_only.p4`, and of `failure.p4`,
which differs from it in the view-change branch alone. The pass reads and writes the registers, the
headers and the metadata, in the order of the source; the match-action tables enter through the
action that a lookup selects. The pass has no result when it addresses a cell that a register array
does not have.
-/

namespace Pringles.P4

/-- The two programs modelled here. -/
inductive Program where
  | sequencingOnly
  | failure
deriving DecidableEq

/-! ## Metadata -/

def pktTypeMirror : BitVec 8 := 2
def pktTypeNormal : BitVec 8 := 1
def mirrorTypeI2E : BitVec 4 := 1

/-- `struct metadata`, zero when the parser hands it over. -/
structure Metadata where
  circulate : Bool := false
  appendProcess : Bool := false
  readProcess : Bool := false
  routeToShard : Bool := false
  isCntrl : Bool := false
  sendAcks : Bool := false
  routeToClient : Bool := false
  switchId : BitVec 16 := 0
  ringView : BitVec 16 := 0
  numShards : BitVec 32 := 0
  shardSize : BitVec 32 := 0
  ackThreshold : BitVec 32 := 0
  doIngMirroring : Bool := false
  ingMirSes : BitVec 10 := 0
  pktType : BitVec 8 := 0
  getPktGen : BitVec 8 := 0
  startTs : BitVec 48 := 0
  endTs : BitVec 48 := 0
  duration : BitVec 32 := 0

/-- The part of `ig_dprsr_md` that the program writes. -/
structure DeparserMetadata where
  dropCtl : BitVec 3 := 0
  mirrorType : BitVec 4 := 0

/-- The part of `ig_tm_md` that the program writes: an output is `none` until it is assigned. -/
structure TmMetadata where
  ucastEgressPort : Option (BitVec 9) := none
  mcastGrpA : Option (BitVec 16) := none

/-! ## Registers -/

def maxInflightAcks : Nat := 65536
def maxGsnMapSize : Nat := 65535

/-- The registers and counters of `MyIngress`, with their initial values. -/
structure Registers where
  localSeqNo : BitVec 32 := 0
  highestReplicatedSeqNo : BitVec 32 := 0
  mapFromGsn : RegArray maxGsnMapSize 32 := .init _ 0
  ackArray : RegArray maxInflightAcks 32 := .init _ 0
  cntrlPktIt : BitVec 16 := 0
  totPacketCounter : BitVec 32 := 0
  latency : BitVec 32 := 0
  recircPacketCounter : BitVec 32 := 0
  recircTime : BitVec 32 := 0
  cntrlPacketCounter : BitVec 32 := 0
  ringTripTime : BitVec 32 := 0

/-! ### Register actions

An action maps the old content of its cell to the new content and the output; an action that leaves
its cell alone is written as its output. -/

def writeLocalSeqNo (curLocalSeqNo : BitVec 32) : BitVec 32 × BitVec 32 :=
  (curLocalSeqNo + 1, curLocalSeqNo + 1)

def readLocalSeqNo (curLocalSeqNo : BitVec 32) : BitVec 32 × BitVec 32 :=
  (0, curLocalSeqNo)

def writeReplicatedSeqNo (hdr : Headers) (curReplicatedSeqNo : BitVec 32) : BitVec 32 :=
  if hdr.append.gIdx > curReplicatedSeqNo then hdr.append.gIdx else curReplicatedSeqNo

def getTail (hdr : Headers) (currReplicatedSeqNo : BitVec 32) : BitVec 32 :=
  if hdr.tail.tailSeqNo < currReplicatedSeqNo then currReplicatedSeqNo else 0

def getGsn (gsnAtIdx : BitVec 32) : BitVec 32 × BitVec 32 := (gsnAtIdx, gsnAtIdx)

def addGsn (hdr : Headers) (_gsnSlot : BitVec 32) : BitVec 32 × Unit :=
  (hdr.cntrl.globalSeqNo, ())

def zeroGsn (_gsnSlot : BitVec 32) : BitVec 32 × Unit := (0, ())

def compareGsn (hdr : Headers) (gsnSlot : BitVec 32) : BitVec 32 × BitVec 32 :=
  (gsnSlot, if hdr.append.gIdx > gsnSlot then 0 else 1)

/-- The comparison with `meta.ack_threshold` is commented out in the source. -/
def checkAck (currAckCnt : BitVec 32) : BitVec 32 × BitVec 32 := (currAckCnt + 1, 1)

def getAckIdx (hdr : Headers) : BitVec 32 :=
  hdr.append.gIdx &&& BitVec.ofNat 32 (maxInflightAcks - 1)

def updateCntrlPktIt (curCntrlPktIt : BitVec 16) : BitVec 16 × BitVec 16 :=
  (if curCntrlPktIt = BitVec.ofNat 16 maxGsnMapSize then 0 else curCntrlPktIt + 1, curCntrlPktIt)

def getCntrlPktIt (curCntrlPktIt : BitVec 16) : BitVec 16 := curCntrlPktIt

def latestCompleteCntrlPktIt (curCntrlPktIt : BitVec 16) : BitVec 16 := curCntrlPktIt - 1

/-! ## Match-action tables -/

inductive Ipv4LpmAction where
  | ipv4Forward (dstAddr : BitVec 48) (port : BitVec 9)
  | drop
  | noAction

inductive CirculateAction where
  | circulatePort (port : BitVec 9)
  | drop

inductive ShardPortAction where
  | shardPort (groupId : BitVec 16)
  | noAction

inductive CntrlIdToIpAction where
  | cntrlForward (port : BitVec 9) (pktId : BitVec 16)
  | drop
  | noAction

inductive ProcessTailAction where
  | forwardTail (port : BitVec 9)
  | returnTail

inductive SubmitSubscriptionAction where
  | sendSubscriptionToAll (groupId : BitVec 16)
  | sendSubscriptionToSelf (port : BitVec 9)
  | noAction

inductive SubscriberAcksAction where
  | forwardToSubscribers (mirrorSessionId : BitVec 10)
  | noAction

/-- The tables that `apply` consults, each as the action that it selects for a key, and the tables
without a key as their action data. Of `get_ack_threshold` the source keeps the table and comments
out its application. -/
structure Tables where
  getAckThreshold : BitVec 32 := 1
  getSwitchId : BitVec 16 := 1
  getRingView : BitVec 16 := 1
  ipv4Lpm : BitVec 32 → Ipv4LpmAction := fun _ => .noAction
  circulateTable : Bool → CirculateAction := fun _ => .drop
  getShardPort : BitVec 32 → ShardPortAction := fun _ => .noAction
  cntrlIdToIp : BitVec 16 → CntrlIdToIpAction := fun _ => .drop
  processTail : BitVec 16 → ProcessTailAction := fun _ => .returnTail
  submitSubscription : BitVec 32 → SubmitSubscriptionAction := fun _ => .noAction
  routeSubscriberAcks : BitVec 32 → SubscriberAcksAction := fun _ => .noAction

/-- `setup_ack_const` of the control plane. -/
def Tables.setupAckConst (t : Tables) (ackThreshold : BitVec 32) : Tables :=
  { t with getAckThreshold := ackThreshold }

/-- `setup_tail_table` of the control plane. The entry of `process_tail` is the range of hops from
zero to `size_of_ring - 1`; `return_tail` is the default action. -/
def Tables.setupTailTable (t : Tables) (sizeOfRing : Nat) (cntrlPort : BitVec 9) : Tables :=
  { t with processTail := fun hops =>
      if hops.toNat ≤ sizeOfRing - 1 then .forwardTail cntrlPort else .returnTail }

/-- `setup_cntrl_table` of the control plane. -/
def Tables.setupCntrlTable (t : Tables) (inCntrl outCntrl : BitVec 16) (cntrlPort : BitVec 9) :
    Tables :=
  { t with cntrlIdToIp := fun pktId =>
      if pktId = inCntrl then .cntrlForward cntrlPort outCntrl else t.cntrlIdToIp pktId }

/-! ## The pipeline -/

/-- Everything that one pass reads and writes. -/
structure Pipe where
  regs : Registers
  hdr : Headers
  metadata : Metadata := {}
  dprsr : DeparserMetadata := {}
  tm : TmMetadata := {}

namespace MyIngress

def drop (s : Pipe) : Pipe := { s with dprsr := { s.dprsr with dropCtl := 1 } }

/-- The assignments at the head of `apply`. -/
def start (s : Pipe) : Pipe :=
  { s with metadata := { s.metadata with
      circulate := false, isCntrl := false, routeToShard := false, sendAcks := false
      routeToClient := false, getPktGen := 0, readProcess := true, appendProcess := true
      pktType := pktTypeNormal, ackThreshold := 1, numShards := 1, shardSize := 1 } }

/-- `start_ts`, `end_ts` and `duration` of a measured packet. -/
def measure (startTs tstamp : BitVec 48) (m : Metadata) : Metadata :=
  { m with startTs := startTs, endTs := tstamp, duration := (tstamp - startTs).truncate 32 }

/-- The batch counter comes first: a control packet reads and resets it, an append header without a
number increments it, whatever the type of its packet. -/
def localSeqNoReg (s : Pipe) : BitVec 32 × Pipe :=
  if s.hdr.cntrl.isValid then
    let (cur, out) := readLocalSeqNo s.regs.localSeqNo
    (out, { s with regs := { s.regs with localSeqNo := cur } })
  else if s.hdr.append.isValid && s.hdr.append.gIdx == 0 then
    let (cur, out) := writeLocalSeqNo s.regs.localSeqNo
    (out, { s with regs := { s.regs with localSeqNo := cur } })
  else
    (0, s)

/-- A control packet leaves its number in the current slot of `map_from_gsn`. If it closes a batch,
it adds the size of the batch to its number and the switch moves on to the next slot. -/
def recordGsn (localSeqNoReg : BitVec 32) (s : Pipe) : Option Pipe :=
  if localSeqNoReg ≠ 0 then do
    let (cur, cntrlPktItReg) := updateCntrlPktIt s.regs.cntrlPktIt
    let (gsn, _) ← s.regs.mapFromGsn.execute cntrlPktItReg.toNat (addGsn s.hdr)
    pure { s with
      regs := { s.regs with
        cntrlPktIt := cur, mapFromGsn := gsn
        cntrlPacketCounter := s.regs.cntrlPacketCounter + 1 }
      hdr := { s.hdr with cntrl := { s.hdr.cntrl with
        globalSeqNo := s.hdr.cntrl.globalSeqNo + localSeqNoReg } } }
  else do
    let cntrlPktItReg := getCntrlPktIt s.regs.cntrlPktIt
    let (gsn, _) ← s.regs.mapFromGsn.execute cntrlPktItReg.toNat (addGsn s.hdr)
    pure { s with regs := { s.regs with mapFromGsn := gsn } }

/-- The statistics of the control packet's trip around the ring. -/
def measureTrip (tstamp : BitVec 48) (s : Pipe) : Pipe :=
  let m := measure s.hdr.cntrl.startTs tstamp s.metadata
  { s with
    regs := { s.regs with ringTripTime := s.regs.ringTripTime + m.duration }
    hdr := { s.hdr with cntrl := { s.hdr.cntrl with startTs := tstamp } }
    metadata := { m with isCntrl := true } }

def controlBranch (tstamp : BitVec 48) (localSeqNoReg : BitVec 32) (s : Pipe) : Option Pipe :=
  (recordGsn localSeqNoReg s).map (measureTrip tstamp)

/-- An append without a number takes its offset in the open batch and clears the slot of the batch;
a circulating append adds what the slot of its batch holds. -/
def numberAppend (tstamp : BitVec 48) (localSeqNoReg : BitVec 32) (s : Pipe) : Option Pipe := do
  let cntrlPktItReg := getCntrlPktIt s.regs.cntrlPktIt
  if s.hdr.append.gIdx = 0 then
    let (gsn, _) ← s.regs.mapFromGsn.execute cntrlPktItReg.toNat zeroGsn
    pure { s with
      regs := { s.regs with mapFromGsn := gsn }
      hdr := { s.hdr with append := { s.hdr.append with
        cntrlPktIt := cntrlPktItReg, startTs := tstamp, gIdx := localSeqNoReg } } }
  else
    let (gsn, assignSn) ← s.regs.mapFromGsn.execute s.hdr.append.cntrlPktIt.toNat getGsn
    pure { s with
      regs := { s.regs with mapFromGsn := gsn }
      hdr := { s.hdr with append := { s.hdr.append with
        gIdx := s.hdr.append.gIdx + assignSn } } }

/-- An append of the open batch circulates; one of a closed batch goes to its shard, or is turned
into a response on the spot when the packet generator made it. -/
def routeAppend (tstamp : BitVec 48) (s : Pipe) : Pipe :=
  if s.hdr.append.cntrlPktIt = getCntrlPktIt s.regs.cntrlPktIt then
    { s with metadata := { s.metadata with circulate := true } }
  else if s.hdr.timer.isValid then
    let m := measure s.hdr.append.startTs tstamp s.metadata
    { s with
      regs := { s.regs with
        recircPacketCounter := s.regs.recircPacketCounter + 1, recircTime := m.duration }
      hdr := { s.hdr with ringType := { s.hdr.ringType with type := typeAppendResp } }
      metadata := { m with circulate := true } }
  else
    { s with
      hdr := { s.hdr with ringType := { s.hdr.ringType with
        shardId := if s.hdr.append.streamId = 0 then s.hdr.append.gIdx
          else s.hdr.append.streamId } }
      metadata := { s.metadata with routeToShard := true } }

def appendBranch (tstamp : BitVec 48) (localSeqNoReg : BitVec 32) (s : Pipe) : Option Pipe :=
  (numberAppend tstamp localSeqNoReg s).map (routeAppend tstamp)

/-- A packet that passed the acknowledgement check: a generated response is measured, a client's
response is recorded and sent out, a read goes to its shard. -/
def release (tstamp : BitVec 48) (s : Pipe) : Pipe :=
  if s.hdr.timer.isValid then
    let m := measure s.hdr.append.startTs tstamp s.metadata
    { s with
      regs := { s.regs with
        totPacketCounter := s.regs.totPacketCounter + 1, latency := s.regs.latency + m.duration }
      metadata := { m with routeToClient := true } }
  else if s.hdr.append.isValid && !s.hdr.timer.isValid then
    { s with
      regs := { s.regs with
        highestReplicatedSeqNo := writeReplicatedSeqNo s.hdr s.regs.highestReplicatedSeqNo }
      metadata := { s.metadata with sendAcks := true, routeToClient := true } }
  else if s.hdr.read.isValid then
    { s with
      hdr := { s.hdr with ringType := { s.hdr.ringType with shardId := s.hdr.read.gIdx } }
      metadata := { s.metadata with routeToShard := true } }
  else s

/-- `ready_for_ack`: only a response consults the slot table. -/
def readyForAck (s : Pipe) : Option (BitVec 32) :=
  if s.hdr.ringType.type = typeAppendResp then
    (s.regs.mapFromGsn.execute (getCntrlPktIt s.regs.cntrlPktIt).toNat (compareGsn s.hdr)).map
      Prod.snd
  else some 1

/-- Append responses and read requests. -/
def responseBranch (tstamp : BitVec 48) (s : Pipe) : Option Pipe := do
  let ready ← readyForAck s
  if ready = 1 then
    let slot := getAckIdx s.hdr
    let (acks, ackReady) ← s.regs.ackArray.execute slot.toNat checkAck
    let s := { s with regs := { s.regs with ackArray := acks } }
    pure (if ackReady = 1 then release tstamp s else drop s)
  else
    pure { s with metadata := { s.metadata with circulate := true } }

/-- A tail request takes the larger of its own number and the switch's. -/
def tailBranch (t : Tables) (s : Pipe) : Pipe :=
  let tailSeq := s.hdr.tail.tailSeqNo
  let seen := getTail s.hdr s.regs.highestReplicatedSeqNo
  let s := { s with hdr := { s.hdr with tail := { s.hdr.tail with
    tailSeqNo := if seen = 0 then tailSeq else seen } } }
  match t.processTail s.hdr.tail.hops with
  | .forwardTail port =>
    { s with
      hdr := { s.hdr with tail := { s.hdr.tail with hops := s.hdr.tail.hops + 1 } }
      tm := { s.tm with ucastEgressPort := some port } }
  | .returnTail => { s with metadata := { s.metadata with routeToClient := true } }

/-- The condition under which a view-change request is answered. -/
def answersView (p : Program) (s : Pipe) : Bool :=
  match p with
  | .sequencingOnly => s.hdr.startView.isValid
  | .failure => s.hdr.startView.isValid && s.hdr.startView.switchId != s.metadata.switchId

/-- The answer reports the slot before the current one. `failure.p4` also sends it back. -/
def viewBranch (p : Program) (t : Tables) (s : Pipe) : Option Pipe := do
  let cntrlPktItReg := latestCompleteCntrlPktIt s.regs.cntrlPktIt
  let (gsn, highest) ← s.regs.mapFromGsn.execute cntrlPktItReg.toNat getGsn
  pure { s with
    regs := { s.regs with mapFromGsn := gsn }
    hdr := { s.hdr with startView := { s.hdr.startView with
      highestSeenSeqNo := highest, switchId := t.getSwitchId, oldRingView := t.getRingView } }
    metadata := { s.metadata with
      switchId := t.getSwitchId, ringView := t.getRingView
      routeToClient := match p with
        | .sequencingOnly => s.metadata.routeToClient
        | .failure => true } }

/-- The branches of `apply` on the kind of packet. -/
def process (p : Program) (t : Tables) (tstamp : BitVec 48) (localSeqNoReg : BitVec 32)
    (s : Pipe) : Option Pipe :=
  if s.hdr.cntrl.isValid then controlBranch tstamp localSeqNoReg s
  else if s.hdr.ringType.type == typeAppend && s.metadata.appendProcess then
    appendBranch tstamp localSeqNoReg s
  else if (s.hdr.ringType.type == typeAppendResp && s.hdr.append.isValid) ||
      (s.hdr.ringType.type == typeRead && s.metadata.readProcess) then
    responseBranch tstamp s
  else if s.hdr.ringType.type == typeReadResp then
    some { s with metadata := { s.metadata with routeToClient := true } }
  else if s.hdr.tail.isValid then some (tailBranch t s)
  else if answersView p s then viewBranch p t s
  else some s

/-! ### Routing -/

def ipv4Lpm (t : Tables) (s : Pipe) : Pipe :=
  match t.ipv4Lpm s.hdr.ipv4.dstAddr with
  | .ipv4Forward dstAddr port =>
    { s with
      hdr := { s.hdr with
        ethernet := { s.hdr.ethernet with srcAddr := s.hdr.ethernet.dstAddr, dstAddr := dstAddr }
        ipv4 := { s.hdr.ipv4 with ttl := s.hdr.ipv4.ttl - 1 } }
      tm := { s.tm with ucastEgressPort := some port } }
  | .drop => drop s
  | .noAction => s

def cntrlIdToIp (t : Tables) (s : Pipe) : Pipe :=
  match t.cntrlIdToIp s.hdr.cntrl.pktId with
  | .cntrlForward port pktId =>
    { s with
      hdr := { s.hdr with cntrl := { s.hdr.cntrl with pktId := pktId } }
      tm := { s.tm with ucastEgressPort := some port } }
  | .drop => drop s
  | .noAction => s

def circulateTable (t : Tables) (s : Pipe) : Pipe :=
  match t.circulateTable s.metadata.circulate with
  | .circulatePort port => { s with tm := { s.tm with ucastEgressPort := some port } }
  | .drop => drop s

def getShardPort (t : Tables) (s : Pipe) : Pipe :=
  match t.getShardPort s.hdr.ringType.shardId with
  | .shardPort groupId => { s with tm := { s.tm with mcastGrpA := some groupId } }
  | .noAction => s

/-- A subscription toggles its flag and is then looked up by it. -/
def submitSubscription (t : Tables) (s : Pipe) : Pipe :=
  let sub := s.hdr.sub
  let flag := if sub.subscribe = 0 then 1 else if sub.subscribe = 1 then 0 else sub.subscribe
  let s := { s with hdr := { s.hdr with sub := { sub with subscribe := flag } } }
  match t.submitSubscription flag with
  | .sendSubscriptionToAll groupId => { s with tm := { s.tm with mcastGrpA := some groupId } }
  | .sendSubscriptionToSelf port => { s with tm := { s.tm with ucastEgressPort := some port } }
  | .noAction => s

def routeSubscriberAcks (t : Tables) (s : Pipe) : Pipe :=
  match t.routeSubscriberAcks s.hdr.append.streamId with
  | .forwardToSubscribers mirrorSessionId =>
    { s with
      metadata := { s.metadata with
        doIngMirroring := true, ingMirSes := mirrorSessionId, pktType := pktTypeMirror }
      dprsr := { s.dprsr with mirrorType := mirrorTypeI2E } }
  | .noAction => s

def routeClient (t : Tables) (s : Pipe) : Pipe :=
  if s.metadata.routeToClient then ipv4Lpm t s else s

/-- The routing logic behind the branches. -/
def route (t : Tables) (s : Pipe) : Pipe :=
  let s := routeClient t s
  if s.metadata.isCntrl then cntrlIdToIp t s
  else if s.metadata.circulate then circulateTable t s
  else if s.metadata.routeToShard then getShardPort t s
  else if s.hdr.sub.isValid then submitSubscription t s
  else if s.metadata.sendAcks then routeSubscriberAcks t s
  else s

/-- One pass of a packet: `apply` of `MyIngress`. -/
def apply (p : Program) (t : Tables) (tstamp : BitVec 48) (regs : Registers) (hdr : Headers) :
    Option Pipe :=
  let (reg, s) := localSeqNoReg (start { regs := regs, hdr := hdr })
  (process p t tstamp reg s).map (route t)

end MyIngress

end Pringles.P4
