import Pringles.P4.Ingress

/-!
# The ingress control of the packet generator tests

`MyIngress` of `pktgen.p4`, a copy of the one of `sequencing_only.p4` made for measurements. It also
counts the batches in flight and the appends in each, spreads circulating packets over several ports,
measures a control packet only when it closes a batch, and drops a released response of the packet
generator. The register actions on `local_seq_no`, `highest_replicated_seq_no`, `map_from_gsn`,
`ack_array` and `cntrl_pkt_it` are the same in both files.
-/

namespace Pringles.P4.Pktgen

/-! ## State -/

structure Metadata extends P4.Metadata where
  numRecircPorts : BitVec 8 := 0
  portIdx : BitVec 8 := 0
  batchSize : BitVec 32 := 0

/-- The registers and counters, with their initial values. -/
structure Registers where
  localSeqNo : BitVec 32 := 0
  highestReplicatedSeqNo : BitVec 32 := 0
  mapFromGsn : RegArray maxGsnMapSize 32 := .init _ 0
  activeBatches : BitVec 16 := 0
  mapFromBatchSz : RegArray maxGsnMapSize 32 := .init _ 0
  ackArray : RegArray maxInflightAcks 32 := .init _ 0
  cntrlPktIt : BitVec 16 := 0
  recircPortIdx : BitVec 8 := 0
  totPacketCounter : BitVec 32 := 0
  latencyLower : BitVec 32 := 0
  latencyHigher : BitVec 32 := 0
  recircPacketCounter : BitVec 32 := 0
  recircTime : BitVec 32 := 0
  cntrlPacketCounter : BitVec 32 := 0
  ringTripTime : BitVec 32 := 0

/-- `circulate_table` is looked up by the index of a port. -/
structure Tables where
  getSwitchId : BitVec 16 := 1
  getRingView : BitVec 16 := 1
  ipv4Lpm : BitVec 32 → Ipv4LpmAction := fun _ => .noAction
  circulateTable : BitVec 8 → CirculateAction := fun _ => .drop
  numRecircPortTable : BitVec 8 := 1
  getShardPort : BitVec 32 → ShardPortAction := fun _ => .noAction
  cntrlIdToIp : BitVec 16 → CntrlIdToIpAction := fun _ => .drop
  processTail : BitVec 16 → ProcessTailAction := fun _ => .returnTail
  submitSubscription : BitVec 32 → SubmitSubscriptionAction := fun _ => .noAction
  routeSubscriberAcks : BitVec 32 → SubscriberAcksAction := fun _ => .noAction

structure Pipe where
  regs : Registers
  hdr : Headers
  metadata : Metadata := {}
  dprsr : DeparserMetadata := {}
  tm : TmMetadata := {}

/-! ### Register actions of the measurements -/

def addBatch (numBatches : BitVec 16) : BitVec 16 := numBatches + 1

def subBatch (numBatches : BitVec 16) : BitVec 16 := numBatches - 1

def updateBatchSz (szAtIdx : BitVec 32) : BitVec 32 × BitVec 32 := (szAtIdx - 1, szAtIdx - 1)

def setBatchSz (m : Metadata) (_batchSlot : BitVec 32) : BitVec 32 × Unit := (m.batchSize, ())

def getRecircIdx (m : Metadata) (currRecircIdx : BitVec 8) : BitVec 8 × BitVec 8 :=
  if currRecircIdx + 1 = m.numRecircPorts then (0, 0) else (currRecircIdx + 1, currRecircIdx + 1)

def updateLowLatCntr (m : Metadata) (newLatCntr : BitVec 32) : BitVec 32 × BitVec 32 :=
  (newLatCntr + m.duration, if newLatCntr + m.duration < m.duration then 1 else 0)

def updateHighLatCntr (newLatCntr : BitVec 32) : BitVec 32 := newLatCntr + 1

/-! ## The pipeline -/

def drop (s : Pipe) : Pipe := { s with dprsr := { s.dprsr with dropCtl := 1 } }

/-- The assignments at the head of `apply`. -/
def start (s : Pipe) : Pipe :=
  { s with metadata := { s.metadata with
      circulate := false, isCntrl := false, routeToShard := false, sendAcks := false
      routeToClient := false, getPktGen := 0, readProcess := true, appendProcess := true
      pktType := pktTypeNormal, ackThreshold := 1, numShards := 1, shardSize := 1 } }

/-- `start_ts`, `end_ts` and `duration` of a measured packet. -/
def measure (startTs tstamp : BitVec 48) (m : Metadata) : Metadata :=
  { m with startTs := startTs, endTs := tstamp, duration := (tstamp - startTs).truncate 32 }

def localSeqNoReg (s : Pipe) : BitVec 32 × Pipe :=
  if s.hdr.cntrl.isValid then
    let (cur, out) := readLocalSeqNo s.regs.localSeqNo
    (out, { s with regs := { s.regs with localSeqNo := cur } })
  else if s.hdr.append.isValid && s.hdr.append.gIdx == 0 then
    let (cur, out) := writeLocalSeqNo s.regs.localSeqNo
    (out, { s with regs := { s.regs with localSeqNo := cur } })
  else
    (0, s)

/-- A control packet that closes a batch: the trip around the ring is measured, and the batch counts
as one in flight with all of its appends. -/
def closeBatch (tstamp : BitVec 48) (localSeqNoReg : BitVec 32) (s : Pipe) : Option Pipe := do
  let (cur, cntrlPktItReg) := updateCntrlPktIt s.regs.cntrlPktIt
  let (gsn, _) ← s.regs.mapFromGsn.execute cntrlPktItReg.toNat (addGsn s.hdr)
  let m := measure s.hdr.cntrl.startTs tstamp s.metadata
  let m := { m with batchSize := localSeqNoReg }
  let (sz, _) ← s.regs.mapFromBatchSz.execute cntrlPktItReg.toNat (setBatchSz m)
  pure { s with
    regs := { s.regs with
      cntrlPktIt := cur, mapFromGsn := gsn
      ringTripTime := s.regs.ringTripTime + m.duration
      cntrlPacketCounter := s.regs.cntrlPacketCounter + 1
      activeBatches := addBatch s.regs.activeBatches, mapFromBatchSz := sz }
    hdr := { s.hdr with cntrl := { s.hdr.cntrl with
      globalSeqNo := s.hdr.cntrl.globalSeqNo + localSeqNoReg, startTs := tstamp } }
    metadata := m }

def controlBranch (tstamp : BitVec 48) (localSeqNoReg : BitVec 32) (s : Pipe) : Option Pipe := do
  let s ←
    if localSeqNoReg ≠ 0 then closeBatch tstamp localSeqNoReg s
    else do
      let cntrlPktItReg := getCntrlPktIt s.regs.cntrlPktIt
      let (gsn, _) ← s.regs.mapFromGsn.execute cntrlPktItReg.toNat (addGsn s.hdr)
      pure { s with regs := { s.regs with mapFromGsn := gsn } }
  pure { s with metadata := { s.metadata with isCntrl := true } }

def numberAppend (tstamp : BitVec 48) (localSeqNoReg : BitVec 32) (s : Pipe) : Option Pipe := do
  let cntrlPktItReg := getCntrlPktIt s.regs.cntrlPktIt
  if s.hdr.append.gIdx = 0 then
    let (gsn, _) ← s.regs.mapFromGsn.execute cntrlPktItReg.toNat zeroGsn
    pure { s with
      regs := { s.regs with mapFromGsn := gsn }
      hdr := { s.hdr with append := { s.hdr.append with
        cntrlPktIt := cntrlPktItReg, startTs := tstamp, gIdx := localSeqNoReg } } }
  else
    let (gsn, assignSn) ← s.regs.mapFromGsn.execute s.hdr.append.cntrlPktIt.toNat getGsn
    pure { s with
      regs := { s.regs with mapFromGsn := gsn }
      hdr := { s.hdr with append := { s.hdr.append with
        gIdx := s.hdr.append.gIdx + assignSn } } }

/-- A generated append of a closed batch leaves the batch, the last one with the batch. -/
def leaveBatch (tstamp : BitVec 48) (s : Pipe) : Option Pipe := do
  let (sz, cnt) ← s.regs.mapFromBatchSz.execute s.hdr.append.cntrlPktIt.toNat updateBatchSz
  let m := measure s.hdr.append.startTs tstamp s.metadata
  pure { s with
    regs := { s.regs with
      mapFromBatchSz := sz
      activeBatches :=
        if cnt = 0 then subBatch s.regs.activeBatches else s.regs.activeBatches
      recircPacketCounter := s.regs.recircPacketCounter + 1, recircTime := m.duration }
    hdr := { s.hdr with ringType := { s.hdr.ringType with type := typeAppendResp } }
    metadata := { m with circulate := true } }

def routeAppend (tstamp : BitVec 48) (s : Pipe) : Option Pipe :=
  if s.hdr.append.cntrlPktIt = getCntrlPktIt s.regs.cntrlPktIt then
    some { s with metadata := { s.metadata with circulate := true } }
  else if s.hdr.timer.isValid then leaveBatch tstamp s
  else
    some { s with
      hdr := { s.hdr with ringType := { s.hdr.ringType with
        shardId := if s.hdr.append.streamId = 0 then s.hdr.append.gIdx
          else s.hdr.append.streamId } }
      metadata := { s.metadata with routeToShard := true } }

def appendBranch (tstamp : BitVec 48) (localSeqNoReg : BitVec 32) (s : Pipe) : Option Pipe :=
  (numberAppend tstamp localSeqNoReg s).bind (routeAppend tstamp)

/-- A packet that passed the acknowledgement check: a generated response is measured and dropped. -/
def release (tstamp : BitVec 48) (s : Pipe) : Pipe :=
  if s.hdr.timer.isValid then
    let m := measure s.hdr.append.startTs tstamp s.metadata
    let (cur, overflow) := updateLowLatCntr m s.regs.latencyLower
    drop { s with
      regs := { s.regs with
        totPacketCounter := s.regs.totPacketCounter + 1, latencyLower := cur
        latencyHigher := if overflow ≠ 0 then updateHighLatCntr s.regs.latencyHigher
          else s.regs.latencyHigher }
      metadata := m }
  else if s.hdr.append.isValid && !s.hdr.timer.isValid then
    { s with
      regs := { s.regs with
        highestReplicatedSeqNo := writeReplicatedSeqNo s.hdr s.regs.highestReplicatedSeqNo }
      metadata := { s.metadata with sendAcks := true, routeToClient := true } }
  else if s.hdr.read.isValid then
    { s with
      hdr := { s.hdr with ringType := { s.hdr.ringType with shardId := s.hdr.read.gIdx } }
      metadata := { s.metadata with routeToShard := true } }
  else s

def readyForAck (s : Pipe) : Option (BitVec 32) :=
  if s.hdr.ringType.type = typeAppendResp then
    (s.regs.mapFromGsn.execute (getCntrlPktIt s.regs.cntrlPktIt).toNat (compareGsn s.hdr)).map
      Prod.snd
  else some 1

/-- Append responses and read requests. -/
def responseBranch (tstamp : BitVec 48) (s : Pipe) : Option Pipe := do
  let ready ← readyForAck s
  if ready = 1 then
    let slot := getAckIdx s.hdr
    let (acks, ackReady) ← s.regs.ackArray.execute slot.toNat checkAck
    let s := { s with regs := { s.regs with ackArray := acks } }
    pure (if ackReady = 1 then release tstamp s else drop s)
  else
    pure { s with metadata := { s.metadata with circulate := true } }

def tailBranch (t : Tables) (s : Pipe) : Pipe :=
  let tailSeq := s.hdr.tail.tailSeqNo
  let seen := getTail s.hdr s.regs.highestReplicatedSeqNo
  let s := { s with hdr := { s.hdr with tail := { s.hdr.tail with
    tailSeqNo := if seen = 0 then tailSeq else seen } } }
  match t.processTail s.hdr.tail.hops with
  | .forwardTail port =>
    { s with
      hdr := { s.hdr with tail := { s.hdr.tail with hops := s.hdr.tail.hops + 1 } }
      tm := { s.tm with ucastEgressPort := some port } }
  | .returnTail => { s with metadata := { s.metadata with routeToClient := true } }

def viewBranch (t : Tables) (s : Pipe) : Option Pipe := do
  let cntrlPktItReg := latestCompleteCntrlPktIt s.regs.cntrlPktIt
  let (gsn, highest) ← s.regs.mapFromGsn.execute cntrlPktItReg.toNat getGsn
  pure { s with
    regs := { s.regs with mapFromGsn := gsn }
    hdr := { s.hdr with startView := { s.hdr.startView with
      highestSeenSeqNo := highest, switchId := t.getSwitchId, oldRingView := t.getRingView } }
    metadata := { s.metadata with switchId := t.getSwitchId, ringView := t.getRingView } }

/-- The branches of `apply` on the kind of packet. -/
def process (t : Tables) (tstamp : BitVec 48) (localSeqNoReg : BitVec 32) (s : Pipe) :
    Option Pipe :=
  if s.hdr.cntrl.isValid then controlBranch tstamp localSeqNoReg s
  else if s.hdr.ringType.type == typeAppend && s.metadata.appendProcess then
    appendBranch tstamp localSeqNoReg s
  else if (s.hdr.ringType.type == typeAppendResp && s.hdr.append.isValid) ||
      (s.hdr.ringType.type == typeRead && s.metadata.readProcess) then
    responseBranch tstamp s
  else if s.hdr.ringType.type == typeReadResp then
    some { s with metadata := { s.metadata with routeToClient := true } }
  else if s.hdr.tail.isValid then some (tailBranch t s)
  else if s.hdr.startView.isValid then viewBranch t s
  else some s

/-! ### Routing -/

def ipv4Lpm (t : Tables) (s : Pipe) : Pipe :=
  match t.ipv4Lpm s.hdr.ipv4.dstAddr with
  | .ipv4Forward dstAddr port =>
    { s with
      hdr := { s.hdr with
        ethernet := { s.hdr.ethernet with srcAddr := s.hdr.ethernet.dstAddr, dstAddr := dstAddr }
        ipv4 := { s.hdr.ipv4 with ttl := s.hdr.ipv4.ttl - 1 } }
      tm := { s.tm with ucastEgressPort := some port } }
  | .drop => drop s
  | .noAction => s

def cntrlIdToIp (t : Tables) (s : Pipe) : Pipe :=
  match t.cntrlIdToIp s.hdr.cntrl.pktId with
  | .cntrlForward port pktId =>
    { s with
      hdr := { s.hdr with cntrl := { s.hdr.cntrl with pktId := pktId } }
      tm := { s.tm with ucastEgressPort := some port } }
  | .drop => drop s
  | .noAction => s

/-- The ports of circulating packets take turns. -/
def circulateTable (t : Tables) (s : Pipe) : Pipe :=
  let m := { s.metadata with numRecircPorts := t.numRecircPortTable }
  let (cur, recircIdx) := getRecircIdx m s.regs.recircPortIdx
  let s := { s with
    regs := { s.regs with recircPortIdx := cur }, metadata := { m with portIdx := recircIdx } }
  match t.circulateTable s.metadata.portIdx with
  | .circulatePort port => { s with tm := { s.tm with ucastEgressPort := some port } }
  | .drop => drop s

def getShardPort (t : Tables) (s : Pipe) : Pipe :=
  match t.getShardPort s.hdr.ringType.shardId with
  | .shardPort groupId => { s with tm := { s.tm with mcastGrpA := some groupId } }
  | .noAction => s

def submitSubscription (t : Tables) (s : Pipe) : Pipe :=
  let sub := s.hdr.sub
  let flag := if sub.subscribe = 0 then 1 else if sub.subscribe = 1 then 0 else sub.subscribe
  let s := { s with hdr := { s.hdr with sub := { sub with subscribe := flag } } }
  match t.submitSubscription flag with
  | .sendSubscriptionToAll groupId => { s with tm := { s.tm with mcastGrpA := some groupId } }
  | .sendSubscriptionToSelf port => { s with tm := { s.tm with ucastEgressPort := some port } }
  | .noAction => s

def routeSubscriberAcks (t : Tables) (s : Pipe) : Pipe :=
  match t.routeSubscriberAcks s.hdr.append.streamId with
  | .forwardToSubscribers mirrorSessionId =>
    { s with
      metadata := { s.metadata with
        doIngMirroring := true, ingMirSes := mirrorSessionId, pktType := pktTypeMirror }
      dprsr := { s.dprsr with mirrorType := mirrorTypeI2E } }
  | .noAction => s

def routeClient (t : Tables) (s : Pipe) : Pipe :=
  if s.metadata.routeToClient then ipv4Lpm t s else s

def route (t : Tables) (s : Pipe) : Pipe :=
  let s := routeClient t s
  if s.metadata.isCntrl then cntrlIdToIp t s
  else if s.metadata.circulate then circulateTable t s
  else if s.metadata.routeToShard then getShardPort t s
  else if s.hdr.sub.isValid then submitSubscription t s
  else if s.metadata.sendAcks then routeSubscriberAcks t s
  else s

/-- One pass of a packet. -/
def apply (t : Tables) (tstamp : BitVec 48) (regs : Registers) (hdr : Headers) : Option Pipe :=
  let (reg, s) := localSeqNoReg (start { regs := regs, hdr := hdr })
  (process t tstamp reg s).map (route t)

end Pringles.P4.Pktgen
