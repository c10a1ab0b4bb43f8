import Pringles.Lib.BitFormat
import Pringles.P4.Ingress

/-!
# Packets on the wire

The headers as formats of bits, the parsers of the ingress and the egress and their deparsers. The
two parsers share their states from `parse_ethernet` on; `parse_ring_type` of the egress does not
know `TYPE_VIEW`. The egress parser decides by looking ahead: a first byte of `PKT_TYPE_MIRROR` is
taken for the header of a mirror copy, and an `app_id` of 1 for the header of the packet generator.
-/

namespace Pringles.P4

open BitFormat (field)

/-! ## Formats -/

def PktgenTimer.format : BitFormat PktgenTimer :=
  .header ((field 3).seq ((field 2).seq ((field 3).seq ((field 8).seq ((field 16).seq (field 16))))))
    PktgenTimer.isValid
    (fun h => (h.pad1, h.pipeId, h.appId, h.pad2, h.batchId, h.packetId))
    (fun (pad1, pipeId, appId, pad2, batchId, packetId) =>
      ⟨true, pad1, pipeId, appId, pad2, batchId, packetId⟩)
    (fun _ => rfl) (fun _ => rfl) (fun _ => rfl) (by rintro ⟨⟩ ⟨⟩; rfl)

def Ethernet.format : BitFormat Ethernet :=
  .header ((field 48).seq ((field 48).seq (field 16))) Ethernet.isValid
    (fun h => (h.dstAddr, h.srcAddr, h.etherType))
    (fun (dstAddr, srcAddr, etherType) => ⟨true, dstAddr, srcAddr, etherType⟩)
    (fun _ => rfl) (fun _ => rfl) (fun _ => rfl) (by rintro ⟨⟩ ⟨⟩; rfl)

def ControlPkt.format : BitFormat ControlPkt :=
  .header ((field 32).seq ((field 16).seq ((field 16).seq (field 48)))) ControlPkt.isValid
    (fun h => (h.globalSeqNo, h.ringView, h.pktId, h.startTs))
    (fun (globalSeqNo, ringView, pktId, startTs) => ⟨true, globalSeqNo, ringView, pktId, startTs⟩)
    (fun _ => rfl) (fun _ => rfl) (fun _ => rfl) (by rintro ⟨⟩ ⟨⟩; rfl)

def Ipv4.format : BitFormat Ipv4 :=
  .header ((field 4).seq ((field 4).seq ((field 8).seq ((field 16).seq ((field 16).seq ((field 3).seq
      ((field 13).seq ((field 8).seq ((field 8).seq ((field 16).seq ((field 32).seq
        (field 32)))))))))))) Ipv4.isValid
    (fun h => (h.version, h.ihl, h.diffserv, h.totalLen, h.identification, h.flags, h.fragOffset,
      h.ttl, h.protocol, h.hdrChecksum, h.srcAddr, h.dstAddr))
    (fun (version, ihl, diffserv, totalLen, identification, flags, fragOffset, ttl, protocol,
        hdrChecksum, srcAddr, dstAddr) =>
      ⟨true, version, ihl, diffserv, totalLen, identification, flags, fragOffset, ttl, protocol,
        hdrChecksum, srcAddr, dstAddr⟩)
    (fun _ => rfl) (fun _ => rfl) (fun _ => rfl) (by rintro ⟨⟩ ⟨⟩; rfl)

def Udp.format : BitFormat Udp :=
  .header ((field 16).seq ((field 16).seq ((field 16).seq (field 16)))) Udp.isValid
    (fun h => (h.srcPort, h.dstPort, h.hdrLength, h.checksum))
    (fun (srcPort, dstPort, hdrLength, checksum) => ⟨true, srcPort, dstPort, hdrLength, checksum⟩)
    (fun _ => rfl) (fun _ => rfl) (fun _ => rfl) (by rintro ⟨⟩ ⟨⟩; rfl)

def StartViewChange.format : BitFormat StartViewChange :=
  .header ((field 16).seq ((field 16).seq ((field 16).seq ((field 16).seq (field 32)))))
    StartViewChange.isValid
    (fun h => (h.currentRingView, h.oldRingView, h.switchId, h.senderSwitchId, h.highestSeenSeqNo))
    (fun (currentRingView, oldRingView, switchId, senderSwitchId, highestSeenSeqNo) =>
      ⟨true, currentRingView, oldRingView, switchId, senderSwitchId, highestSeenSeqNo⟩)
    (fun _ => rfl) (fun _ => rfl) (fun _ => rfl) (by rintro ⟨⟩ ⟨⟩; rfl)

def RingType.format : BitFormat RingType :=
  .header ((field 16).seq ((field 16).seq ((field 32).seq (field 32)))) RingType.isValid
    (fun h => (h.type, h.numEntries, h.shardId, h.switchToProcess))
    (fun (type, numEntries, shardId, switchToProcess) =>
      ⟨true, type, numEntries, shardId, switchToProcess⟩)
    (fun _ => rfl) (fun _ => rfl) (fun _ => rfl) (by rintro ⟨⟩ ⟨⟩; rfl)

def AppendEntry.format : BitFormat AppendEntry :=
  .header ((field 32).seq ((field 16).seq ((field 32).seq ((field 32).seq ((field 16).seq
      ((field 32).seq ((field 16).seq (field 48)))))))) AppendEntry.isValid
    (fun h => (h.nonce, h.payloadSize, h.streamId, h.gIdx, h.cntrlPktIt, h.clientIp, h.recvPort,
      h.startTs))
    (fun (nonce, payloadSize, streamId, gIdx, cntrlPktIt, clientIp, recvPort, startTs) =>
      ⟨true, nonce, payloadSize, streamId, gIdx, cntrlPktIt, clientIp, recvPort, startTs⟩)
    (fun _ => rfl) (fun _ => rfl) (fun _ => rfl) (by rintro ⟨⟩ ⟨⟩; rfl)

def ReadEntry.format : BitFormat ReadEntry :=
  .header ((field 32).seq ((field 32).seq ((field 32).seq ((field 32).seq ((field 16).seq
      ((field 16).seq ((field 32).seq (field 48)))))))) ReadEntry.isValid
    (fun h => (h.nonce, h.payloadSize, h.streamId, h.gIdx, h.ringView, h.recvPort, h.clientIp,
      h.startTs))
    (fun (nonce, payloadSize, streamId, gIdx, ringView, recvPort, clientIp, startTs) =>
      ⟨true, nonce, payloadSize, streamId, gIdx, ringView, recvPort, clientIp, startTs⟩)
    (fun _ => rfl) (fun _ => rfl) (fun _ => rfl) (by rintro ⟨⟩ ⟨⟩; rfl)

def TailReq.format : BitFormat TailReq :=
  .header ((field 32).seq ((field 16).seq ((field 32).seq ((field 32).seq (field 16)))))
    TailReq.isValid
    (fun h => (h.nonce, h.hops, h.tailSeqNo, h.clientIp, h.recvPort))
    (fun (nonce, hops, tailSeqNo, clientIp, recvPort) =>
      ⟨true, nonce, hops, tailSeqNo, clientIp, recvPort⟩)
    (fun _ => rfl) (fun _ => rfl) (fun _ => rfl) (by rintro ⟨⟩ ⟨⟩; rfl)

def SubscribeReq.format : BitFormat SubscribeReq :=
  .header ((field 32).seq ((field 32).seq ((field 32).seq ((field 32).seq ((field 16).seq
      (field 16)))))) SubscribeReq.isValid
    (fun h => (h.gIdx, h.streamId, h.subscribe, h.clientIp, h.recvPort, h.subscribePort))
    (fun (gIdx, streamId, subscribe, clientIp, recvPort, subscribePort) =>
      ⟨true, gIdx, streamId, subscribe, clientIp, recvPort, subscribePort⟩)
    (fun _ => rfl) (fun _ => rfl) (fun _ => rfl) (by rintro ⟨⟩ ⟨⟩; rfl)

def ControlPktChecker.format : BitFormat ControlPktChecker :=
  .header (field 32) ControlPktChecker.isValid
    (fun h => h.switchGlobalSeqNo) (fun switchGlobalSeqNo => ⟨true, switchGlobalSeqNo⟩)
    (fun _ => rfl) (fun _ => rfl) (fun _ => rfl) (by rintro ⟨⟩ ⟨⟩; rfl)

/-- `mirror_h`, in front of a mirror copy. -/
def mirrorFormat : BitFormat (BitVec 8) := field 8

/-! ### Validity and widths -/

@[simp] theorem PktgenTimer.valid_format (h : PktgenTimer) :
    PktgenTimer.format.valid h = h.isValid := rfl
@[simp] theorem Ethernet.valid_format (h : Ethernet) : Ethernet.format.valid h = h.isValid := rfl
@[simp] theorem ControlPkt.valid_format (h : ControlPkt) :
    ControlPkt.format.valid h = h.isValid := rfl
@[simp] theorem Ipv4.valid_format (h : Ipv4) : Ipv4.format.valid h = h.isValid := rfl
@[simp] theorem Udp.valid_format (h : Udp) : Udp.format.valid h = h.isValid := rfl
@[simp] theorem StartViewChange.valid_format (h : StartViewChange) :
    StartViewChange.format.valid h = h.isValid := rfl
@[simp] theorem RingType.valid_format (h : RingType) : RingType.format.valid h = h.isValid := rfl
@[simp] theorem AppendEntry.valid_format (h : AppendEntry) :
    AppendEntry.format.valid h = h.isValid := rfl
@[simp] theorem ReadEntry.valid_format (h : ReadEntry) : ReadEntry.format.valid h = h.isValid := rfl
@[simp] theorem TailReq.valid_format (h : TailReq) : TailReq.format.valid h = h.isValid := rfl
@[simp] theorem SubscribeReq.valid_format (h : SubscribeReq) :
    SubscribeReq.format.valid h = h.isValid := rfl
@[simp] theorem ControlPktChecker.valid_format (h : ControlPktChecker) :
    ControlPktChecker.format.valid h = h.isValid := rfl

@[simp] theorem PktgenTimer.width_format : PktgenTimer.format.width = 48 := rfl
@[simp] theorem Ethernet.width_format : Ethernet.format.width = 112 := rfl
@[simp] theorem ControlPkt.width_format : ControlPkt.format.width = 112 := rfl
@[simp] theorem Ipv4.width_format : Ipv4.format.width = 160 := rfl
@[simp] theorem Udp.width_format : Udp.format.width = 64 := rfl
@[simp] theorem StartViewChange.width_format : StartViewChange.format.width = 96 := rfl
@[simp] theorem RingType.width_format : RingType.format.width = 96 := rfl
@[simp] theorem AppendEntry.width_format : AppendEntry.format.width = 224 := rfl
@[simp] theorem ReadEntry.width_format : ReadEntry.format.width = 240 := rfl
@[simp] theorem TailReq.width_format : TailReq.format.width = 128 := rfl
@[simp] theorem SubscribeReq.width_format : SubscribeReq.format.width = 160 := rfl
@[simp] theorem ControlPktChecker.width_format : ControlPktChecker.format.width = 32 := rfl
/-! An invalid header is not emitted. -/

@[simp] theorem PktgenTimer.emit_format {h : PktgenTimer} (hv : h.isValid = false) :
    PktgenTimer.format.emit h = [] := BitFormat.emit_invalid hv
@[simp] theorem Ethernet.emit_format {h : Ethernet} (hv : h.isValid = false) :
    Ethernet.format.emit h = [] := BitFormat.emit_invalid hv
@[simp] theorem ControlPkt.emit_format {h : ControlPkt} (hv : h.isValid = false) :
    ControlPkt.format.emit h = [] := BitFormat.emit_invalid hv
@[simp] theorem Ipv4.emit_format {h : Ipv4} (hv : h.isValid = false) :
    Ipv4.format.emit h = [] := BitFormat.emit_invalid hv
@[simp] theorem Udp.emit_format {h : Udp} (hv : h.isValid = false) :
    Udp.format.emit h = [] := BitFormat.emit_invalid hv
@[simp] theorem StartViewChange.emit_format {h : StartViewChange} (hv : h.isValid = false) :
    StartViewChange.format.emit h = [] := BitFormat.emit_invalid hv
@[simp] theorem RingType.emit_format {h : RingType} (hv : h.isValid = false) :
    RingType.format.emit h = [] := BitFormat.emit_invalid hv
@[simp] theorem AppendEntry.emit_format {h : AppendEntry} (hv : h.isValid = false) :
    AppendEntry.format.emit h = [] := BitFormat.emit_invalid hv
@[simp] theorem ReadEntry.emit_format {h : ReadEntry} (hv : h.isValid = false) :
    ReadEntry.format.emit h = [] := BitFormat.emit_invalid hv
@[simp] theorem TailReq.emit_format {h : TailReq} (hv : h.isValid = false) :
    TailReq.format.emit h = [] := BitFormat.emit_invalid hv
@[simp] theorem SubscribeReq.emit_format {h : SubscribeReq} (hv : h.isValid = false) :
    SubscribeReq.format.emit h = [] := BitFormat.emit_invalid hv
@[simp] theorem ControlPktChecker.emit_format {h : ControlPktChecker} (hv : h.isValid = false) :
    ControlPktChecker.format.emit h = [] := BitFormat.emit_invalid hv

/-! ## Parsers -/

/-- A parser state continues with the headers found so far and the rest of the packet. -/
abbrev ParserState := Headers → List Bool → Option (Headers × List Bool)

def accept : ParserState := fun hdr packet => some (hdr, packet)

/-- `packet.extract`, and the transition behind it. -/
def extract {α : Type} (f : BitFormat α) (store : α → Headers → Headers) (next : ParserState) :
    ParserState :=
  fun hdr packet => (f.read packet).bind fun p => next (store p.1 hdr) p.2

namespace ParserState

def parseControl : ParserState :=
  extract ControlPkt.format (fun x hdr => { hdr with cntrl := x }) accept

def parseControlCheck : ParserState :=
  extract ControlPktChecker.format (fun x hdr => { hdr with cntrlCheck := x }) accept

def parseAppend : ParserState :=
  extract AppendEntry.format (fun x hdr => { hdr with append := x }) accept

def parseRead : ParserState :=
  extract ReadEntry.format (fun x hdr => { hdr with read := x }) accept

def parseTail : ParserState :=
  extract TailReq.format (fun x hdr => { hdr with tail := x }) accept

def parseSub : ParserState :=
  extract SubscribeReq.format (fun x hdr => { hdr with sub := x }) accept

def parseView : ParserState :=
  extract StartViewChange.format (fun x hdr => { hdr with startView := x }) accept

section
variable (onView : ParserState)

/-- The transition on `ring_type.type`; `onView` is the one of `TYPE_VIEW`. -/
def selectType : ParserState := fun hdr =>
  let type := hdr.ringType.type
  if type = typeControlCheck then parseControlCheck hdr
  else if type = typeAppend then parseAppend hdr
  else if type = typeAppendResp then parseAppend hdr
  else if type = typeRead then parseRead hdr
  else if type = typeReadResp then parseRead hdr
  else if type = typeTail then parseTail hdr
  else if type = typeSub then parseSub hdr
  else if type = typeView then onView hdr
  else accept hdr

def parseRingType : ParserState :=
  extract RingType.format (fun x hdr => { hdr with ringType := x }) (selectType onView)

def parseUdp : ParserState :=
  extract Udp.format (fun x hdr => { hdr with udp := x }) (parseRingType onView)

def parseIpv4 : ParserState :=
  extract Ipv4.format (fun x hdr => { hdr with ipv4 := x }) (parseUdp onView)

/-- The transition on `ethernet.etherType`. -/
def selectEtherType : ParserState := fun hdr =>
  if hdr.ethernet.etherType = typeControl then parseControl hdr else parseIpv4 onView hdr

def parseEthernet : ParserState :=
  extract Ethernet.format (fun x hdr => { hdr with ethernet := x }) (selectEtherType onView)

def parsePktgenTimer : ParserState :=
  extract PktgenTimer.format (fun x hdr => { hdr with timer := x }) (parseEthernet onView)

end

end ParserState

open ParserState

/-- The ports on which `MyParser` expects the header of the packet generator. -/
def pktgenPorts : List (BitVec 9) := [68, 168, 196]

def MyParser (ingressPort : BitVec 9) (packet : List Bool) : Option (Headers × List Bool) :=
  if ingressPort ∈ pktgenPorts then parsePktgenTimer parseView {} packet
  else parseEthernet parseView {} packet

namespace MyEgressParser

def parseMaybePktgen (packet : List Bool) : Option (Headers × List Bool) := do
  let (pktTimer, _) ← PktgenTimer.format.read packet
  if pktTimer.appId = 1 then parsePktgenTimer accept {} packet
  else parseEthernet accept {} packet

def parseMirror (packet : List Bool) : Option (Headers × List Bool) := do
  let (_, packet) ← mirrorFormat.read packet
  parseMaybePktgen packet

end MyEgressParser

def MyEgressParser (packet : List Bool) : Option (Headers × List Bool) := do
  let (pktType, _) ← mirrorFormat.read packet
  if pktType = pktTypeMirror then MyEgressParser.parseMirror packet
  else MyEgressParser.parseMaybePktgen packet

/-! ## Deparsers -/

/-- `packet.emit(hdr)` writes the valid headers in the order of `struct headers`. -/
def MyIngressDeparser (hdr : Headers) : List Bool :=
  PktgenTimer.format.emit hdr.timer ++ (Ethernet.format.emit hdr.ethernet ++
  (ControlPkt.format.emit hdr.cntrl ++ (Ipv4.format.emit hdr.ipv4 ++ (Udp.format.emit hdr.udp ++
  (StartViewChange.format.emit hdr.startView ++ (RingType.format.emit hdr.ringType ++
  (AppendEntry.format.emit hdr.append ++ (ReadEntry.format.emit hdr.read ++
  (TailReq.format.emit hdr.tail ++ (SubscribeReq.format.emit hdr.sub ++
  ControlPktChecker.format.emit hdr.cntrlCheck))))))))))

def MyDeparser (hdr : Headers) : List Bool :=
  PktgenTimer.format.emit hdr.timer ++ (Ethernet.format.emit hdr.ethernet ++
  (ControlPkt.format.emit hdr.cntrl ++ (Ipv4.format.emit hdr.ipv4 ++ (Udp.format.emit hdr.udp ++
  (RingType.format.emit hdr.ringType ++ (AppendEntry.format.emit hdr.append ++
  (ReadEntry.format.emit hdr.read ++ (TailReq.format.emit hdr.tail ++
  (SubscribeReq.format.emit hdr.sub ++ ControlPktChecker.format.emit hdr.cntrlCheck)))))))))

/-! ## The egress -/

def typeSubResp : BitVec 16 := 0x0851

/-- `MyEgress`, with the `mirror_type` of its deparser metadata. -/
def MyEgress (mirrorType : BitVec 4) (hdr : Headers) : Headers :=
  if mirrorType ≠ 0 then { hdr with ringType := { hdr.ringType with type := typeSubResp } } else hdr

/-- The way of a packet from the ingress deparser to the wire. Nothing sets the `mirror_type` of the
egress. -/
def egress (packet : List Bool) : Option (List Bool) := do
  let (hdr, payload) ← MyEgressParser packet
  pure (MyDeparser (MyEgress 0 hdr) ++ payload)

end Pringles.P4
