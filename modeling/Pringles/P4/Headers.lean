import Mathlib.Data.BitVec

/-!
# Headers of the switch programs

The header stack that `MyParser` fills and `MyIngress` edits. A header is its fields beside a
validity bit: reading a field of an invalid header yields whatever the container holds, so nothing
is assumed about it. The programs `sequencing_only.p4` and `failure.p4` declare the same stack.
-/

namespace Pringles.P4

/-! ## Packet types -/

def typeControl : BitVec 16 := 0x0820
def typeControlCheck : BitVec 16 := 0x0880
def typeAppend : BitVec 16 := 0x0860
def typeAppendResp : BitVec 16 := 0x0861
def typeRead : BitVec 16 := 0x0870
def typeReadResp : BitVec 16 := 0x0871
def typeTail : BitVec 16 := 0x0840
def typeSub : BitVec 16 := 0x0850
def typeView : BitVec 16 := 0x0830

@[simp] theorem typeAppend_ne_resp : typeAppend ≠ typeAppendResp := by decide
@[simp] theorem typeResp_ne_append : typeAppendResp ≠ typeAppend := by decide
@[simp] theorem typeTail_ne_append : typeTail ≠ typeAppend := by decide
@[simp] theorem typeTail_ne_resp : typeTail ≠ typeAppendResp := by decide
@[simp] theorem typeTail_ne_read : typeTail ≠ typeRead := by decide
@[simp] theorem typeTail_ne_readResp : typeTail ≠ typeReadResp := by decide
@[simp] theorem typeView_ne_append : typeView ≠ typeAppend := by decide
@[simp] theorem typeView_ne_resp : typeView ≠ typeAppendResp := by decide
@[simp] theorem typeView_ne_read : typeView ≠ typeRead := by decide
@[simp] theorem typeView_ne_readResp : typeView ≠ typeReadResp := by decide
@[simp] theorem typeRead_ne_append : typeRead ≠ typeAppend := by decide
@[simp] theorem typeRead_ne_resp : typeRead ≠ typeAppendResp := by decide

/-! ## Headers -/

/-- `pktgen_timer_header_t`, in front of the packets of the packet generator. -/
structure PktgenTimer where
  isValid : Bool := false
  pad1 : BitVec 3 := 0
  pipeId : BitVec 2 := 0
  appId : BitVec 3 := 0
  pad2 : BitVec 8 := 0
  batchId : BitVec 16 := 0
  packetId : BitVec 16 := 0

structure Ethernet where
  isValid : Bool := false
  dstAddr : BitVec 48 := 0
  srcAddr : BitVec 48 := 0
  etherType : BitVec 16 := 0

/-- The control packet: the token that carries the global sequence number. -/
structure ControlPkt where
  isValid : Bool := false
  globalSeqNo : BitVec 32 := 0
  ringView : BitVec 16 := 0
  pktId : BitVec 16 := 0
  startTs : BitVec 48 := 0

structure Ipv4 where
  isValid : Bool := false
  version : BitVec 4 := 0
  ihl : BitVec 4 := 0
  diffserv : BitVec 8 := 0
  totalLen : BitVec 16 := 0
  identification : BitVec 16 := 0
  flags : BitVec 3 := 0
  fragOffset : BitVec 13 := 0
  ttl : BitVec 8 := 0
  protocol : BitVec 8 := 0
  hdrChecksum : BitVec 16 := 0
  srcAddr : BitVec 32 := 0
  dstAddr : BitVec 32 := 0

structure Udp where
  isValid : Bool := false
  srcPort : BitVec 16 := 0
  dstPort : BitVec 16 := 0
  hdrLength : BitVec 16 := 0
  checksum : BitVec 16 := 0

structure StartViewChange where
  isValid : Bool := false
  currentRingView : BitVec 16 := 0
  oldRingView : BitVec 16 := 0
  switchId : BitVec 16 := 0
  senderSwitchId : BitVec 16 := 0
  highestSeenSeqNo : BitVec 32 := 0

structure RingType where
  isValid : Bool := false
  type : BitVec 16 := 0
  numEntries : BitVec 16 := 0
  shardId : BitVec 32 := 0
  switchToProcess : BitVec 32 := 0

structure AppendEntry where
  isValid : Bool := false
  nonce : BitVec 32 := 0
  payloadSize : BitVec 16 := 0
  streamId : BitVec 32 := 0
  gIdx : BitVec 32 := 0
  cntrlPktIt : BitVec 16 := 0
  clientIp : BitVec 32 := 0
  recvPort : BitVec 16 := 0
  startTs : BitVec 48 := 0

structure ReadEntry where
  isValid : Bool := false
  nonce : BitVec 32 := 0
  payloadSize : BitVec 32 := 0
  streamId : BitVec 32 := 0
  gIdx : BitVec 32 := 0
  ringView : BitVec 16 := 0
  recvPort : BitVec 16 := 0
  clientIp : BitVec 32 := 0
  startTs : BitVec 48 := 0

structure TailReq where
  isValid : Bool := false
  nonce : BitVec 32 := 0
  hops : BitVec 16 := 0
  tailSeqNo : BitVec 32 := 0
  clientIp : BitVec 32 := 0
  recvPort : BitVec 16 := 0

structure SubscribeReq where
  isValid : Bool := false
  gIdx : BitVec 32 := 0
  streamId : BitVec 32 := 0
  subscribe : BitVec 32 := 0
  clientIp : BitVec 32 := 0
  recvPort : BitVec 16 := 0
  subscribePort : BitVec 16 := 0

structure ControlPktChecker where
  isValid : Bool := false
  switchGlobalSeqNo : BitVec 32 := 0

/-- `struct headers`. -/
structure Headers where
  timer : PktgenTimer := {}
  ethernet : Ethernet := {}
  cntrl : ControlPkt := {}
  ipv4 : Ipv4 := {}
  udp : Udp := {}
  startView : StartViewChange := {}
  ringType : RingType := {}
  append : AppendEntry := {}
  read : ReadEntry := {}
  tail : TailReq := {}
  sub : SubscribeReq := {}
  cntrlCheck : ControlPktChecker := {}

namespace Headers

/-! ## What `MyParser` accepts

A frame is either a control packet (`TYPE_CONTROL` in the ethernet header) or an IP/UDP packet with
a ring type, and then `ring_type.type` selects the one header behind it. -/

/-- The validity bits that `MyParser` leaves behind, the timer header aside: that one depends on
the ingress port alone. -/
structure Parsed (hdr : Headers) : Prop where
  ethernet : hdr.ethernet.isValid = true
  cntrl : hdr.cntrl.isValid = (hdr.ethernet.etherType == typeControl)
  ipv4 : hdr.ipv4.isValid = !hdr.cntrl.isValid
  udp : hdr.udp.isValid = !hdr.cntrl.isValid
  ringType : hdr.ringType.isValid = !hdr.cntrl.isValid
  cntrlCheck : hdr.cntrlCheck.isValid =
    (!hdr.cntrl.isValid && hdr.ringType.type == typeControlCheck)
  append : hdr.append.isValid = (!hdr.cntrl.isValid &&
    (hdr.ringType.type == typeAppend || hdr.ringType.type == typeAppendResp))
  read : hdr.read.isValid = (!hdr.cntrl.isValid &&
    (hdr.ringType.type == typeRead || hdr.ringType.type == typeReadResp))
  tail : hdr.tail.isValid = (!hdr.cntrl.isValid && hdr.ringType.type == typeTail)
  sub : hdr.sub.isValid = (!hdr.cntrl.isValid && hdr.ringType.type == typeSub)
  startView : hdr.startView.isValid = (!hdr.cntrl.isValid && hdr.ringType.type == typeView)

/-- The packet is a control packet. -/
def IsControl (hdr : Headers) : Prop := hdr.cntrl.isValid = true

/-- An append request, fresh or circulating. -/
def IsAppend (hdr : Headers) : Prop :=
  hdr.cntrl.isValid = false ∧ hdr.ringType.type = typeAppend

/-- An append response. -/
def IsAppendResp (hdr : Headers) : Prop :=
  hdr.cntrl.isValid = false ∧ hdr.ringType.type = typeAppendResp

/-- A read request. -/
def IsRead (hdr : Headers) : Prop :=
  hdr.cntrl.isValid = false ∧ hdr.ringType.type = typeRead

/-- A tail request. -/
def IsTail (hdr : Headers) : Prop :=
  hdr.cntrl.isValid = false ∧ hdr.ringType.type = typeTail

/-- A view-change request. -/
def IsView (hdr : Headers) : Prop :=
  hdr.cntrl.isValid = false ∧ hdr.ringType.type = typeView

/-- The append header is there exactly in append requests and responses. -/
def WellFormed (hdr : Headers) : Prop :=
  hdr.cntrl.isValid = false → (hdr.append.isValid = true ↔
    hdr.ringType.type = typeAppend ∨ hdr.ringType.type = typeAppendResp)

/-- An append request that has no number yet. -/
def IsUnnumbered (hdr : Headers) : Prop := hdr.IsAppend ∧ hdr.append.gIdx = 0

/-- An append request of a client as it enters the ring: no timer header and no number yet. -/
def IsFresh (hdr : Headers) : Prop :=
  hdr.IsAppend ∧ hdr.append.isValid = true ∧ hdr.timer.isValid = false ∧ hdr.append.gIdx = 0

/-- A packet that clients, shards and the packet generator may send: an append request comes
without a number, everything else as it likes. -/
def Enters (hdr : Headers) : Prop :=
  hdr.cntrl.isValid = false ∧ hdr.WellFormed ∧ (hdr.IsAppend → hdr.append.gIdx = 0)

/-- The packet takes a number from the batch counter: an append header with `g_idx = 0`. -/
def Draws (hdr : Headers) : Prop :=
  hdr.cntrl.isValid = false ∧ hdr.append.isValid = true ∧ hdr.append.gIdx = 0

/-- An append request or response: the only packets that go to a loopback port. -/
def CanCirculate (hdr : Headers) : Prop :=
  hdr.WellFormed ∧ hdr.cntrl.isValid = false ∧ hdr.append.isValid = true

/-- What a switch may be sent: control packets, and packets that enter the ring. -/
def Sent (hdr : Headers) : Prop := hdr.IsControl ∨ hdr.Enters

instance (hdr : Headers) : Decidable hdr.IsControl := inferInstanceAs (Decidable (_ = _))
instance (hdr : Headers) : Decidable hdr.IsAppend := inferInstanceAs (Decidable (_ ∧ _))
instance (hdr : Headers) : Decidable hdr.IsAppendResp := inferInstanceAs (Decidable (_ ∧ _))
instance (hdr : Headers) : Decidable hdr.IsRead := inferInstanceAs (Decidable (_ ∧ _))
instance (hdr : Headers) : Decidable hdr.IsTail := inferInstanceAs (Decidable (_ ∧ _))
instance (hdr : Headers) : Decidable hdr.IsView := inferInstanceAs (Decidable (_ ∧ _))
instance (hdr : Headers) : Decidable hdr.IsUnnumbered := inferInstanceAs (Decidable (_ ∧ _))
instance (hdr : Headers) : Decidable hdr.WellFormed := inferInstanceAs (Decidable (_ → _))
instance (hdr : Headers) : Decidable hdr.IsFresh := inferInstanceAs (Decidable (_ ∧ _ ∧ _ ∧ _))
instance (hdr : Headers) : Decidable hdr.Enters := inferInstanceAs (Decidable (_ ∧ _ ∧ _))
instance (hdr : Headers) : Decidable hdr.Sent := inferInstanceAs (Decidable (_ ∨ _))
instance (hdr : Headers) : Decidable hdr.Draws := inferInstanceAs (Decidable (_ ∧ _ ∧ _))

/-! ### Kinds of packets exclude each other -/

variable {hdr : Headers}

theorem IsControl.not_data (h : hdr.IsControl) : hdr.cntrl.isValid ≠ false := by
  intro hn
  rw [IsControl, hn] at h
  cases h

theorem IsControl.not_append (h : hdr.IsControl) : ¬ hdr.IsAppend := fun ha => h.not_data ha.1

theorem IsControl.not_tail (h : hdr.IsControl) : ¬ hdr.IsTail := fun ht => h.not_data ht.1

theorem IsControl.not_draws (h : hdr.IsControl) : ¬ hdr.Draws := fun hd => h.not_data hd.1

theorem IsAppendResp.not_append (h : hdr.IsAppendResp) : ¬ hdr.IsAppend :=
  fun ha => typeResp_ne_append (h.2.symm.trans ha.2)

theorem IsRead.not_append (h : hdr.IsRead) : ¬ hdr.IsAppend :=
  fun ha => typeRead_ne_append (h.2.symm.trans ha.2)

theorem IsRead.not_resp (h : hdr.IsRead) : ¬ hdr.IsAppendResp :=
  fun hr => typeRead_ne_resp (h.2.symm.trans hr.2)

theorem IsTail.not_append (h : hdr.IsTail) : ¬ hdr.IsAppend :=
  fun ha => typeTail_ne_append (h.2.symm.trans ha.2)

theorem IsTail.not_resp (h : hdr.IsTail) : ¬ hdr.IsAppendResp :=
  fun hr => typeTail_ne_resp (h.2.symm.trans hr.2)

theorem not_draws_of_invalid (h : hdr.append.isValid = false) : ¬ hdr.Draws := by
  rintro ⟨-, hv, -⟩
  rw [h] at hv
  cases hv

theorem IsTail.append_invalid (h : hdr.IsTail) (hw : hdr.WellFormed) :
    hdr.append.isValid = false := by
  cases hv : hdr.append.isValid with
  | false => rfl
  | true =>
    rcases (hw h.1).1 hv with ha | hr
    · exact absurd ⟨h.1, ha⟩ h.not_append
    · exact absurd ⟨h.1, hr⟩ h.not_resp

theorem CanCirculate.not_tail (h : hdr.CanCirculate) : ¬ hdr.IsTail := by
  intro htail
  obtain ⟨hw, -, hv⟩ := h
  rw [htail.append_invalid hw] at hv
  cases hv

/-! ### What the parser accepts is well formed -/

theorem IsControl.wellFormed (h : hdr.IsControl) : hdr.WellFormed :=
  fun hn => absurd hn h.not_data

theorem Sent.wellFormed (h : hdr.Sent) : hdr.WellFormed := by
  rcases h with hc | he
  · exact hc.wellFormed
  · exact he.2.1

theorem IsFresh.enters (h : hdr.IsFresh) : hdr.Enters := by
  obtain ⟨⟨hc, ha⟩, hv, -, h0⟩ := h
  exact ⟨hc, fun _ => by simp [ha, hv], fun _ => h0⟩

/-! ## Packets -/

/-- An IP/UDP packet with a ring type. -/
def framed (type : BitVec 16) : Headers where
  ethernet := { isValid := true }
  ipv4 := { isValid := true }
  udp := { isValid := true }
  ringType := { isValid := true, type := type }

def controlPkt (globalSeqNo : BitVec 32) : Headers where
  ethernet := { isValid := true, etherType := typeControl }
  cntrl := { isValid := true, globalSeqNo := globalSeqNo }

/-- What a client sends. -/
def appendPkt : Headers := { framed typeAppend with append := { isValid := true } }

def responsePkt (gIdx : BitVec 32) : Headers :=
  { framed typeAppendResp with append := { isValid := true, gIdx := gIdx } }

def tailPkt : Headers := { framed typeTail with tail := { isValid := true } }

def viewPkt (switchId : BitVec 16) : Headers :=
  { framed typeView with startView := { isValid := true, switchId := switchId } }

example : appendPkt.Parsed := by constructor <;> decide

end Headers

end Pringles.P4
