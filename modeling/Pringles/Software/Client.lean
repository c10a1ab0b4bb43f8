import Pringles.Software.AppendRequest
import Pringles.Software.Storage

/-!
# The append request of the client

`LogClient::append` sends `payload_size + 1` bytes from the entry on, whatever the length of the entry
is: of a shorter one it reads behind the terminator, and of a longer one it sends neither the rest
nor a terminator. The software switch numbers the request, and the storage server stores the C
string that it finds behind the headers. That one is the entry exactly when the entry has
`payload_size` bytes and no zero, or when what the slot still holds happens to complete it
(`appended_iff`).
-/

namespace Pringles.Software

open Bytes

/-! ## The headers, as they lie in memory -/

/-- `struct ring_type`. -/
structure RingType where
  type : BitVec 16
  numEntries : BitVec 16
  shardId : BitVec 32
  cid : BitVec 32
  switchToProcess : BitVec 32

def RingType.bytes (h : RingType) : List Byte :=
  bytes16 h.type ++ bytes16 h.numEntries ++ bytes32 h.shardId ++ bytes32 h.cid ++
    bytes32 h.switchToProcess

/-- `struct ring_append_entry`. -/
structure RingAppendEntry where
  nonce : BitVec 32
  payloadSize : BitVec 32
  streamId : BitVec 32
  gIdx : BitVec 32
  batchSize : BitVec 32
  ringView : BitVec 32
  status : BitVec 32
  cntrlPktIt : BitVec 32
  threadId : BitVec 32
  clientIp : BitVec 32
  recvPort : BitVec 16
  timestamp : BitVec 32

/-- There are two bytes between `recv_port` and `timestamp`, so that the latter is aligned. -/
def RingAppendEntry.bytes (h : RingAppendEntry) : List Byte :=
  bytes32 h.nonce ++ bytes32 h.payloadSize ++ bytes32 h.streamId ++ bytes32 h.gIdx ++
    bytes32 h.batchSize ++ bytes32 h.ringView ++ bytes32 h.status ++ bytes32 h.cntrlPktIt ++
    bytes32 h.threadId ++ bytes32 h.clientIp ++ bytes16 h.recvPort ++ [0, 0] ++ bytes32 h.timestamp

theorem RingType.length_bytes (h : RingType) : h.bytes.length = sizeofRingType := rfl

theorem RingAppendEntry.length_bytes (h : RingAppendEntry) :
    h.bytes.length = sizeofRingAppendEntry := by
  simp only [RingAppendEntry.bytes, List.length_append, length_bytes16, length_bytes32,
    List.length_cons, List.length_nil, sizeofRingAppendEntry]

theorem RingType.numEntries_bytes (h : RingType) (rest : List Byte) :
    Software.numEntries (h.bytes ++ rest) = h.numEntries := by
  simp only [RingType.bytes, List.append_assoc]
  exact (load16_skip16 h.type _ 0).trans (load16_bytes16 h.numEntries _)

/-! ## The client -/

/-- What `LogClient` has in its configuration and its counters. `streamId` and `readStreamId` are
what `append_stream` and `read_stream` have left in the headers, zero at first. -/
structure LogClient where
  payloadSize : BitVec 64
  cid : BitVec 64
  threadId : BitVec 64
  recvPort : BitVec 16
  selfClientIp : BitVec 32
  switchAddr : Address
  appendNonce : BitVec 32
  streamId : BitVec 32
  readNonce : BitVec 32
  readStreamId : BitVec 32

namespace LogClient

def ringView : BitVec 64 := 1

/-- `append_type_hdr`. -/
def appendTypeHdr (c : LogClient) : RingType where
  type := htons ethAppendReq
  numEntries := htons 1
  shardId := 0
  cid := htonl (c.cid.truncate 32)
  switchToProcess := 0

/-- `append_entry_hdr`, when a request is built. -/
def appendEntryHdr (c : LogClient) : RingAppendEntry where
  nonce := htonl c.appendNonce
  payloadSize := htonl (c.payloadSize.truncate 32)
  streamId := c.streamId
  gIdx := 0
  batchSize := 0
  ringView := htonl (ringView.truncate 32)
  status := htonl 1
  cntrlPktIt := htonl 1
  threadId := htonl (c.threadId.truncate 32)
  clientIp := c.selfClientIp
  recvPort := htons c.recvPort
  timestamp := 0

def headers (c : LogClient) : List Byte := c.appendTypeHdr.bytes ++ c.appendEntryHdr.bytes

/-- The packet that `append` builds. There is none when it would read behind the terminator of the
entry. -/
def appendPacket (c : LogClient) (entry : List Byte) : Option (List Byte) :=
  let n := (c.payloadSize + 1).toNat
  if n ≤ (entry ++ [0]).length then some (c.headers ++ (entry ++ [0]).take n) else none

def allocatedPacketSize (c : LogClient) : BitVec 64 :=
  BitVec.ofNat 64 (sizeofRingType + sizeofRingAppendEntry) + c.payloadSize + 1

/-- `LogClient::append`, up to the request. -/
def append (c : LogClient) (entry : List Byte) : Option Sent := do
  let packet ← c.appendPacket entry
  sendto c.switchAddr packet c.allocatedPacketSize.toNat

/-- The request arrives at the storage server over a thread of the switch, with the buffer `normBuf`,
and the server stores the entry under the number that the thread has stamped on it. -/
def Appends (c : LogClient) (entry normBuf : List Byte) (maxIdx : BitVec 64) (stor : Address)
    (slot : Slot) (s : Stor) : Prop :=
  ∃ sent data sent' data' s' slot', c.append entry = some sent ∧ sent.Brings data ∧
    (LogSoftwareSwitch.appendRequest true normBuf ⟨data, maxIdx, stor⟩).2 = some sent' ∧
    sent'.Brings data' ∧
    LogStorage.appendServer s (slot.recv ⟨c.switchAddr, data'⟩) = some (s', slot') ∧
    s' (seqNo (htonl (maxIdx.truncate 32))) = some entry

variable (c : LogClient) {entry normBuf rest : List Byte} {maxIdx : BitVec 64}
  {stor : Address} {slot : Slot} {s : Stor}

theorem length_headers : c.headers.length = sizeofHeaders := by
  rw [headers, List.length_append, RingType.length_bytes, RingAppendEntry.length_bytes]
  rfl

theorem payloadSize_headers (rest : List Byte) :
    AppendEntry.payloadSize (c.headers ++ rest) = htonl (c.payloadSize.truncate 32) := by
  simp only [AppendEntry.payloadSize, sizeofRingType, headers, RingType.bytes,
    RingAppendEntry.bytes, List.append_assoc]
  simp only [load32_skip16, load32_skip32, load32_bytes32]
  rfl

/-! ### A request of ordinary size -/

/-- The size of the packet, when nothing overflows. -/
def packetSize (c : LogClient) : Nat := sizeofHeaders + c.payloadSize.toNat + 1

/-- The packet of an entry that is long enough. -/
def packet (c : LogClient) (entry : List Byte) : List Byte :=
  c.headers ++ (entry ++ [0]).take (c.payloadSize.toNat + 1)

theorem length_packet (h : c.payloadSize.toNat ≤ entry.length) :
    (c.packet entry).length = c.packetSize := by
  rw [packet, List.length_append, length_headers, List.length_take, List.length_append,
    List.length_singleton, packetSize]
  omega

variable (hfits : c.packetSize ≤ maxPacketSize)
include hfits

theorem toNat_succ : (c.payloadSize + 1).toNat = c.payloadSize.toNat + 1 := by
  have hmax : maxPacketSize = 8192 := rfl
  have hsize : c.packetSize = sizeofHeaders + c.payloadSize.toNat + 1 := rfl
  have hone : (1 : BitVec 64).toNat = 1 := rfl
  rw [BitVec.toNat_add, hone]
  omega

theorem toNat_allocatedPacketSize : c.allocatedPacketSize.toNat = c.packetSize := by
  have hmax : maxPacketSize = 8192 := rfl
  have hsize : c.packetSize = 64 + c.payloadSize.toNat + 1 := rfl
  have hheaders : (BitVec.ofNat 64 (sizeofRingType + sizeofRingAppendEntry)).toNat = 64 := rfl
  have hone : (1 : BitVec 64).toNat = 1 := rfl
  rw [allocatedPacketSize, BitVec.toNat_add, BitVec.toNat_add, hheaders, hone]
  omega

theorem append_eq_some (h : c.payloadSize.toNat ≤ entry.length) :
    c.append entry = some ⟨c.switchAddr, c.packetSize, c.packet entry⟩ := by
  have hmax : c.packetSize ≤ maxUdpPayload := Nat.le_trans hfits (by decide)
  have hn : c.payloadSize.toNat + 1 ≤ (entry ++ [0]).length := by
    rw [List.length_append, List.length_singleton]
    omega
  have hpacket : c.appendPacket entry = some (c.packet entry) := by
    rw [appendPacket, toNat_succ c hfits]
    exact if_pos hn
  have htake : (c.packet entry).take c.packetSize = c.packet entry :=
    List.take_of_length_le (Nat.le_of_eq (length_packet c h))
  rw [append, hpacket, Option.bind_eq_bind, Option.bind_some, toNat_allocatedPacketSize c hfits,
    sendto, if_pos hmax, htake]

/-- The headers claim the size that the packet has. -/
theorem pktSize_packet (entry : List Byte) :
    LogSoftwareSwitch.pktSize (c.packet entry) = c.packetSize := by
  have hmax : maxPacketSize = 8192 := rfl
  have hsize : c.packetSize = 64 + c.payloadSize.toNat + 1 := rfl
  rw [LogSoftwareSwitch.pktSize, packet, payloadSize_headers, ntohl_htonl,
    BitVec.truncate_eq_setWidth, BitVec.toNat_setWidth, Nat.mod_eq_of_lt (by omega)]
  rfl

/-- The switch forwards the packet with the number on it, and nothing else. -/
theorem forwarded_packet (h : c.payloadSize.toNat ≤ entry.length) :
    (LogSoftwareSwitch.appendRequest true normBuf ⟨c.packet entry, maxIdx, stor⟩).2 =
      some ⟨stor, c.packetSize,
        AppendEntry.setGIdx (c.packet entry) (htonl (maxIdx.truncate 32))⟩ := by
  have hlen := length_packet c h
  have hmax : c.packetSize ≤ maxUdpPayload := Nat.le_trans hfits (by decide)
  have hle : (c.packet entry).length ≤ maxPacketSize := by rwa [hlen]
  have hsize : LogSoftwareSwitch.pktSize (c.packet entry) ≤ (c.packet entry).length := by
    rw [pktSize_packet c hfits, hlen]
  rw [LogSoftwareSwitch.appendRequest_of_le (r := ⟨c.packet entry, maxIdx, stor⟩) hle hsize]
  simp only [LogSoftwareSwitch.appendRequest, LogSoftwareSwitch.route, if_true]
  rw [LogSoftwareSwitch.pktSize_setGIdx, recvPacket_eq hle, List.drop_nil,
    List.append_nil, pktSize_packet c hfits, sendto, if_pos hmax, List.take_of_length_le]
  rw [LogSoftwareSwitch.length_setGIdx, hlen]

/-- What the slot of the server holds behind the headers. -/
theorem drop_recv_packet (h : c.payloadSize.toNat ≤ entry.length) (hslot : slot.Ready)
    (v : BitVec 32) (addr : Address) :
    (slot.recv ⟨addr, AppendEntry.setGIdx (c.packet entry) v⟩).buf.drop sizeofHeaders =
      (entry ++ [0]).take (c.payloadSize.toNat + 1) ++ slot.buf.drop c.packetSize := by
  have hlen := length_packet c h
  have htake : (AppendEntry.setGIdx (c.packet entry) v).take slot.iovLen =
      AppendEntry.setGIdx (c.packet entry) v := by
    refine List.take_of_length_le ?_
    rwa [LogSoftwareSwitch.length_setGIdx, hlen, hslot.iovLen]
  have hheaders : sizeofHeaders ≤ (AppendEntry.setGIdx (c.packet entry) v).length := by
    rw [LogSoftwareSwitch.length_setGIdx, hlen, packetSize]
    omega
  simp only [Slot.recv, htake]
  rw [List.drop_append_of_le_length hheaders, LogSoftwareSwitch.length_setGIdx, hlen,
    AppendEntry.setGIdx, drop_store32 (by decide), packet, List.drop_left' (length_headers c)]

omit hfits in
/-- The number that the slot holds. -/
theorem gIdx_recv_packet (h : c.payloadSize.toNat ≤ entry.length) (hslot : slot.Ready)
    (v : BitVec 32) (addr : Address) :
    AppendEntry.gIdx (slot.recv ⟨addr, AppendEntry.setGIdx (c.packet entry) v⟩).buf = v := by
  have hlen := length_packet c h
  have hheaders : sizeofHeaders ≤ (c.packet entry).length := by
    rw [hlen, packetSize]
    omega
  rw [(Slot.sameHeaders_recv hslot (by rwa [LogSoftwareSwitch.length_setGIdx])).gIdx]
  exact load32_store32 (Nat.le_trans (by decide) hheaders)

/-- The server stores the entry when it finds it behind the headers. -/
theorem appendServer_packet_iff (h : c.payloadSize.toNat ≤ entry.length) (hslot : slot.Ready)
    (v : BitVec 32) (addr : Address) (hfresh : s (seqNo v) = none) :
    (∃ s' slot', LogStorage.appendServer s
      (slot.recv ⟨addr, AppendEntry.setGIdx (c.packet entry) v⟩) = some (s', slot') ∧
        s' (seqNo v) = some entry) ↔
    Terminated entry ((entry ++ [0]).take (c.payloadSize.toNat + 1) ++
      slot.buf.drop c.packetSize) := by
  have hgIdx := gIdx_recv_packet c h hslot v addr
  rw [← hgIdx] at hfresh
  have hiff := @LogStorage.appendServer_stores_iff s entry _ hfresh
  rwa [hgIdx, drop_recv_packet c hfits h hslot v addr] at hiff

omit hfits

/-! ### When the entry is stored -/

/-- The entry has no zero, `payload_size` bytes at least, and fits in a slot; if it has more, what
the slot still holds behind the request completes it. -/
structure Fits (entry : List Byte) (slot : Slot) : Prop where
  payloadSize : c.payloadSize.toNat ≤ entry.length
  zero : 0 ∉ entry
  packetSize : c.packetSize ≤ maxPacketSize
  rest : entry.length = c.payloadSize.toNat ∨
    entry.drop (c.payloadSize.toNat + 1) ++ [0] <+: slot.buf.drop c.packetSize

/-- Behind the bytes that were sent, the rest of the entry is to be found. -/
theorem rest_iff (h : c.payloadSize.toNat ≤ entry.length) :
    (entry ++ [0]).drop (c.payloadSize.toNat + 1) <+: slot.buf.drop c.packetSize ↔
      (entry.length = c.payloadSize.toNat ∨
        entry.drop (c.payloadSize.toNat + 1) ++ [0] <+: slot.buf.drop c.packetSize) := by
  by_cases heq : entry.length = c.payloadSize.toNat
  · have hnil : (entry ++ [0]).drop (c.payloadSize.toNat + 1) = [] := by
      refine List.drop_eq_nil_of_le ?_
      rw [List.length_append, List.length_singleton, heq]
    rw [hnil]
    exact iff_of_true List.nil_prefix (.inl heq)
  · rw [List.drop_append_of_le_length (by omega)]
    exact (or_iff_right heq).symm

/-- The largest `payload_size` makes a request without an entry, and its headers claim more than the
switch can send. -/
theorem not_forwarded (hwrap : c.payloadSize = BitVec.allOnes 64) {sent : Sent} {data : List Byte}
    (hsendto : sendto c.switchAddr (c.headers ++ (entry ++ [0]).take (c.payloadSize + 1).toNat)
      c.allocatedPacketSize.toNat = some sent) (hdata : sent.Brings data) :
    (LogSoftwareSwitch.appendRequest true normBuf ⟨data, maxIdx, stor⟩).2 = none := by
  have hn : (c.payloadSize + 1).toNat = 0 := by
    rw [hwrap]
    rfl
  have halloc : c.allocatedPacketSize.toNat = sizeofHeaders := by
    rw [allocatedPacketSize, hwrap]
    rfl
  rw [hn, halloc, List.take_zero, List.append_nil, sendto, if_pos (by decide),
    List.take_of_length_le (Nat.le_of_eq (length_headers c)), Option.some.injEq] at hsendto
  subst hsendto
  obtain rfl := (Sent.brings_iff (by exact length_headers c)).1 hdata
  have hsize := payloadSize_headers c []
  rw [List.append_nil, hwrap] at hsize
  refine LogSoftwareSwitch.appendRequest_of_lt (r := ⟨c.headers, maxIdx, stor⟩) ?_ ?_
  · change c.headers.length ≤ maxPacketSize
    rw [length_headers]
    decide
  · change maxUdpPayload < LogSoftwareSwitch.pktSize c.headers
    rw [LogSoftwareSwitch.pktSize, hsize, ntohl_htonl]
    decide

/-- A stored entry fits in the slot of the server, and the request was built without reading behind
it: no size has overflowed. -/
theorem Appends.packetSize_le (h : c.Appends entry normBuf maxIdx stor slot s) (hslot : slot.Ready)
    (hfresh : s (seqNo (htonl (maxIdx.truncate 32))) = none) :
    c.payloadSize.toNat ≤ entry.length ∧ c.packetSize ≤ maxPacketSize := by
  obtain ⟨sent, data, sent', data', s', slot', hsent, hdata, hsent', hdata', hserve, hentry⟩ := h
  obtain ⟨string, hterm, heq⟩ := LogStorage.appendServer_eq_some.1 hserve
  obtain ⟨rfl, -⟩ := Prod.mk.inj heq
  rw [LogStorage.store_of_none hfresh hentry] at hterm
  have hlen := hterm.length_lt
  rw [List.length_drop, Slot.length_recv hslot] at hlen
  have hmax : maxPacketSize = 8192 := rfl
  have hheaders : sizeofHeaders = 64 := rfl
  have hsize : c.packetSize = sizeofHeaders + c.payloadSize.toNat + 1 := rfl
  rw [append, Option.bind_eq_bind, Option.bind_eq_some_iff] at hsent
  obtain ⟨packet, hpacket, hsendto⟩ := hsent
  simp only [appendPacket, Option.ite_none_right_eq_some, Option.some.injEq, List.length_append,
    List.length_singleton] at hpacket
  obtain ⟨hn, rfl⟩ := hpacket
  by_cases hwrap : c.payloadSize = BitVec.allOnes 64
  · rw [not_forwarded c hwrap hsendto hdata] at hsent'
    cases hsent'
  · have hne : c.payloadSize.toNat ≠ 2 ^ 64 - 1 := by
      intro heq
      exact hwrap (BitVec.eq_of_toNat_eq heq)
    have hone : (1 : BitVec 64).toNat = 1 := rfl
    have hlt := c.payloadSize.isLt
    rw [BitVec.toNat_add, hone, Nat.mod_eq_of_lt (by omega)] at hn
    omega

/-- **When the client's entry is what is stored.** -/
theorem appended_iff (c : LogClient) (entry normBuf : List Byte) (maxIdx : BitVec 64)
    (stor : Address) (hslot : slot.Ready)
    (hfresh : s (seqNo (htonl (maxIdx.truncate 32))) = none) :
    c.Appends entry normBuf maxIdx stor slot s ↔ c.Fits entry slot := by
  constructor
  · intro h
    obtain ⟨hle, hfits⟩ := h.packetSize_le c hslot hfresh
    obtain ⟨sent, data, sent', data', s', slot', hsent, hdata, hsent', hdata', hserve, hentry⟩ := h
    rw [append_eq_some c hfits hle, Option.some.injEq] at hsent
    subst hsent
    obtain rfl := (Sent.brings_iff (by exact length_packet c hle)).1 hdata
    rw [forwarded_packet c hfits hle, Option.some.injEq] at hsent'
    subst hsent'
    obtain rfl := (Sent.brings_iff (by
      rw [LogSoftwareSwitch.length_setGIdx, length_packet c hle])).1 hdata'
    have hterm := (appendServer_packet_iff c hfits hle hslot _ _ hfresh).1
      ⟨s', slot', hserve, hentry⟩
    rw [terminated_take_append, rest_iff c hle] at hterm
    exact ⟨hle, hterm.1, hfits, hterm.2⟩
  · intro h
    have hterm : Terminated entry ((entry ++ [0]).take (c.payloadSize.toNat + 1) ++
        slot.buf.drop c.packetSize) := by
      rw [terminated_take_append, rest_iff c h.payloadSize]
      exact ⟨h.zero, h.rest⟩
    obtain ⟨s', slot', hserve, hentry⟩ := (appendServer_packet_iff c h.packetSize h.payloadSize
      hslot _ c.switchAddr hfresh).2 hterm
    refine ⟨_, _, _, _, s', slot', append_eq_some c h.packetSize h.payloadSize,
      (Sent.brings_iff ?_).2 rfl, forwarded_packet c h.packetSize h.payloadSize,
      (Sent.brings_iff ?_).2 rfl, hserve, hentry⟩
    · exact length_packet c h.payloadSize
    · rw [LogSoftwareSwitch.length_setGIdx, length_packet c h.payloadSize]

def sampleClient (payloadSize : BitVec 64) : LogClient :=
  ⟨payloadSize, 1, 0, 50000, 0x0100000a, ⟨0x0200000a, 0x68ea⟩, 1, 0, 1, 0⟩

def zeroSlot : Slot := ⟨List.replicate maxPacketSize 0, ⟨0, 0⟩, 0, maxPacketSize⟩

theorem ready_zeroSlot : zeroSlot.Ready := ⟨List.length_replicate, rfl⟩

/-- An entry of one character, when one is configured. -/
theorem appended_one : (sampleClient 1).Appends [65] [] 1 ⟨1, 1⟩ zeroSlot fun _ => none :=
  (appended_iff _ _ _ _ _ ready_zeroSlot rfl).2 ⟨by decide, by decide, by decide, .inl rfl⟩

/-- The same entry, when two are configured: `memcpy` reads behind its terminator. -/
theorem reads_behind_entry : (sampleClient 2).appendPacket [65] = none ∧
    ¬ (sampleClient 2).Appends [65] [] 1 ⟨1, 1⟩ zeroSlot fun _ => none := by
  refine ⟨by decide, ?_⟩
  rintro ⟨sent, data, sent', data', s', slot', hsent, -⟩
  cases hsent

end LogClient

end Pringles.Software
