import Pringles.Software.Client

/-!
# Reads

A read packet has `struct ring_read_entry` behind `struct ring_type`, four bytes less than an append
has. `LogStorage::read_server` puts the entry where the one of an append would be; the switch and the
client take it from where the headers of a read end. In these four bytes the reply has what the
request had there, and that begins with a zero: the client gets the empty string, whatever is stored
(`read_iff`).

Received packets are copied up to the size that their headers claim. What a component reads behind
its copy is the parameter `behind`.
-/

namespace Pringles.Software

open Bytes

/-! ## The request -/

/-- `struct ring_read_entry`. -/
structure RingReadEntry where
  nonce : BitVec 32
  payloadSize : BitVec 32
  streamId : BitVec 32
  gIdx : BitVec 32
  ringView : BitVec 32
  status : BitVec 32
  threadId : BitVec 32
  recvPort : BitVec 16
  clientIp : BitVec 32
  timestamp : BitVec 32
  circs : BitVec 32

/-- There are two bytes between `recv_port` and `client_ip`. -/
def RingReadEntry.bytes (h : RingReadEntry) : List Byte :=
  bytes32 h.nonce ++ bytes32 h.payloadSize ++ bytes32 h.streamId ++ bytes32 h.gIdx ++
    bytes32 h.ringView ++ bytes32 h.status ++ bytes32 h.threadId ++ bytes16 h.recvPort ++ [0, 0] ++
    bytes32 h.clientIp ++ bytes32 h.timestamp ++ bytes32 h.circs

theorem RingReadEntry.length_bytes (h : RingReadEntry) :
    h.bytes.length = sizeofRingReadEntry := by
  simp only [RingReadEntry.bytes, List.length_append, length_bytes16, length_bytes32,
    List.length_cons, List.length_nil, sizeofRingReadEntry]

/-- The fields of a read packet, where its receivers look for them. -/
theorem RingReadEntry.fields (t : RingType) (h : RingReadEntry) (rest : List Byte) :
    ReadEntry.nonce (t.bytes ++ h.bytes ++ rest) = h.nonce ∧
      ReadEntry.gIdx (t.bytes ++ h.bytes ++ rest) = h.gIdx ∧
      ReadEntry.recvPort (t.bytes ++ h.bytes ++ rest) = h.recvPort ∧
      ReadEntry.clientIp (t.bytes ++ h.bytes ++ rest) = h.clientIp := by
  simp only [ReadEntry.nonce, ReadEntry.gIdx, ReadEntry.recvPort, ReadEntry.clientIp,
    sizeofRingType, RingType.bytes, RingReadEntry.bytes, List.append_assoc, List.cons_append,
    List.nil_append]
  simp only [load16_skip16, load16_skip32, load32_skip16, load32_skip32, load32_cons,
    load16_bytes16, load32_bytes32, and_self]

/-- Where the entry of a read begins. -/
def sizeofReadHeaders : Nat := sizeofRingType + sizeofRingReadEntry

namespace LogClient

/-- `read_type_hdr`. -/
def readTypeHdr (c : LogClient) : RingType where
  type := htons ethReadReq
  numEntries := htons 1
  shardId := 0
  cid := htonl (c.cid.truncate 32)
  switchToProcess := 0

/-- `read_entry_hdr`, when the entry `idx` is asked for. `payload_size` stays zero. -/
def readEntryHdr (c : LogClient) (idx : BitVec 64) : RingReadEntry where
  nonce := htonl c.readNonce
  payloadSize := 0
  streamId := c.readStreamId
  gIdx := htonl (idx.truncate 32)
  ringView := htonl (ringView.truncate 32)
  status := htonl 1
  threadId := htonl (c.threadId.truncate 32)
  recvPort := htons c.recvPort
  clientIp := c.selfClientIp
  timestamp := 0
  circs := 0

/-- The packet of `LogClient::read`: the headers, and zeros in the place of the payload. -/
def readPacket (c : LogClient) (idx : BitVec 64) : List Byte :=
  c.readTypeHdr.bytes ++ (c.readEntryHdr idx).bytes ++ List.replicate (c.payloadSize.toNat + 1) 0

end LogClient

/-! ## The components -/

/-- The size of a read packet with one entry, for its receivers. -/
def readPktSize (buf : List Byte) : Nat :=
  sizeofRingType + sizeofRingReadEntry + (ntohl (ReadEntry.payloadSize buf)).toNat + 1

/-- `pkt` in `LogStorage::receiver` and `LogClient::receiver`, and what lies behind it. -/
def receiver (normBuf data behind : List Byte) : List Byte :=
  let buf := recvPacket normBuf data
  buf.take ((ntohs (numEntries buf)).toNat * readPktSize buf) ++ behind

/-- `LogStorage::read_server`, up to the reply. It reads the headers of an append: there is no reply
when the memory does not go that far. -/
def LogStorage.readServer (stor : Stor) (recv : List Byte) : Option (List Byte) :=
  if sizeofHeaders ≤ recv.length then
    let buf := setType recv (htons ethReadResp)
    let entry := get stor (seqNo (ReadEntry.gIdx buf))
    let buf := ReadEntry.setPayloadSize buf (htonl (BitVec.ofNat 32 entry.length))
    some (buf.take sizeofRingType ++ (buf.drop sizeofRingType).take sizeofRingAppendEntry ++
      (entry ++ [0]).take ((ntohl (ReadEntry.payloadSize buf)).toNat + 1))
  else none

namespace LogSoftwareSwitch

/-- `pkt` in `LogSoftwareSwitch::receiver`, for a read response: the number of entries is used as it
lies in memory. -/
def receiver (normBuf data behind : List Byte) : List Byte :=
  let buf := recvPacket normBuf data
  buf.take ((numEntries buf).toNat * readPktSize buf) ++ behind

/-- The loop of `LogSoftwareSwitch::read_response` over the entries of a packet, from the offset
`off` on. -/
def responses (recv : List Byte) : Nat → Nat → List (Address × List Byte)
  | 0, _ => []
  | n + 1, off =>
    let entry := recv.drop off
    let size := readPktSize entry
    (⟨ReadEntry.clientIp entry, ReadEntry.recvPort entry⟩, entry.take size) ::
      responses recv n (off + size)

def readResponse (recv : List Byte) : List (Address × List Byte) :=
  responses (setType recv (ntohs ethReadResp)) (ntohs (numEntries recv)).toNat 0

end LogSoftwareSwitch

/-- What `LogClient::read` returns for the packet, when the packet is the response that it waits
for. -/
def LogClient.readResp (c : LogClient) (recv : List Byte) : Option (List Byte) :=
  if ntohs (load16 recv 0) = ethReadResp ∧ ntohl (ReadEntry.nonce recv) = c.readNonce then
    cstr (recv.drop sizeofReadHeaders)
  else none

/-! ## What the packets have in common

All of it is in the headers of a read and the byte behind them. -/

/-- The headers of a read, and one byte of its payload. -/
def readHead : Nat := sizeofReadHeaders + 1

/-- The packet is about the read of `c`, and its payload begins with a zero. -/
structure AboutRead (c : LogClient) (buf : List Byte) : Prop where
  length : readHead ≤ buf.length
  numEntries : numEntries buf = htons 1
  nonce : ReadEntry.nonce buf = htonl c.readNonce
  recvPort : ReadEntry.recvPort buf = htons c.recvPort
  clientIp : ReadEntry.clientIp buf = c.selfClientIp
  zero : byteAt buf sizeofReadHeaders = 0

variable {c : LogClient} {idx : BitVec 64} {buf buf' data normBuf behind recv reply : List Byte}
  {stor : Stor} {e : List Byte} {k : Nat}

theorem AboutRead.congr (h : AboutRead c buf) (heq : buf'.take readHead = buf.take readHead) :
    AboutRead c buf' where
  length := by
    have hlen := congrArg List.length heq
    rw [List.length_take, List.length_take, Nat.min_eq_left h.length] at hlen
    omega
  numEntries := (load16_of_take_eq heq (by decide)).trans h.numEntries
  nonce := (load32_of_take_eq heq (by decide)).trans h.nonce
  recvPort := (load16_of_take_eq heq (by decide)).trans h.recvPort
  clientIp := (load32_of_take_eq heq (by decide)).trans h.clientIp
  zero := (byteAt_of_take_eq heq (by decide)).trans h.zero

/-- Nothing of it is in the type or in `payload_size`. -/
theorem AboutRead.congr_byteAt (h : AboutRead c buf) (hlen : buf'.length = buf.length)
    (hsame : ∀ i, 2 ≤ i → i < sizeofRingType + 4 ∨ sizeofRingType + 8 ≤ i →
      byteAt buf' i = byteAt buf i) : AboutRead c buf' := by
  have hsize : sizeofRingType = 16 := rfl
  constructor
  · rw [hlen]
    exact h.length
  · rw [← h.numEntries]
    exact load16_congr fun i hi hlt => hsame i hi (by omega)
  · rw [← h.nonce]
    exact load32_congr fun i hi hlt => hsame i (by omega) (.inl hlt)
  · rw [← h.recvPort]
    exact load16_congr fun i hi _ => hsame i (by omega) (by omega)
  · rw [← h.clientIp]
    exact load32_congr fun i hi _ => hsame i (by omega) (by omega)
  · rw [← h.zero]
    have hend : sizeofReadHeaders = 60 := rfl
    exact hsame _ (by omega) (by omega)

theorem AboutRead.setType (h : AboutRead c buf) (v : BitVec 16) : AboutRead c (setType buf v) :=
  h.congr_byteAt (length_store16 _) fun _ hi _ => byteAt_store16_ne (by omega)

theorem AboutRead.setPayloadSize (h : AboutRead c buf) (v : BitVec 32) :
    AboutRead c (ReadEntry.setPayloadSize buf v) :=
  h.congr_byteAt (length_store32 _) fun _ _ hi => byteAt_store32_ne (by omega)

theorem AboutRead.setNumEntries (h : AboutRead c buf) :
    AboutRead c (setNumEntries buf (htons 1)) where
  length := by
    rw [Software.setNumEntries, length_store16]
    exact h.length
  numEntries := load16_store16 (Nat.le_trans (by decide) h.length)
  nonce := (load32_store16_ne (.inr (by decide))).trans h.nonce
  recvPort := (load16_store16_ne (.inr (by decide))).trans h.recvPort
  clientIp := (load32_store16_ne (.inr (by decide))).trans h.clientIp
  zero := (byteAt_store16_ne (.inr (by decide))).trans h.zero

/-! ### Copies -/

theorem readHead_le_readPktSize (buf : List Byte) : readHead ≤ readPktSize buf := by
  rw [readHead, readPktSize, sizeofReadHeaders]
  omega

/-- A copy of a packet has at least its head. -/
theorem take_copy (hlen : readHead ≤ buf.length) (hk : 0 < k) (behind : List Byte) :
    (buf.take (k * readPktSize buf) ++ behind).take readHead = buf.take readHead := by
  have hsize : readHead ≤ k * readPktSize buf :=
    Nat.le_trans (readHead_le_readPktSize buf) (Nat.le_mul_of_pos_left _ hk)
  have hle : readHead ≤ (buf.take (k * readPktSize buf)).length := by
    rw [List.length_take]
    omega
  rw [List.take_append_of_le_length hle, List.take_take, Nat.min_eq_left hsize]

theorem AboutRead.recvPacket (h : AboutRead c data) : AboutRead c (recvPacket normBuf data) :=
  h.congr (take_recvPacket h.length (by decide))

/-- The copy of a receiver has the head of what was sent. -/
theorem AboutRead.take_receiver (h : AboutRead c data) (normBuf behind : List Byte) :
    (Software.receiver normBuf data behind).take readHead = data.take readHead := by
  have hbuf : AboutRead c (Software.recvPacket normBuf data) := h.recvPacket
  have hone : 0 < (ntohs (Software.numEntries (Software.recvPacket normBuf data))).toNat := by
    rw [hbuf.numEntries]
    decide
  rw [Software.receiver, take_copy hbuf.length hone, take_recvPacket h.length (by decide)]

theorem AboutRead.receiver (h : AboutRead c data) : AboutRead c (receiver normBuf data behind) :=
  h.congr (h.take_receiver normBuf behind)

theorem AboutRead.switchReceiver (h : AboutRead c data) :
    AboutRead c (LogSoftwareSwitch.receiver normBuf data behind) := by
  have hbuf : AboutRead c (Software.recvPacket normBuf data) := h.recvPacket
  refine hbuf.congr (take_copy hbuf.length ?_ behind)
  rw [hbuf.numEntries]
  decide

/-! ### Request and response -/

theorem length_readPacket (c : LogClient) (idx : BitVec 64) :
    (c.readPacket idx).length = sizeofReadHeaders + (c.payloadSize.toNat + 1) := by
  rw [LogClient.readPacket, List.length_append, List.length_replicate, List.length_append,
    RingType.length_bytes, RingReadEntry.length_bytes]
  rfl

/-- What follows the headers in a request is zero. -/
theorem aboutRead_readPacket (c : LogClient) (idx : BitVec 64) :
    AboutRead c (c.readPacket idx) where
  length := by
    rw [length_readPacket, readHead]
    omega
  numEntries := by
    rw [LogClient.readPacket, List.append_assoc, RingType.numEntries_bytes]
    rfl
  nonce := (RingReadEntry.fields _ _ _).1
  recvPort := (RingReadEntry.fields _ _ _).2.2.1
  clientIp := (RingReadEntry.fields _ _ _).2.2.2
  zero := by
    have hlen : (c.readTypeHdr.bytes ++ (c.readEntryHdr idx).bytes).length = sizeofReadHeaders := by
      rw [List.length_append, RingType.length_bytes, RingReadEntry.length_bytes]
      rfl
    rw [LogClient.readPacket, ← hlen]
    exact (byteAt_append_right _ 0).trans (byteAt_replicate_zero _ 0)

theorem gIdx_readPacket (c : LogClient) (idx : BitVec 64) :
    ReadEntry.gIdx (c.readPacket idx) = htonl (idx.truncate 32) :=
  (RingReadEntry.fields _ _ _).2.1

/-- The copy of the storage server is about the read, and asks for the entry. -/
theorem aboutRead_request (hreq : (c.readPacket idx).take readHead <+: data) :
    AboutRead c (receiver normBuf data behind) ∧
      ReadEntry.gIdx (receiver normBuf data behind) = htonl (idx.truncate 32) := by
  have hlen := (aboutRead_readPacket c idx).length
  have htake : data.take readHead = (c.readPacket idx).take readHead := by
    obtain ⟨rest, rfl⟩ := hreq
    have hhead : ((c.readPacket idx).take readHead).length = readHead := by
      rw [List.length_take, Nat.min_eq_left hlen]
    exact List.take_left' hhead
  have hdata : AboutRead c data := (aboutRead_readPacket c idx).congr htake
  refine ⟨hdata.receiver, ?_⟩
  rw [← gIdx_readPacket c idx]
  exact load32_of_take_eq ((hdata.take_receiver normBuf behind).trans htake) (by decide)

theorem payloadSize_setPayloadSize (size : BitVec 32) (hlen : sizeofHeaders ≤ recv.length) :
    ntohl (ReadEntry.payloadSize (ReadEntry.setPayloadSize (setType recv (htons ethReadResp))
      (htonl size))) = size := by
  rw [ReadEntry.payloadSize, ReadEntry.setPayloadSize, load32_store32, ntohl_htonl]
  rw [setType, length_store16]
  exact Nat.le_trans (by decide) hlen

/-- The reply has the headers of the request, with the type and the size written into them, and the
entry behind them. -/
theorem readServer_eq_some (hanswer : LogStorage.readServer stor recv = some reply) :
    sizeofHeaders ≤ recv.length ∧ ∃ (size : BitVec 32) (payload : List Byte),
      payload.length = size.toNat + 1 ∧
      reply = (ReadEntry.setPayloadSize (setType recv (htons ethReadResp)) (htonl size)).take
        sizeofHeaders ++ payload := by
  simp only [LogStorage.readServer, Option.ite_none_right_eq_some, Option.some.injEq] at hanswer
  obtain ⟨hlen, rfl⟩ := hanswer
  generalize LogStorage.get stor _ = entry
  have hle : entry.length % 2 ^ 32 ≤ entry.length := Nat.mod_le ..
  refine ⟨hlen, BitVec.ofNat 32 entry.length, _, ?_, congrArg (· ++ _) List.take_add.symm⟩
  rw [payloadSize_setPayloadSize _ hlen, List.length_take, List.length_append,
    List.length_singleton, BitVec.toNat_ofNat]
  exact Nat.min_eq_left (Nat.succ_le_succ hle)

/-- The headers of the reply, as far as a read has them. -/
theorem take_readServer (size : BitVec 32) (payload : List Byte) {n : Nat}
    (hlen : sizeofHeaders ≤ recv.length) (hn : n ≤ sizeofHeaders) :
    ((ReadEntry.setPayloadSize (setType recv (htons ethReadResp)) (htonl size)).take
      sizeofHeaders ++ payload).take n =
        (ReadEntry.setPayloadSize (setType recv (htons ethReadResp)) (htonl size)).take n := by
  rw [List.take_append_of_le_length, List.take_take, Nat.min_eq_left hn]
  rw [List.length_take, ReadEntry.setPayloadSize, length_store32, setType, length_store16]
  exact Nat.le_min.2 ⟨hn, Nat.le_trans hn hlen⟩

/-- The reply has the headers of the request, and the byte behind them. -/
theorem aboutRead_reply (h : AboutRead c recv)
    (hanswer : LogStorage.readServer stor recv = some reply) :
    AboutRead c reply ∧ load16 reply 0 = htons ethReadResp := by
  obtain ⟨hlen, size, payload, -, rfl⟩ := readServer_eq_some hanswer
  have hhead := take_readServer size payload hlen (n := readHead) (by decide)
  have habout : AboutRead c (ReadEntry.setPayloadSize (setType recv (htons ethReadResp))
      (htonl size)) := (h.setType _).setPayloadSize _
  have htype : load16 (ReadEntry.setPayloadSize (setType recv (htons ethReadResp))
      (htonl size)) 0 = htons ethReadResp := by
    rw [ReadEntry.setPayloadSize, load16_store32_ne (.inl (by decide)), setType,
      load16_store16 (Nat.le_trans (by decide) hlen)]
  exact ⟨habout.congr hhead, (load16_of_take_eq hhead (by decide)).trans htype⟩

/-- The client accepts what is about its read, and finds the zero. -/
theorem AboutRead.readResp (h : AboutRead c recv) (htype : load16 recv 0 = htons ethReadResp) :
    c.readResp recv = some [] := by
  have hlt : sizeofReadHeaders < recv.length := h.length
  have hbyte : recv[sizeofReadHeaders] = 0 := by
    rw [← h.zero, byteAt, List.getD_eq_getElem?_getD, List.getElem?_eq_getElem hlt]
    rfl
  have hdrop : recv.drop sizeofReadHeaders = 0 :: recv.drop (sizeofReadHeaders + 1) := by
    rw [List.drop_eq_getElem_cons hlt, hbyte]
  rw [LogClient.readResp, htype, h.nonce, ntohl_htonl, hdrop]
  exact if_pos ⟨by decide, rfl⟩

/-- The client's copy of a response. -/
theorem AboutRead.returned (h : AboutRead c data) (htype : load16 data 0 = htons ethReadResp)
    (normBuf behind : List Byte) : c.readResp (Software.receiver normBuf data behind) = some [] := by
  have htype' : load16 (Software.receiver normBuf data behind) 0 = htons ethReadResp :=
    (load16_of_take_eq (h.take_receiver normBuf behind) (by decide)).trans htype
  exact h.receiver.readResp htype'

/-- The switch passes a reply on to the client, four bytes shorter. -/
theorem AboutRead.passedOn (h : AboutRead c recv) : ∃ resp,
    LogSoftwareSwitch.readResponse recv = [(⟨c.selfClientIp, htons c.recvPort⟩, resp)] ∧
      AboutRead c resp ∧ load16 resp 0 = htons ethReadResp := by
  have hbuf : AboutRead c (Software.setType recv (ntohs ethReadResp)) := h.setType _
  have hone : (ntohs (htons 1)).toNat = 1 := by decide
  have hhead : ((Software.setType recv (ntohs ethReadResp)).take
      (readPktSize (Software.setType recv (ntohs ethReadResp)))).take readHead =
        (Software.setType recv (ntohs ethReadResp)).take readHead := by
    rw [List.take_take, Nat.min_eq_left (readHead_le_readPktSize _)]
  refine ⟨_, ?_, hbuf.congr hhead, ?_⟩
  · rw [LogSoftwareSwitch.readResponse, h.numEntries, hone]
    simp only [LogSoftwareSwitch.responses, List.drop_zero, hbuf.clientIp, hbuf.recvPort]
  · exact (load16_of_take_eq hhead (by decide)).trans
      (load16_store16 (Nat.le_trans (by decide) h.length))

/-! ## What is read -/

theorem some_nil_eq_iff : some ([] : List Byte) = some e ↔ e = [] := by
  rw [Option.some.injEq]
  exact eq_comm

/-- Whatever is stored, the client returns the empty string. -/
theorem read_empty (hreq : (c.readPacket idx).take readHead <+: data)
    (hanswer : LogStorage.readServer stor (receiver normBuf data behind) = some reply) :
    (∀ normBuf behind, c.readResp (receiver normBuf reply behind) = some []) ∧
      ∀ normBuf behind, ∃ resp, LogSoftwareSwitch.readResponse (LogSoftwareSwitch.receiver normBuf
        (setNumEntries reply (htons 1)) behind) = [(⟨c.selfClientIp, htons c.recvPort⟩, resp)] ∧
          ∀ normBuf behind, c.readResp (receiver normBuf resp behind) = some [] := by
  obtain ⟨habout, htype⟩ := aboutRead_reply (aboutRead_request hreq).1 hanswer
  refine ⟨habout.returned htype, ?_⟩
  intro normBuf behind
  have hrecv : AboutRead c (LogSoftwareSwitch.receiver normBuf (setNumEntries reply (htons 1))
      behind) := habout.setNumEntries.switchReceiver
  obtain ⟨resp, hresp, hresp', htype'⟩ := hrecv.passedOn
  exact ⟨resp, hresp, hresp'.returned htype'⟩

/-- **A read returns what is stored exactly when that is the empty string**, over the switch as well
as without it. The server has received the head of the client's packet. -/
theorem read_iff (hreq : (c.readPacket idx).take readHead <+: data)
    (hanswer : LogStorage.readServer stor (receiver normBuf data behind) = some reply) :
    ∀ e, stor (seqNo (htonl (idx.truncate 32))) = some e →
      (∀ normBuf behind, c.readResp (receiver normBuf reply behind) = some e ↔ e = []) ∧
      ∀ normBuf behind, ∃ resp, LogSoftwareSwitch.readResponse (LogSoftwareSwitch.receiver normBuf
        (setNumEntries reply (htons 1)) behind) = [(⟨c.selfClientIp, htons c.recvPort⟩, resp)] ∧
          ∀ normBuf behind, c.readResp (receiver normBuf resp behind) = some e ↔ e = [] := by
  intro e _
  obtain ⟨hdirect, hswitch⟩ := read_empty hreq hanswer
  constructor
  · intro normBuf behind
    rw [hdirect]
    exact some_nil_eq_iff
  · intro normBuf behind
    obtain ⟨resp, hresp, hreturned⟩ := hswitch normBuf behind
    refine ⟨resp, hresp, ?_⟩
    intro normBuf behind
    rw [hreturned]
    exact some_nil_eq_iff

/-- A request that is answered. -/
theorem answered_request (entry : List Byte) : ∃ reply,
    LogStorage.readServer (fun _ => some entry)
      (receiver [] ((LogClient.sampleClient 1).readPacket 1) [0, 0, 0]) = some reply :=
  ⟨_, if_pos (by decide)⟩

/-- The empty string is read. -/
theorem read_iff_empty : ∃ reply, LogStorage.readServer (fun _ => some [])
    (receiver [] ((LogClient.sampleClient 1).readPacket 1) [0, 0, 0]) = some reply ∧
      ∀ normBuf behind,
        (LogClient.sampleClient 1).readResp (receiver normBuf reply behind) = some [] := by
  obtain ⟨reply, hreply⟩ := answered_request []
  refine ⟨reply, hreply, fun normBuf behind => ?_⟩
  exact ((read_iff (List.take_prefix _ _) hreply [] rfl).1 normBuf behind).2 rfl

/-- A string of one character is not. -/
theorem read_loses_entry : ∃ reply, LogStorage.readServer (fun _ => some [65])
    (receiver [] ((LogClient.sampleClient 1).readPacket 1) [0, 0, 0]) = some reply ∧
      ∀ normBuf behind,
        (LogClient.sampleClient 1).readResp (receiver normBuf reply behind) = some [] := by
  obtain ⟨reply, hreply⟩ := answered_request [65]
  exact ⟨reply, hreply, (read_empty (List.take_prefix _ _) hreply).1⟩

end Pringles.Software
