import Pringles.Lib.ByteBits
import Pringles.P4.Packet
import Pringles.Software.Client

/-!
# The append request of the client, as the switch parses it

The client's structs are not the headers of the switch: `ring_type` has a `cid` that `ring_type_t` does
not have, and the fields of `ring_append_entry` are wider than those of `append_entry_t`, so that from
the nonce on the parser reads one field in the place of another. What the client reads back is
shifted in the same way. The two agree when all that is shifted is zero, and never on the number of
an append (`agree_iff`).
-/

namespace Pringles.P4

open Bits (ofBytes hi lo)
open Software (LogClient htonl ntohl htons ntohs)

/-! ## The bits of the request -/

theorem ofBytes_bytes16 (m : BitVec 16) : ofBytes (Bytes.bytes16 m) = Bits.write (ntohs m) := by
  simp only [Bytes.bytes16, ofBytes, List.append_nil]
  exact (Bits.write_append _ _).symm

theorem ofBytes_bytes32 (m : BitVec 32) : ofBytes (Bytes.bytes32 m) = Bits.write (ntohl m) := by
  rw [ntohl, htonl, Bits.write_append, Bits.write_append, Bits.write_append]
  simp only [Bytes.bytes32, ofBytes, List.append_nil, List.append_assoc]

theorem RingType.write_format (h : RingType) : RingType.format.write h =
    Bits.write h.type ++ (Bits.write h.numEntries ++
      (Bits.write h.shardId ++ Bits.write h.switchToProcess)) := rfl

theorem AppendEntry.write_format (h : AppendEntry) : AppendEntry.format.write h =
    Bits.write h.nonce ++ (Bits.write h.payloadSize ++ (Bits.write h.streamId ++
      (Bits.write h.gIdx ++ (Bits.write h.cntrlPktIt ++ (Bits.write h.clientIp ++
        (Bits.write h.recvPort ++ Bits.write h.startTs)))))) := rfl

/-- `ring_type` in the request of `c`: the last word is the `cid`. -/
def requestRingType (c : LogClient) : RingType where
  isValid := true
  type := typeAppend
  numEntries := 1
  shardId := 0
  switchToProcess := c.cid.truncate 32

/-- `append` in the request of `c`. It begins with the `switch_to_process` of the client. -/
def requestAppend (c : LogClient) : AppendEntry where
  isValid := true
  nonce := 0
  payloadSize := hi c.appendNonce
  streamId := lo c.appendNonce ++ hi (c.payloadSize.truncate 32)
  gIdx := lo (c.payloadSize.truncate 32) ++ hi (ntohl c.streamId)
  cntrlPktIt := lo (ntohl c.streamId)
  clientIp := 0
  recvPort := 0
  startTs := (0 : BitVec 16) ++ (LogClient.ringView.truncate 32 : BitVec 32)

theorem request_bits (c : LogClient) (rest : List Byte) : ∃ payload, ofBytes (c.headers ++ rest) =
    RingType.format.write (requestRingType c) ++
      (AppendEntry.format.write (requestAppend c) ++ payload) := by
  refine ⟨ofBytes (Bytes.bytes32 (htonl 1) ++ (Bytes.bytes32 (htonl 1) ++
    (Bytes.bytes32 (htonl (c.threadId.truncate 32)) ++ (Bytes.bytes32 c.selfClientIp ++
      (Bytes.bytes16 (htons c.recvPort) ++ ([0, 0] ++ (Bytes.bytes32 0 ++ rest))))))), ?_⟩
  simp only [RingType.write_format, AppendEntry.write_format, requestRingType, requestAppend,
    Bits.write_append, LogClient.headers, Software.RingType.bytes, Software.RingAppendEntry.bytes,
    LogClient.appendTypeHdr, LogClient.appendEntryHdr, Bits.ofBytes_append, List.append_assoc,
    ofBytes_bytes16, ofBytes_bytes32, Software.ntohl_htonl, Software.ntohs_htons,
    Software.ntohl_zero]
  have hzero : Bits.write (0 : BitVec 32) =
      Bits.write (0 : BitVec 16) ++ Bits.write (0 : BitVec 16) := Bits.write_halves 0
  rw [hzero, Bits.write_halves c.appendNonce, Bits.write_halves (c.payloadSize.truncate 32),
    Bits.write_halves (ntohl c.streamId)]
  simp only [List.append_assoc]
  rfl

/-! ## What the parser makes of it -/

variable {c : LogClient} {rest resp : List Byte} {e : Ethernet} {i : Ipv4} {u : Udp}
  {port : BitVec 9} {p q payload : List Bool}

/-- The headers that `MyParser` finds. -/
def requestHeaders (e : Ethernet) (i : Ipv4) (u : Udp) (c : LogClient) : Headers where
  ethernet := e
  ipv4 := i
  udp := u
  ringType := requestRingType c
  append := requestAppend c

/-- Between the headers of the client's network and its request lies no other header. -/
structure Carried (port : BitVec 9) (e : Ethernet) (i : Ipv4) (u : Udp) : Prop where
  port : port ∉ pktgenPorts
  ethernet : e.isValid = true
  etherType : e.etherType ≠ typeControl
  ipv4 : i.isValid = true
  udp : u.isValid = true

/-- The frame of a UDP datagram. -/
def frame (e : Ethernet) (i : Ipv4) (u : Udp) (data : List Byte) : List Bool :=
  Ethernet.format.write e ++ (Ipv4.format.write i ++ (Udp.format.write u ++ ofBytes data))

/-- A header that was written is extracted. -/
theorem extract_write {α : Type} {f : BitFormat α} {x : α} (hx : f.valid x = true)
    {store : α → Headers → Headers} {next : ParserState} {hdr : Headers} :
    extract f store next hdr (f.write x ++ p) = next (store x hdr) p := by
  rw [extract, BitFormat.read_write hx, Option.bind_some]

theorem selectType_append {onView : ParserState} {hdr : Headers}
    (h : hdr.ringType.type = typeAppend) :
    ParserState.selectType onView hdr = ParserState.parseAppend hdr := by
  unfold ParserState.selectType
  rw [h, if_neg (by decide), if_pos rfl]

theorem parseEthernet_write (onView : ParserState) (h : Carried port e i u) (hdr : Headers) :
    ParserState.parseEthernet onView hdr (Ethernet.format.write e ++ p) =
      ParserState.parseIpv4 onView { hdr with ethernet := e } p := by
  rw [ParserState.parseEthernet, extract_write h.ethernet]
  exact congrFun (if_neg h.etherType) p

theorem parseIpv4_write (onView : ParserState) (h : Carried port e i u) (hdr : Headers) :
    ParserState.parseIpv4 onView hdr (Ipv4.format.write i ++ (Udp.format.write u ++ p)) =
      ParserState.parseRingType onView { hdr with ipv4 := i, udp := u } p := by
  rw [ParserState.parseIpv4, extract_write h.ipv4]
  exact extract_write h.udp

theorem parseRingType_request (onView : ParserState) (c : LogClient) (hdr : Headers) :
    ParserState.parseRingType onView hdr (RingType.format.write (requestRingType c) ++
      (AppendEntry.format.write (requestAppend c) ++ payload)) =
        some ({ hdr with ringType := requestRingType c, append := requestAppend c }, payload) := by
  have hring : RingType.format.valid (requestRingType c) = true := rfl
  have happend : AppendEntry.format.valid (requestAppend c) = true := rfl
  rw [ParserState.parseRingType, extract_write hring, selectType_append (by rfl)]
  exact extract_write happend

theorem parse_request (h : Carried port e i u) (c : LogClient) (rest : List Byte) : ∃ payload,
    MyParser port (frame e i u (c.headers ++ rest)) = some (requestHeaders e i u c, payload) := by
  obtain ⟨payload, hbits⟩ := request_bits c rest
  refine ⟨payload, ?_⟩
  rw [MyParser, if_neg h.port, frame, hbits, parseEthernet_write _ h, parseIpv4_write _ h,
    parseRingType_request]
  rfl

/-! ## What the client reads -/

/-- A number that is written at a byte offset. -/
theorem read_word {v : BitVec 32} {off : Nat} (h : ofBytes resp = p ++ (Bits.write v ++ q))
    (hp : p.length = 8 * off) : ntohl (Bytes.load32 resp off) = v := by
  rw [Software.ntohl_load32, Bits.word_of_bits (Bits.ofBytes_drop h hp)]
  simp only [Bytes.byteAt_drop, Nat.add_zero]

/-- The append header of the request with what the switch writes: a number, and the other fields
that it may set. -/
def written (c : LogClient) (n : BitVec 32) (cntrlPktIt : BitVec 16) (startTs : BitVec 48) :
    AppendEntry :=
  { requestAppend c with gIdx := n, cntrlPktIt := cntrlPktIt, startTs := startTs }

/-- In the place of `g_idx` the client finds `client_ip`, and in the place of the nonce its own. -/
theorem read_written {rt : RingType} (hrt : rt.isValid = true) {n : BitVec 32}
    {cntrlPktIt : BitVec 16} {startTs : BitVec 48}
    (h : ofBytes resp = RingType.format.emit rt ++
      (AppendEntry.format.emit (written c n cntrlPktIt startTs) ++ payload)) :
    ntohl (Software.AppendEntry.gIdx resp) = 0 ∧
      ntohl (Software.AppendEntry.nonce resp) = c.appendNonce := by
  have hvalid : AppendEntry.format.valid (written c n cntrlPktIt startTs) = true := rfl
  rw [BitFormat.emit_valid hrt, BitFormat.emit_valid hvalid, AppendEntry.write_format] at h
  simp only [written, requestAppend, Bits.write_append, List.append_assoc] at h
  constructor
  · refine read_word (p := RingType.format.write rt ++ (Bits.write (0 : BitVec 32) ++
      (Bits.write (hi c.appendNonce) ++ (Bits.write (lo c.appendNonce) ++
        (Bits.write (hi (c.payloadSize.truncate 32)) ++ (Bits.write n ++
          Bits.write cntrlPktIt))))))
      (q := Bits.write (0 : BitVec 16) ++ (Bits.write startTs ++ payload)) ?_ ?_
    · rw [h]
      simp only [List.append_assoc]
    · simp only [List.length_append, Bits.length_write, RingType.format.length_write]
      rfl
  · refine read_word (p := RingType.format.write rt ++ Bits.write (0 : BitVec 32))
      (q := Bits.write (hi (c.payloadSize.truncate 32)) ++ (Bits.write n ++
        (Bits.write cntrlPktIt ++ (Bits.write (0 : BitVec 32) ++ (Bits.write (0 : BitVec 16) ++
          (Bits.write startTs ++ payload)))))) ?_ ?_
    · rw [h, Bits.write_halves c.appendNonce]
      simp only [List.append_assoc]
    · simp only [List.length_append, Bits.length_write, RingType.format.length_write]
      rfl

/-! ## Agreement -/

/-- The headers that the switch has parsed say what the client has written. -/
structure Agrees (c : LogClient) (hdr : Headers) : Prop where
  type : hdr.ringType.type = Software.ethAppendReq
  numEntries : hdr.ringType.numEntries = 1
  shardId : hdr.ringType.shardId = 0
  nonce : hdr.append.nonce = c.appendNonce
  payloadSize : hdr.append.payloadSize.setWidth 32 = c.payloadSize.truncate 32
  streamId : hdr.append.streamId = ntohl c.streamId
  gIdx : hdr.append.gIdx = 0
  clientIp : hdr.append.clientIp = ntohl c.selfClientIp
  recvPort : hdr.append.recvPort = c.recvPort

/-- All that is shifted is zero. -/
structure AllZero (c : LogClient) : Prop where
  nonce : c.appendNonce = 0
  payloadSize : c.payloadSize.truncate 32 = (0 : BitVec 32)
  streamId : c.streamId = 0
  clientIp : c.selfClientIp = 0
  recvPort : c.recvPort = 0

theorem ntohl_eq_zero {x : BitVec 32} : ntohl x = 0 ↔ x = 0 := by
  constructor
  · intro h
    have hx : htonl (ntohl x) = x := Software.ntohl_htonl x
    rw [← hx, h]
    rfl
  · rintro rfl
    rfl

theorem agrees_iff : Agrees c (requestHeaders e i u c) ↔ AllZero c := by
  constructor
  · intro h
    have hnonce : c.appendNonce = 0 := h.nonce.symm
    have hpayload : c.payloadSize.truncate 32 = (0 : BitVec 32) := by
      have hsize := h.payloadSize
      simp only [requestHeaders, requestAppend, hnonce] at hsize
      exact hsize.symm
    have hstream : ntohl c.streamId = 0 := by
      have hid := h.streamId
      simp only [requestHeaders, requestAppend, hnonce, hpayload] at hid
      exact hid.symm
    exact ⟨hnonce, hpayload, ntohl_eq_zero.1 hstream, ntohl_eq_zero.1 h.clientIp.symm,
      h.recvPort.symm⟩
  · rintro ⟨hnonce, hpayload, hstream, hip, hport⟩
    constructor
    · rfl
    · rfl
    · rfl
    · exact hnonce.symm
    · simp only [requestHeaders, requestAppend, hnonce, hpayload]
      rfl
    · simp only [requestHeaders, requestAppend, hnonce, hpayload, hstream]
      rfl
    · simp only [requestHeaders, requestAppend, hpayload, hstream]
      rfl
    · rw [hip]
      rfl
    · exact hport.symm

/-- The client reads back the number and the nonce that the switch has written. -/
def ReadsBack (resp : List Byte) (n nonce : BitVec 32) : Prop :=
  ntohl (Software.AppendEntry.gIdx resp) = n ∧ ntohl (Software.AppendEntry.nonce resp) = nonce

theorem parse_packet (h : Carried port e i u) {entry packet : List Byte}
    (hpacket : c.appendPacket entry = some packet) : ∃ payload,
    MyParser port (frame e i u packet) = some (requestHeaders e i u c, payload) := by
  simp only [LogClient.appendPacket, Option.ite_none_right_eq_some, Option.some.injEq] at hpacket
  obtain ⟨-, rfl⟩ := hpacket
  exact parse_request h c _

/-- **When the two formats agree on an append:** when all that is shifted is zero, and so is the
number that the switch writes. -/
theorem agree_iff (h : Carried port e i u) {entry packet : List Byte}
    (hpacket : c.appendPacket entry = some packet) : ∃ hdr payload,
    MyParser port (frame e i u packet) = some (hdr, payload) ∧
      ∀ rt n cntrlPktIt startTs rest resp, rt.isValid = true →
        ofBytes resp = RingType.format.emit rt ++ (AppendEntry.format.emit
          { hdr.append with gIdx := n, cntrlPktIt := cntrlPktIt, startTs := startTs } ++ rest) →
        (Agrees c hdr ∧ ReadsBack resp n hdr.append.nonce ↔ AllZero c ∧ n = 0) := by
  obtain ⟨payload, hparse⟩ := parse_packet h hpacket
  refine ⟨_, payload, hparse, ?_⟩
  intro rt n cntrlPktIt startTs rest resp hrt hresp
  obtain ⟨hgIdx, hnonce⟩ := read_written hrt hresp
  rw [agrees_iff, ReadsBack, hgIdx, hnonce]
  constructor
  · rintro ⟨hzero, hn, -⟩
    exact ⟨hzero, hn.symm⟩
  · rintro ⟨hzero, hn⟩
    exact ⟨hzero, hn.symm, hzero.nonce⟩

/-! ### Two clients -/

theorem carried_zero : Carried 0 { isValid := true } { isValid := true } { isValid := true } :=
  ⟨by decide, rfl, by decide, rfl, rfl⟩

def zeroClient : LogClient := ⟨0, 0, 0, 0, 0, ⟨0, 0⟩, 0, 0, 0, 0⟩

set_option maxRecDepth 2000 in
/-- A client with nothing but zeros, and no number. -/
theorem agree_zero : ∃ hdr payload, MyParser 0 (frame { isValid := true } { isValid := true }
    { isValid := true } (zeroClient.headers ++ [0])) = some (hdr, payload) ∧
      Agrees zeroClient hdr ∧ ReadsBack (List.replicate 40 0) 0 hdr.append.nonce := by
  have hpacket : zeroClient.appendPacket [] = some (zeroClient.headers ++ [0]) := rfl
  obtain ⟨hdr, payload, hparse, hiff⟩ := agree_iff carried_zero hpacket
  obtain ⟨payload', hparse'⟩ := parse_packet carried_zero hpacket
  obtain ⟨rfl, -⟩ := Prod.mk.inj (Option.some.inj (hparse.symm.trans hparse'))
  refine ⟨_, payload, hparse, (hiff { isValid := true } 0 0 0 [] _ rfl ?_).2 ⟨?_, rfl⟩⟩
  · rfl
  · exact ⟨rfl, rfl, rfl, rfl, rfl⟩

/-- The nonce 1 is parsed as 0, and so is the port 50000. -/
theorem misparsed : ∃ packet hdr payload,
    (LogClient.sampleClient 1).appendPacket [65] = some packet ∧
    MyParser 0 (frame { isValid := true } { isValid := true } { isValid := true } packet) =
      some (hdr, payload) ∧
    (LogClient.sampleClient 1).appendNonce = 1 ∧ hdr.append.nonce = 0 ∧
    (LogClient.sampleClient 1).recvPort = 50000 ∧ hdr.append.recvPort = 0 ∧
    ¬ Agrees (LogClient.sampleClient 1) hdr := by
  have hpacket : (LogClient.sampleClient 1).appendPacket [65] =
      some ((LogClient.sampleClient 1).headers ++ [65, 0]) := rfl
  obtain ⟨payload, hparse⟩ := parse_packet carried_zero hpacket
  refine ⟨_, _, payload, hpacket, hparse, rfl, rfl, rfl, rfl, ?_⟩
  intro hagrees
  exact absurd (agrees_iff.1 hagrees).nonce (by decide)

end Pringles.P4
