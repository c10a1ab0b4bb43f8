import Pringles.Software.AppendNonce
import Pringles.Software.AppendResponse

/-!
# The messages of an append

An append travels as the request of a client, as the copies that the switch numbers and sends to the
storage servers, as the acknowledgements of these, and as the response to the client. Each of them is
the one before with one field written. This module says what the switch, a server and the client
make of what they receive, when the client's entries have the size that is configured.
-/

namespace Pringles.Software

open Bytes

/-! ## What is sent -/

namespace LogClient

/-- The client at its call number `k`. -/
def atCall (c : LogClient) (k : Nat) : LogClient :=
  { c with appendNonce := c.appendNonce + BitVec.ofNat 32 k }

/-- Where the client receives responses. -/
def addr (c : LogClient) : Address := ⟨c.selfClientIp, htons c.recvPort⟩

/-- An entry that `append` sends as it is. -/
structure Sends (c : LogClient) (e : List Byte) : Prop where
  length : e.length = c.payloadSize.toNat
  zero : 0 ∉ e

/-- The request of the call number `k`. -/
def request (c : LogClient) (k : Nat) (e : List Byte) : List Byte := (c.atCall k).packet e

end LogClient

/-- The request `buf` with its number. -/
def numbered (buf : List Byte) (n : Nat) : List Byte :=
  AppendEntry.setGIdx buf (htonl (BitVec.ofNat 32 n))

/-- What a server and the switch make of it. -/
def acked (buf : List Byte) (n : Nat) : List Byte := setType (numbered buf n) (htons ethAppendResp)

variable {c : LogClient} {k n : Nat} {e buf d : List Byte} {normBuf : List Byte} {a stor : Address}
  {slot : Slot} {s : Stor} {ackThreshold : BitVec 64} {ackMap : AckMap}

@[simp] theorem length_numbered (buf : List Byte) (n : Nat) :
    (numbered buf n).length = buf.length := length_store32 _

@[simp] theorem length_acked (buf : List Byte) (n : Nat) : (acked buf n).length = buf.length := by
  rw [acked, setType, length_store16, length_numbered]

theorem seqNo_htonl_ofNat (hn : n < 2 ^ 32) :
    seqNo (htonl (BitVec.ofNat 32 n)) = BitVec.ofNat 64 n := by
  rw [seqNo, ntohl_htonl]
  refine BitVec.eq_of_toNat_eq ?_
  rw [BitVec.toNat_setWidth, BitVec.toNat_ofNat, BitVec.toNat_ofNat]
  omega

theorem gIdx_numbered (h : sizeofHeaders ≤ buf.length) (n : Nat) :
    AppendEntry.gIdx (numbered buf n) = htonl (BitVec.ofNat 32 n) :=
  load32_store32 (Nat.le_trans (by decide) h)

theorem sameHeaders_acked (buf : List Byte) (n : Nat) :
    SameHeaders (acked buf n) (numbered buf n) := SameHeaders.setType _ _

/-- The number that a copy or an acknowledgement is about. -/
theorem seqNo_numbered (h : sizeofHeaders ≤ buf.length) (hn : n < 2 ^ 32) (a : Address) :
    (⟨a, numbered buf n⟩ : Datagram).seqNo = BitVec.ofNat 64 n := by
  rw [Datagram.seqNo, gIdx_numbered h, seqNo_htonl_ofNat hn]

theorem seqNo_acked (h : sizeofHeaders ≤ buf.length) (hn : n < 2 ^ 32) (a : Address) :
    (⟨a, acked buf n⟩ : Datagram).seqNo = BitVec.ofNat 64 n := by
  rw [Datagram.seqNo, (sameHeaders_acked buf n).gIdx, gIdx_numbered h, seqNo_htonl_ofNat hn]

/-- Neither the number nor the type is in the other fields. -/
theorem clientIp_acked (buf : List Byte) (n : Nat) :
    AppendEntry.clientIp (acked buf n) = AppendEntry.clientIp buf := by
  rw [(sameHeaders_acked buf n).clientIp]
  exact load32_store32_ne (.inr (by decide))

theorem recvPort_acked (buf : List Byte) (n : Nat) :
    AppendEntry.recvPort (acked buf n) = AppendEntry.recvPort buf := by
  rw [(sameHeaders_acked buf n).recvPort]
  exact load16_store32_ne (.inr (by decide))

theorem nonce_acked (buf : List Byte) (n : Nat) :
    AppendEntry.nonce (acked buf n) = AppendEntry.nonce buf :=
  (load32_store16_ne (.inr (by decide))).trans (load32_store32_ne (.inl (by decide)))

theorem numEntries_acked (buf : List Byte) (n : Nat) : numEntries (acked buf n) = numEntries buf :=
  (load16_store16_ne (.inr (by decide))).trans (load16_store32_ne (.inl (by decide)))

theorem setType_setType (buf : List Byte) (v v' : BitVec 16) :
    setType (setType buf v) v' = setType buf v' := by
  simp only [setType, store16]
  rw [List.set_comm _ _ (by decide : 0 + 1 ≠ 0), List.set_set, List.set_set]

/-! ## The client's request -/

namespace LogClient

theorem fields_headers (c : LogClient) (rest : List Byte) :
    numEntries (c.headers ++ rest) = htons 1 ∧
      AppendEntry.nonce (c.headers ++ rest) = htonl c.appendNonce ∧
      AppendEntry.clientIp (c.headers ++ rest) = c.selfClientIp ∧
      AppendEntry.recvPort (c.headers ++ rest) = htons c.recvPort := by
  refine ⟨?_, ?_, ?_, ?_⟩
  · rw [headers, List.append_assoc, RingType.numEntries_bytes]
    rfl
  · simp only [AppendEntry.nonce, sizeofRingType, headers, RingType.bytes, RingAppendEntry.bytes,
      List.append_assoc, load32_skip16, load32_skip32, load32_bytes32]
    rfl
  · simp only [AppendEntry.clientIp, sizeofRingType, headers, RingType.bytes,
      RingAppendEntry.bytes, List.append_assoc, load32_skip16, load32_skip32, load32_bytes32]
    rfl
  · simp only [AppendEntry.recvPort, sizeofRingType, headers, RingType.bytes,
      RingAppendEntry.bytes, List.append_assoc, load16_skip16, load16_skip32, load16_bytes16]
    rfl

theorem Sends.le (h : c.Sends e) : c.payloadSize.toNat ≤ e.length := Nat.le_of_eq h.length.symm

theorem length_request (h : c.Sends e) (k : Nat) : (c.request k e).length = c.packetSize :=
  length_packet (c.atCall k) h.le

theorem sizeofHeaders_le_request (h : c.Sends e) (k : Nat) :
    sizeofHeaders ≤ (c.request k e).length := by
  rw [length_request h, packetSize]
  omega

theorem nonce_request (c : LogClient) (k : Nat) (e : List Byte) :
    AppendEntry.nonce (c.request k e) = htonl (c.appendNonce + BitVec.ofNat 32 k) :=
  (fields_headers (c.atCall k) _).2.1

/-- The response to the request goes to the client. -/
theorem addr_request (c : LogClient) (k : Nat) (e : List Byte) :
    (⟨AppendEntry.clientIp (c.request k e), AppendEntry.recvPort (c.request k e)⟩ : Address) =
      c.addr := by
  obtain ⟨-, -, hip, hport⟩ := fields_headers (c.atCall k) ((e ++ [0]).take
    ((c.atCall k).payloadSize.toNat + 1))
  rw [request, packet, hip, hport]
  rfl

theorem append_request (h : c.Sends e) (hfits : c.packetSize ≤ maxPacketSize) (k : Nat) :
    (c.atCall k).append e = some ⟨c.switchAddr, c.packetSize, c.request k e⟩ :=
  append_eq_some (c.atCall k) hfits h.le

end LogClient

/-! ## The switch numbers a request -/

theorem LogSoftwareSwitch.appendRequest_request (h : c.Sends e)
    (hfits : c.packetSize ≤ maxPacketSize) (normBuf : List Byte) (n : Nat) (stor : Address) :
    (appendRequest true normBuf ⟨c.request k e, BitVec.ofNat 64 n, stor⟩).2 =
      some ⟨stor, c.packetSize, numbered (c.request k e) n⟩ := by
  have htruncate : (BitVec.ofNat 64 n).truncate 32 = BitVec.ofNat 32 n := by
    refine BitVec.eq_of_toNat_eq ?_
    rw [BitVec.truncate_eq_setWidth, BitVec.toNat_setWidth, BitVec.toNat_ofNat, BitVec.toNat_ofNat]
    omega
  have hforward : (appendRequest true normBuf ⟨c.request k e, BitVec.ofNat 64 n, stor⟩).2 =
      some ⟨stor, c.packetSize,
        AppendEntry.setGIdx (c.request k e) (htonl ((BitVec.ofNat 64 n).truncate 32))⟩ :=
    LogClient.forwarded_packet (c.atCall k) hfits h.le
  rw [htruncate] at hforward
  exact hforward

/-! ## A server stores a copy and answers it -/

/-- Behind the headers a slot holds the entry, with its terminator. -/
theorem terminated_recv_numbered (h : c.Sends e) (hfits : c.packetSize ≤ maxPacketSize)
    (hslot : slot.Ready) (a : Address) :
    Terminated e ((slot.recv ⟨a, numbered (c.request k e) n⟩).buf.drop sizeofHeaders) := by
  have hdrop := LogClient.drop_recv_packet (c.atCall k) hfits h.le hslot
    (htonl (BitVec.ofNat 32 n)) a
  rw [numbered, LogClient.request, hdrop]
  have hwhole : (e ++ [0]).take ((c.atCall k).payloadSize.toNat + 1) = e ++ [0] := by
    refine List.take_of_length_le (Nat.le_of_eq ?_)
    rw [List.length_append, List.length_singleton, h.length]
    rfl
  rw [hwhole]
  exact ⟨h.zero, List.prefix_append _ _⟩

theorem LogStorage.appendServer_numbered (h : c.Sends e) (hfits : c.packetSize ≤ maxPacketSize)
    (hslot : slot.Ready) (hn : n < 2 ^ 32) (a : Address) (s : Stor) :
    appendServer s (slot.recv ⟨a, numbered (c.request k e) n⟩) =
      some ((store s (BitVec.ofNat 64 n) e).1,
        answer (slot.recv ⟨a, numbered (c.request k e) n⟩)) := by
  refine appendServer_eq_some.2 ⟨e, terminated_recv_numbered h hfits hslot a, ?_⟩
  have hlen : sizeofHeaders ≤ (numbered (c.request k e) n).length := by
    rw [length_numbered]
    exact LogClient.sizeofHeaders_le_request h k
  have hgIdx : AppendEntry.gIdx (slot.recv ⟨a, numbered (c.request k e) n⟩).buf =
      htonl (BitVec.ofNat 32 n) :=
    (Slot.sameHeaders_recv hslot hlen).gIdx.trans
      (gIdx_numbered (LogClient.sizeofHeaders_le_request h k) n)
  rw [hgIdx, seqNo_htonl_ofNat hn]

/-- What fills a slot at most is sent as it was received. -/
theorem take_recv (hslot : slot.Ready) (hlen : d.length ≤ maxPacketSize) (a : Address) :
    (slot.recv ⟨a, d⟩).msgLen = d.length ∧ (slot.recv ⟨a, d⟩).buf.take d.length = d := by
  have htake : d.take slot.iovLen = d := List.take_of_length_le (by rwa [hslot.iovLen])
  simp only [Slot.recv, htake]
  exact ⟨trivial, List.take_left⟩

/-- The answer to a datagram is the datagram with the type of a response. -/
theorem LogStorage.sent_answer_recv (hslot : slot.Ready) (hpos : 0 < d.length)
    (hlen : d.length ≤ maxPacketSize) (a : Address) :
    (answer (slot.recv ⟨a, d⟩)).sent = ⟨a, setType d (htons ethAppendResp)⟩ := by
  obtain ⟨hmsg, htake⟩ := take_recv hslot hlen a
  simp only [answer, Slot.sent]
  rw [hmsg, if_pos hpos, setType, take_store16, htake]
  rfl

/-! ## The switch counts an acknowledgement -/

/-- With a quorum the acknowledgement becomes the response to the client. -/
theorem sent_appendResponse (ackThreshold : BitVec 64) (ackMap : AckMap) (hslot : slot.Ready)
    (hlen : buf.length ≤ maxPacketSize) (hheaders : sizeofHeaders ≤ buf.length) (hn : n < 2 ^ 32)
    (a : Address) :
    (appendResponse ackThreshold ackMap (slot.recv ⟨a, acked buf n⟩)).1 =
        (countAck ackThreshold ackMap (BitVec.ofNat 64 n)).1 ∧
      (appendResponse ackThreshold ackMap (slot.recv ⟨a, acked buf n⟩)).2.sent.addr =
        (if (countAck ackThreshold ackMap (BitVec.ofNat 64 n)).2 then
          ⟨AppendEntry.clientIp buf, AppendEntry.recvPort buf⟩ else a) ∧
      ((countAck ackThreshold ackMap (BitVec.ofNat 64 n)).2 = true →
        (appendResponse ackThreshold ackMap (slot.recv ⟨a, acked buf n⟩)).2.sent.data =
          acked buf n) := by
  have hle : sizeofHeaders ≤ (acked buf n).length := by rwa [length_acked]
  have hsame : SameHeaders (slot.recv ⟨a, acked buf n⟩).buf (acked buf n) :=
    Slot.sameHeaders_recv hslot hle
  have hseq : seqNo (AppendEntry.gIdx (slot.recv ⟨a, acked buf n⟩).buf) = BitVec.ofNat 64 n := by
    rw [hsame.gIdx]
    exact seqNo_acked hheaders hn a
  have hip : AppendEntry.clientIp (slot.recv ⟨a, acked buf n⟩).buf = AppendEntry.clientIp buf :=
    hsame.clientIp.trans (clientIp_acked buf n)
  have hport : AppendEntry.recvPort (slot.recv ⟨a, acked buf n⟩).buf = AppendEntry.recvPort buf :=
    hsame.recvPort.trans (recvPort_acked buf n)
  obtain ⟨hmsg, htake⟩ := take_recv hslot (d := acked buf n) (by rwa [length_acked]) a
  have hpos : 0 < (slot.recv ⟨a, acked buf n⟩).msgLen := by
    rw [hmsg]
    exact Nat.lt_of_lt_of_le (by decide) hle
  have hsame : setType (acked buf n) (ntohs ethAppendResp) = acked buf n :=
    setType_setType _ _ _
  simp only [appendResponse, hseq]
  cases (countAck ackThreshold ackMap (BitVec.ofNat 64 n)).2 with
  | true =>
    simp only [↓reduceIte, Slot.sent, hip, hport, true_and, forall_const, if_pos hpos]
    rw [hmsg, setType, take_store16, htake]
    exact hsame
  | false =>
    simp only [Bool.false_eq_true, ↓reduceIte, Slot.sent, Slot.recv, false_implies, and_true]

/-! ## The client takes the number from the response -/

theorem LogClient.Appending.genuine_acked {assigned : Nat → BitVec 64 → Prop}
    {requests : List (List Byte)} {headers : List Byte} (h : c.Sends e) (hn : n < 2 ^ 32)
    (hk : requests[k]? = some headers)
    (hnonce : AppendEntry.nonce headers = htonl (c.appendNonce + BitVec.ofNat 32 k))
    (hassigned : assigned k (BitVec.ofNat 64 n)) :
    Genuine assigned requests (acked (c.request k e) n) := by
  have hlen : sizeofHeaders ≤ (acked (c.request k e) n).length := by
    rw [length_acked]
    exact sizeofHeaders_le_request h k
  refine ⟨Nat.le_trans (by decide) hlen, fun _ => hlen, fun _ => ?_, fun _ => ?_⟩
  · rw [numEntries_acked, LogClient.request, packet, (fields_headers _ _).1]
    decide
  · refine ⟨k, headers, hk, ?_, ?_⟩
    · rw [nonce_acked, nonce_request, hnonce]
    · have hseq := seqNo_acked (sizeofHeaders_le_request h k) hn ⟨0, 0⟩
      rw [Datagram.seqNo] at hseq
      rwa [hseq]

end Pringles.Software
