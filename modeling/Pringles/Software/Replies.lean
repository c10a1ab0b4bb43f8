import Pringles.Lib.DottedQuad
import Pringles.Software.ReplyBatch
import Pringles.Software.Shards
import Pringles.Software.TailRequest

/-!
# Where the software switch sends its replies

A packet names the client that waits for an answer, with address and port in network byte order. Some
replies go out with these two words as they are, others through a text of the address and one of the
port, which is then to be the number in the byte order of the host. A read that is rejected takes its
port for that number as it lies in the packet; so the reply goes to another port, unless the two
bytes of the port are equal. And of the read responses in a datagram only the first is taken for what
the storage server sent. All other replies go where they are awaited (`addressed_iff`).
-/

namespace Pringles.Software

open Bytes

/-- `Network::setup_talker_socket` without multicast: the address that the socket sends to. -/
def setupTalkerSocket (dstIp dstPort : String) : Option Address := do
  let ip ← DottedQuad.parse dstIp
  let port ← DottedQuad.number dstPort
  if port < 65536 then pure ⟨ip, htons (BitVec.ofNat 16 port)⟩ else none

/-- The socket for the texts that `get_quad_ip` and `std::to_string` make. -/
theorem setupTalkerSocket_texts (ip : BitVec 32) (port : BitVec 16) :
    setupTalkerSocket (DottedQuad.inetNtop ip) port.toNat.repr = some ⟨ip, htons port⟩ := by
  have hlt : port.toNat < 65536 := port.isLt
  unfold setupTalkerSocket
  rw [DottedQuad.parse_inetNtop, DottedQuad.number_repr]
  simp [hlt]

/-! ## Who waits for an answer -/

def AppendEntry.requester (buf : List Byte) : Address := ⟨clientIp buf, recvPort buf⟩

def TailReq.requester (buf : List Byte) : Address := ⟨clientIp buf, recvPort buf⟩

namespace LogSoftwareSwitch

/-! ## The replies, with the texts -/

/-- The reply of `read_request` to a read that it rejects, because its index is too high or because
there is no shard for it. -/
def readRequest (cfg : Shards.Config) (s : Shards) (recv : List Byte) :
    Option (Option Address × List Byte) :=
  match s.readRequest cfg (ReadEntry.gIdx recv) (ReadEntry.streamId recv) with
  | some .client =>
    let pktSize := sizeofRingType + sizeofRingAppendEntry + (ReadEntry.payloadSize recv).toNat + 1
    let clientIp := DottedQuad.inetNtop (ReadEntry.clientIp recv)
    some (setupTalkerSocket clientIp (ReadEntry.recvPort recv).toNat.repr, recv.take pktSize)
  | _ => none

/-- The loop of `read_response`. -/
def readReplies (recv : List Byte) : Nat → Nat → List (Option Address × List Byte)
  | 0, _ => []
  | n + 1, off =>
    let entry := recv.drop off
    let size := readPktSize entry
    let clientIp := DottedQuad.inetNtop (ReadEntry.clientIp entry)
    (setupTalkerSocket clientIp (ntohs (ReadEntry.recvPort entry)).toNat.repr, entry.take size) ::
      readReplies recv n (off + size)

/-- The replies of `read_response` to the packets in `recv`. -/
def readResponseReplies (recv : List Byte) : List (Option Address × List Byte) :=
  readReplies (setType recv (ntohs ethReadResp)) (ntohs (numEntries recv)).toNat 0

/-- The reply of `tail_request`. -/
def tailReply (maxIdx : BitVec 64) (recv : List Byte) : Option (Option Address × List Byte) :=
  let buf := setType (TailReq.setTailSeqNo recv (htonl (maxIdx.truncate 32))) (htons ethTailResp)
  let clientIp := DottedQuad.inetNtop (TailReq.clientIp buf)
  if clientIp.length = 0 then none
  else some (setupTalkerSocket clientIp (ntohs (TailReq.recvPort buf)).toNat.repr,
    buf.take (sizeofRingType + sizeofRingTailReq))

/-- The texts make no difference to the responses to reads. -/
theorem readReplies_eq (recv : List Byte) (n off : Nat) :
    readReplies recv n off = (responses recv n off).map fun x => (some x.1, x.2) := by
  induction n generalizing off with
  | zero => rfl
  | succ n ih =>
    rw [readReplies, responses, List.map_cons, ih, setupTalkerSocket_texts, htons_ntohs]

/-- Nor to a tail. -/
theorem tailReply_eq (maxIdx : BitVec 64) (recv : List Byte) :
    tailReply maxIdx recv =
      some (some (tailRequest maxIdx recv).1, (tailRequest maxIdx recv).2) := by
  unfold tailReply tailRequest
  simp only [setupTalkerSocket_texts, htons_ntohs]
  refine if_neg ?_
  intro hempty
  exact DottedQuad.inetNtop_ne_empty _ (String.length_eq_zero_iff.1 hempty)

/-! ## All paths -/

/-- A packet that is answered, with what the answer depends on: an append when nothing is stored, an
acknowledgement in its slot, a read, a datagram of read responses and a tail request. -/
inductive Answered where
  | append (normBuf : List Byte) (r : Request)
  | appendResponse (ackThreshold : BitVec 64) (ackMap : AckMap) (slot : Slot)
  | readRequest (cfg : Shards.Config) (s : Shards) (recv : List Byte)
  | readResponse (normBuf : List Byte) (b : ReplyBatch) (behind : List Byte)
  | tail (maxIdx : BitVec 64) (recv : List Byte)

/-- Every reply goes to the address that its packet names. The replies to reads do, one after the
other, whatever clients the storage server has answered. -/
def Answered.Addressed : Answered → Prop
  | append normBuf r => ∀ sent, (appendRequest false normBuf r).2 = some sent →
      sent.dest = AppendEntry.requester (recvPacket normBuf r.data)
  | appendResponse ackThreshold ackMap slot =>
    (countAck ackThreshold ackMap (seqNo (AppendEntry.gIdx slot.buf))).2 = true →
      (Software.appendResponse ackThreshold ackMap slot).2.sent.addr =
        AppendEntry.requester slot.buf
  | readRequest cfg s recv => ∀ reply, LogSoftwareSwitch.readRequest cfg s recv = some reply →
      reply.1 = some (ReadEntry.requester recv)
  | readResponse normBuf b behind => ∀ rs h,
      (readResponseReplies (receiver normBuf (b.forClients rs h).datagram behind)).map Prod.fst =
        (b.forClients rs h).clients.map some
  | tail maxIdx recv => ∀ reply, tailReply maxIdx recv = some reply →
      reply.1 = some (TailReq.requester recv)

/-- A rejected read with a port that is another one in the byte order of the host. -/
def Answered.Reversed : Answered → Prop
  | readRequest cfg s recv =>
    s.readRequest cfg (ReadEntry.gIdx recv) (ReadEntry.streamId recv) = some .client ∧
      ntohs (ReadEntry.recvPort recv) ≠ ReadEntry.recvPort recv
  | _ => False

/-- More than one read response in a datagram. -/
def Answered.Crowded : Answered → Prop
  | readResponse _ b _ => 2 ≤ b.packets.length
  | _ => False

/-- The number that `append_request` stamps on a packet is not the address of the client. -/
theorem addressed_append (normBuf : List Byte) (r : Request) :
    (Answered.append normBuf r).Addressed := by
  intro sent hsent
  simp only [appendRequest, route, Bool.false_eq_true, ↓reduceIte, sendto,
    Option.ite_none_right_eq_some, Option.some.injEq] at hsent
  obtain ⟨-, rfl⟩ := hsent
  have hip : AppendEntry.clientIp (AppendEntry.setGIdx (recvPacket normBuf r.data)
      (htonl (r.maxIdx.truncate 32))) = AppendEntry.clientIp (recvPacket normBuf r.data) :=
    load32_store32_ne (.inr (by decide))
  have hport : AppendEntry.recvPort (AppendEntry.setGIdx (recvPacket normBuf r.data)
      (htonl (r.maxIdx.truncate 32))) = AppendEntry.recvPort (recvPacket normBuf r.data) :=
    load16_store32_ne (.inr (by decide))
  rw [AppendEntry.requester, hip, hport]

theorem addressed_appendResponse (ackThreshold : BitVec 64) (ackMap : AckMap) (slot : Slot) :
    (Answered.appendResponse ackThreshold ackMap slot).Addressed := by
  intro hquorum
  rw [Software.appendResponse, if_pos hquorum]
  rfl

/-- Only the order of the two bytes counts. -/
theorem addressed_readRequest_iff (cfg : Shards.Config) (s : Shards) (recv : List Byte) :
    (Answered.readRequest cfg s recv).Addressed ↔
      ¬ (Answered.readRequest cfg s recv).Reversed := by
  change (∀ reply, LogSoftwareSwitch.readRequest cfg s recv = some reply → _) ↔ ¬ (_ ∧ _)
  unfold LogSoftwareSwitch.readRequest
  split
  · next hclient =>
    simp only [setupTalkerSocket_texts, Option.some.injEq, forall_eq', true_and, not_not,
      ReadEntry.requester, Address.mk.injEq, hclient]
    rfl
  · next hclient =>
    refine iff_of_true ?_ ?_
    · rintro _ ⟨⟩
    · rintro ⟨hreject, -⟩
      exact hclient hreject

/-- Only a single response is taken out of its datagram where it was put in. -/
theorem addressed_readResponse_iff (normBuf : List Byte) (b : ReplyBatch) (behind : List Byte) :
    (Answered.readResponse normBuf b behind).Addressed ↔
      ¬ (Answered.readResponse normBuf b behind).Crowded := by
  have haddr : ∀ b : ReplyBatch, (readResponseReplies (receiver normBuf b.datagram behind)).map
      Prod.fst = (b.addresses normBuf behind).map some := by
    intro b
    rw [readResponseReplies, readReplies_eq, ReplyBatch.addresses, readResponse, List.map_map,
      List.map_map]
    rfl
  change (∀ rs h, _) ↔ ¬ 2 ≤ b.packets.length
  rw [Nat.not_le, Nat.lt_succ_iff, ← b.addresses_iff normBuf behind]
  refine forall₂_congr fun rs h => ?_
  rw [haddr, List.map_inj_right fun _ _ => Option.some.inj]

theorem addressed_tail (maxIdx : BitVec 64) (recv : List Byte) :
    (Answered.tail maxIdx recv).Addressed := by
  intro reply hreply
  rw [tailReply_eq, Option.some.injEq] at hreply
  subst hreply
  unfold tailRequest TailReq.requester
  have hip : TailReq.clientIp (setType (TailReq.setTailSeqNo recv (htonl (maxIdx.truncate 32)))
      (htons ethTailResp)) = TailReq.clientIp recv :=
    (load32_store16_ne (.inr (by decide))).trans (load32_store32_ne (.inr (by decide)))
  have hport : TailReq.recvPort (setType (TailReq.setTailSeqNo recv (htonl (maxIdx.truncate 32)))
      (htons ethTailResp)) = TailReq.recvPort recv :=
    (load16_store16_ne (.inr (by decide))).trans (load16_store32_ne (.inr (by decide)))
  simp only [hip, hport]

/-- **Every reply goes to the client that waits for it**, but for a rejected read whose port has two
different bytes, and for read responses that share a datagram. -/
theorem addressed_iff (a : Answered) : a.Addressed ↔ ¬ a.Reversed ∧ ¬ a.Crowded := by
  cases a with
  | append normBuf r => exact iff_of_true (addressed_append normBuf r) ⟨id, id⟩
  | appendResponse ackThreshold ackMap slot =>
    exact iff_of_true (addressed_appendResponse ackThreshold ackMap slot) ⟨id, id⟩
  | readRequest cfg s recv =>
    exact (addressed_readRequest_iff cfg s recv).trans (and_iff_left id).symm
  | readResponse normBuf b behind =>
    exact (addressed_readResponse_iff normBuf b behind).trans (and_iff_right id).symm
  | tail maxIdx recv => exact iff_of_true (addressed_tail maxIdx recv) ⟨id, id⟩

/-- A read of an index that has not been drawn. -/
theorem rejected_read_lost : ¬ (Answered.readRequest ⟨false, false, true, 1⟩ {}
    ((LogClient.sampleClient 1).readPacket 1)).Addressed := by
  rw [addressed_readRequest_iff, not_not]
  have hport : ReadEntry.recvPort ((LogClient.sampleClient 1).readPacket 1) = htons 50000 :=
    (RingReadEntry.fields _ _ _).2.2.1
  refine ⟨?_, ?_⟩
  · rw [gIdx_readPacket]
    rfl
  · rw [hport, ntohs_htons]
    decide

/-- Two replies of a storage server that share a datagram. -/
theorem second_reply_lost : ∃ b : ReplyBatch, b.packets.length = 2 ∧
    ∀ normBuf behind, ¬ (Answered.readResponse normBuf b behind).Addressed := by
  obtain ⟨reply, hreply, hlen⟩ := sample_reply
  have hfits : [reply, reply].flatten.length ≤ maxPacketSize := by
    rw [List.flatten_cons, List.flatten_cons, List.flatten_nil, List.length_append,
      List.length_append, hlen]
    decide
  refine ⟨⟨[reply, reply], by simpa using hreply, List.cons_ne_nil _ _, hfits⟩, rfl, ?_⟩
  intro normBuf behind
  rw [addressed_readResponse_iff, not_not]
  exact Nat.le_refl 2

end LogSoftwareSwitch

end Pringles.Software
