import Pringles.Software.LogService
import Pringles.Software.Replies
import Pringles.Software.ReceiverThreads

/-!
# The tail of the log

`getTail` asks the switch for the last number, next to the clients that append. A request goes through
the network to `receiver` of the switch, through its queue to `tail_request`, which answers with
`max_idx`, back through the network, and through a queue of the client to the call. All of these are
threads of their own, and stale answers to earlier calls may come in at any time; the nonce tells them
apart.

The answer lies between the length of the log when the call began and its length when the call
returns. So it covers every append that had returned before the call, and an append that begins after
it gets a larger number (`tail_in_order`). While `end_thread` is not set, a call can return whatever
the threads are doing (`tail_can_return`).

A tail client is an object of its own, with a socket of its own. The network may lose, reorder and
duplicate requests and answers, and it may bring other packets; it forges neither requests nor
answers. A call that ends because `end_thread` is set has no answer, and no call comes after it.
-/

namespace Pringles.Software

open Bytes

/-! ## The packets -/

/-- `struct ring_tail_req`. -/
structure RingTailReq where
  nonce : BitVec 32
  hops : BitVec 32
  tailSeqNo : BitVec 32
  clientIp : BitVec 32
  recvPort : BitVec 16

/-- There are two bytes behind `recv_port`. -/
def RingTailReq.bytes (h : RingTailReq) : List Byte :=
  bytes32 h.nonce ++ bytes32 h.hops ++ bytes32 h.tailSeqNo ++ bytes32 h.clientIp ++
    bytes16 h.recvPort ++ [0, 0]

/-- The size of a tail request, and of the answer. -/
def sizeofTail : Nat := sizeofRingType + sizeofRingTailReq

namespace LogClient

/-- `tail_type_hdr`. The number of entries is cut off from a word in network byte order. -/
def tailTypeHdr (c : LogClient) : RingType where
  type := htons ethTailReq
  numEntries := (htonl 1).truncate 16
  shardId := 0
  cid := htonl (c.cid.truncate 32)
  switchToProcess := 0

/-- `tail_req_hdr`. -/
def tailReqHdr (c : LogClient) (tailNonce : BitVec 32) : RingTailReq where
  nonce := ntohl tailNonce
  hops := htonl 1
  tailSeqNo := 0
  clientIp := c.selfClientIp
  recvPort := htons c.recvPort

/-- The packet of `getTail`. -/
def tailPacket (c : LogClient) (tailNonce : BitVec 32) : List Byte :=
  c.tailTypeHdr.bytes ++ (c.tailReqHdr tailNonce).bytes

/-- What `getTail` returns for a packet, if it waits for it. -/
def tailResp (tailNonce : BitVec 32) (recv : List Byte) : Option (BitVec 64) :=
  if ntohs (load16 recv 0) = ethTailResp ∧ ntohl (TailReq.nonce recv) = tailNonce then
    some (seqNo (TailReq.tailSeqNo recv))
  else none

end LogClient

variable {c : LogClient} {tailNonce : BitVec 32} {recv data : List Byte} {maxIdx idx : BitVec 64}

theorem length_tailPacket (c : LogClient) (tailNonce : BitVec 32) :
    (c.tailPacket tailNonce).length = sizeofTail := rfl

theorem type_tailPacket (c : LogClient) (tailNonce : BitVec 32) :
    ntohs (load16 (c.tailPacket tailNonce) 0) = ethTailReq := by
  simp only [LogClient.tailPacket, RingType.bytes, List.append_assoc, load16_bytes16,
    LogClient.tailTypeHdr, ntohs_htons]

theorem fields_tailPacket (c : LogClient) (tailNonce : BitVec 32) :
    ntohl (TailReq.nonce (c.tailPacket tailNonce)) = tailNonce ∧
      TailReq.requester (c.tailPacket tailNonce) = c.addr := by
  simp only [TailReq.nonce, TailReq.requester, TailReq.clientIp, TailReq.recvPort, sizeofRingType,
    LogClient.tailPacket, RingType.bytes, RingTailReq.bytes, List.append_assoc, load16_skip16,
    load16_skip32, load32_skip16, load32_skip32, load16_bytes16, load32_bytes32,
    LogClient.tailReqHdr, LogClient.addr]
  exact ⟨ntohl_htonl _, trivial⟩

/-- A packet that begins with the request of a call. -/
def IsTailReq (c : LogClient) (tailNonce : BitVec 32) (recv : List Byte) : Prop :=
  recv.take sizeofTail = c.tailPacket tailNonce

/-- A packet that begins with the answer `idx` to a call. -/
structure IsTailResp (tailNonce : BitVec 32) (idx : BitVec 64) (recv : List Byte) : Prop where
  length : sizeofTail ≤ recv.length
  type : ntohs (load16 recv 0) = ethTailResp
  nonce : ntohl (TailReq.nonce recv) = tailNonce
  tailSeqNo : seqNo (TailReq.tailSeqNo recv) = idx

theorem IsTailReq.length (h : IsTailReq c tailNonce recv) : sizeofTail ≤ recv.length := by
  have hlen := congrArg List.length h
  rw [List.length_take, length_tailPacket] at hlen
  omega

theorem IsTailResp.congr (h : IsTailResp tailNonce idx data)
    (heq : recv.take sizeofTail = data.take sizeofTail) : IsTailResp tailNonce idx recv := by
  refine ⟨?_, ?_, ?_, ?_⟩
  · have hlen := congrArg List.length heq
    have hle := h.length
    simp only [List.length_take] at hlen
    omega
  · rw [load16_of_take_eq heq (by decide), h.type]
  · rw [TailReq.nonce, load32_of_take_eq heq (by decide)]
    exact h.nonce
  · rw [TailReq.tailSeqNo, load32_of_take_eq heq (by decide)]
    exact h.tailSeqNo

/-- The call takes the answer that is meant for it, and no other. -/
theorem IsTailResp.returned {tailNonce' : BitVec 32} {idx' : BitVec 64}
    (h : IsTailResp tailNonce idx recv) (hret : LogClient.tailResp tailNonce' recv = some idx') :
    tailNonce' = tailNonce ∧ idx' = idx := by
  simp only [LogClient.tailResp, Option.ite_none_right_eq_some, Option.some.injEq] at hret
  obtain ⟨⟨-, hnonce⟩, rfl⟩ := hret
  exact ⟨hnonce.symm.trans h.nonce, h.tailSeqNo⟩

/-- The call takes its answer. -/
theorem IsTailResp.tailResp_eq (h : IsTailResp tailNonce idx recv) :
    LogClient.tailResp tailNonce recv = some idx := by
  rw [LogClient.tailResp, if_pos ⟨h.type, h.nonce⟩, h.tailSeqNo]

theorem IsTailReq.fields (h : IsTailReq c tailNonce recv) :
    ntohl (TailReq.nonce recv) = tailNonce ∧ TailReq.requester recv = c.addr := by
  have htake : recv.take sizeofTail = (c.tailPacket tailNonce).take sizeofTail :=
    Eq.trans h (List.take_of_length_le (Nat.le_of_eq (length_tailPacket ..))).symm
  obtain ⟨hnonce, haddr⟩ := fields_tailPacket c tailNonce
  rw [TailReq.requester, TailReq.clientIp, TailReq.recvPort] at haddr ⊢
  rw [TailReq.nonce, load32_of_take_eq htake (by decide), load32_of_take_eq htake (by decide),
    load16_of_take_eq htake (by decide)]
  exact ⟨hnonce, haddr⟩

/-- The request with the answer written into it. -/
theorem IsTailReq.answered (h : IsTailReq c tailNonce recv) (hmax : maxIdx.toNat < 2 ^ 32) :
    IsTailResp tailNonce maxIdx
      (setType (TailReq.setTailSeqNo recv (htonl (maxIdx.truncate 32))) (htons ethTailResp)) := by
  have hlen : sizeofTail ≤ (TailReq.setTailSeqNo recv (htonl (maxIdx.truncate 32))).length := by
    rw [TailReq.setTailSeqNo, length_store32]
    exact h.length
  refine ⟨?_, ?_, ?_, ?_⟩
  · rw [setType, length_store16]
    exact hlen
  · rw [setType, load16_store16 (Nat.le_trans (by decide) hlen), ntohs_htons]
  · rw [TailReq.nonce, setType, load32_store16_ne (.inr (by decide)), TailReq.setTailSeqNo,
      load32_store32_ne (.inl (by decide))]
    exact h.fields.1
  · refine BitVec.eq_of_toNat_eq ?_
    rw [TailReq.tailSeqNo, setType, load32_store16_ne (.inr (by decide)), TailReq.setTailSeqNo,
      load32_store32 (Nat.le_trans (by decide) h.length), toNat_seqNo_htonl, Nat.mod_eq_of_lt hmax]

/-- **The answer of `tail_request`** goes to the client, with the nonce of its call. -/
theorem tailReply_request (h : IsTailReq c tailNonce recv) (hmax : maxIdx.toNat < 2 ^ 32) :
    ∃ reply, LogSoftwareSwitch.tailReply maxIdx recv = some (some c.addr, reply) ∧
      reply.length = sizeofTail ∧ IsTailResp tailNonce maxIdx reply := by
  have hanswered := h.answered hmax
  have hreply := LogSoftwareSwitch.tailReply_eq maxIdx recv
  have haddr : some (tailRequest maxIdx recv).1 = some (TailReq.requester recv) :=
    LogSoftwareSwitch.addressed_tail maxIdx recv _ hreply
  rw [haddr, h.fields.2] at hreply
  refine ⟨_, hreply, ?_, hanswered.congr ?_⟩
  · rw [tailRequest, List.length_take]
    exact Nat.min_eq_left hanswered.length
  · exact (List.take_take ..).trans (congrArg (List.take · _) (Nat.min_self _))

/-! ## The service -/

/-- A client that asks for the tail: its threads, the nonce, and whether a call is waiting. -/
structure TailClient where
  threads : ReceiverThreads
  tailNonce : BitVec 32
  waiting : Bool := false

namespace TailClient

/-- What the call makes of the packet that it has taken. -/
def settle (q : TailClient) (threads : ReceiverThreads) :
    ReceiverThreads.Done → TailClient × Option (BitVec 64)
  | .handled .tailRespQ recv =>
    match LogClient.tailResp q.tailNonce recv with
    | some idx => (⟨threads, q.tailNonce + 1, false⟩, some idx)
    | none => ({ q with threads := threads }, none)
  | _ => ({ q with threads := threads }, none)

/-- `getTail` takes the steps of the reader of `tail_resp_q`, while it waits. -/
def Takes (q : TailClient) : ReceiverThreads.Event → Bool
  | .reader .tailRespQ => q.waiting
  | _ => true

end TailClient

/-- The log with the threads of `receiver` and `tail_request` at the switch, the clients that ask for
the tail, their requests and the answers on the way. `called` records the length of the log at the
beginning of each call; nobody reads it. -/
structure LogTail (C D S τ : Type) where
  log : LogSystem C S τ
  switch : ReceiverThreads
  clients : D → TailClient
  requests : List (List Byte) := []
  replies : List Datagram := []
  called : D → List Nat := fun _ => []

namespace LogTail

variable {C D S τ : Type}

/-- No two clients that ask for the tail receive at the same address. -/
structure Config (C D S τ : Type) extends LogSystem.Config C S τ where
  tailClient : D → LogClient
  tailNonce : D → BitVec 32
  tailBuf : D → List Byte
  switchBuf : List Byte
  tail_addr_injective : Function.Injective fun d => (tailClient d).addr

inductive Event (C D S τ : Type) where
  | log (e : LogSystem.Event C S τ)
  | getTail (d : D)
  | switch (e : ReceiverThreads.Event)
  | client (d : D) (e : ReceiverThreads.Event)

/-- What a step has done. The calls of a client are numbered from zero. -/
inductive Done (C D S : Type) where
  | internal
  | log (done : LogSystem.Done C S)
  | called (d : D) (k : Nat)
  | returned (d : D) (k : Nat) (idx : BitVec 64)

def start (cfg : Config C D S τ) : LogTail C D S τ where
  log := .start cfg.toConfig
  switch := .begin cfg.switchBuf
  clients d := ⟨.begin (cfg.tailBuf d), cfg.tailNonce d, false⟩

/-- A datagram of the network is one of those sent, or a packet of another type. -/
def Brings (sent : List (List Byte)) (type : BitVec 16) : ReceiverThreads.Event → Bool
  | .recvPacket data _ =>
    sent.contains data || (decide (2 ≤ data.length) && decide (ntohs (load16 data 0) ≠ type))
  | _ => true

/-- The answer to the request that `tail_request` has taken. -/
def answer (maxIdx : BitVec 64) : ReceiverThreads.Done → List Datagram
  | .handled .tailReqQ recv =>
    match LogSoftwareSwitch.tailReply maxIdx recv with
    | some (some addr, data) => [⟨addr, data⟩]
    | _ => []
  | _ => []

section
variable [DecidableEq C] [DecidableEq D] [DecidableEq S] [DecidableEq τ]

/-- A call begins. -/
def getTail (cfg : Config C D S τ) (σ : LogTail C D S τ) (d : D) :
    Option (LogTail C D S τ × Done C D S) :=
  let q := σ.clients d
  if q.waiting then none
  else some ({ σ with
    clients := Function.update σ.clients d { q with waiting := true }
    requests := σ.requests ++ [(cfg.tailClient d).tailPacket q.tailNonce]
    called := Function.update σ.called d (σ.called d ++ [σ.log.log.length]) },
      .called d (σ.called d).length)

def switchStep (σ : LogTail C D S τ) (e : ReceiverThreads.Event) :
    Option (LogTail C D S τ × Done C D S) :=
  if Brings σ.requests ethTailReq e then
    (σ.switch.step .softwareSwitch e).map fun q =>
      ({ σ with switch := q.1, replies := σ.replies ++ answer σ.log.maxIdx q.2 }, .internal)
  else none

/-- The answers on the way to a client. -/
def sentTo (cfg : Config C D S τ) (σ : LogTail C D S τ) (d : D) : List (List Byte) :=
  (σ.replies.filter fun r => r.addr = (cfg.tailClient d).addr).map Datagram.data

def clientStep (cfg : Config C D S τ) (σ : LogTail C D S τ) (d : D) (e : ReceiverThreads.Event) :
    Option (LogTail C D S τ × Done C D S) :=
  let q := σ.clients d
  if Brings (sentTo cfg σ d) ethTailResp e ∧ q.Takes e then
    (q.threads.step .client e).map fun t =>
      let p := q.settle t.1 t.2
      ({ σ with clients := Function.update σ.clients d p.1 },
        match p.2 with
        | some idx => .returned d ((σ.called d).length - 1) idx
        | none => .internal)
  else none

def step (cfg : Config C D S τ) (σ : LogTail C D S τ) :
    Event C D S τ → Option (LogTail C D S τ × Done C D S)
  | .log e => (σ.log.step cfg.toConfig e).map fun q => ({ σ with log := q.1 }, .log q.2)
  | .getTail d => σ.getTail cfg d
  | .switch e => σ.switchStep e
  | .client d e => σ.clientStep cfg d e

def machine (cfg : Config C D S τ) : Machine (LogTail C D S τ) (Event C D S τ) (Done C D S) :=
  ⟨step cfg⟩

end

/-! ## The invariant -/

/-- The nonce of a call. -/
def Config.callNonce (cfg : Config C D S τ) (d : D) (k : Nat) : BitVec 32 :=
  cfg.tailNonce d + BitVec.ofNat 32 k

/-- The calls of a client that are over. -/
def completed (σ : LogTail C D S τ) (d : D) : Nat :=
  if (σ.clients d).waiting then (σ.called d).length - 1 else (σ.called d).length

/-- The answer to a call is a length that the log has had since the call began. -/
def Answered (σ : LogTail C D S τ) (d : D) (k : Nat) (idx : BitVec 64) : Prop :=
  ∃ n, (σ.called d)[k]? = some n ∧ n ≤ idx.toNat ∧ idx.toNat ≤ σ.log.log.length

/-- A packet of a call, on its way to `tail_request`. -/
def Asks (cfg : Config C D S τ) (σ : LogTail C D S τ) (pkt : List Byte) : Prop :=
  ∃ d k, k < (σ.called d).length ∧ IsTailReq (cfg.tailClient d) (cfg.callNonce d k) pkt

/-- A packet for the client `d`, on its way to the call. -/
def Answers (cfg : Config C D S τ) (σ : LogTail C D S τ) (d : D) (pkt : List Byte) : Prop :=
  ∃ k idx, IsTailResp (cfg.callNonce d k) idx pkt ∧ σ.Answered d k idx

structure Inv (cfg : Config C D S τ) (σ : LogTail C D S τ) : Prop where
  log : LogSystem.Inv cfg.toConfig σ.log
  called : ∀ d, ∀ n ∈ σ.called d, n ≤ σ.log.log.length
  requests : ∀ data ∈ σ.requests, Asks cfg σ data
  switch : ∀ pkt ∈ σ.switch.pending .tailReqQ, Asks cfg σ pkt
  replies : ∀ r ∈ σ.replies, ∃ d, r.addr = (cfg.tailClient d).addr ∧ Answers cfg σ d r.data
  clients : ∀ d, ∀ pkt ∈ (σ.clients d).threads.pending .tailRespQ,
    Answers cfg σ d pkt
  nonce : ∀ d, (σ.clients d).tailNonce = cfg.callNonce d (σ.completed d)
  busy : ∀ d, (σ.clients d).waiting = true → 0 < (σ.called d).length

/-- What only grows. -/
structure Grows (σ σ' : LogTail C D S τ) : Prop where
  log : σ.log.log <+: σ'.log.log
  called : ∀ d, σ.called d <+: σ'.called d

variable {cfg : Config C D S τ} {σ σ' : LogTail C D S τ} {d : D} {k : Nat} {pkt : List Byte}

theorem Grows.trans {σ'' : LogTail C D S τ} (h : Grows σ σ') (h' : Grows σ' σ'') : Grows σ σ'' :=
  ⟨h.log.trans h'.log, fun d => (h.called d).trans (h'.called d)⟩

theorem Answered.mono (h : σ.Answered d k idx) (hg : Grows σ σ') : σ'.Answered d k idx := by
  obtain ⟨n, hn, hle, hle'⟩ := h
  exact ⟨n, LogSystem.getElem?_of_prefix (hg.called d) hn, hle, Nat.le_trans hle' hg.log.length_le⟩

theorem Asks.mono (h : Asks cfg σ pkt) (hg : Grows σ σ') : Asks cfg σ' pkt := by
  obtain ⟨d, k, hk, hreq⟩ := h
  exact ⟨d, k, Nat.lt_of_lt_of_le hk (hg.called d).length_le, hreq⟩

theorem Answers.mono (h : Answers cfg σ d pkt) (hg : Grows σ σ') : Answers cfg σ' d pkt := by
  obtain ⟨k, idx, hresp, hans⟩ := h
  exact ⟨k, idx, hresp, hans.mono hg⟩

theorem inv_start (cfg : Config C D S τ) : Inv cfg (start cfg) where
  log := LogSystem.inv_start cfg.toConfig
  called _ _ h := by cases h
  requests _ h := by cases h
  switch _ h := by cases h
  replies _ h := by cases h
  clients _ _ h := by cases h
  nonce _ := (BitVec.add_zero _).symm
  busy _ h := by cases h

/-- What was on the way stays what it is; what is new is to be looked at. -/
theorem Inv.mono (h : Inv cfg σ) (hg : Grows σ σ') (hlog : LogSystem.Inv cfg.toConfig σ'.log)
    (hcalled : ∀ d, ∀ n ∈ σ'.called d, n ∈ σ.called d ∨ n ≤ σ'.log.log.length)
    (hrequests : ∀ data ∈ σ'.requests, data ∈ σ.requests ∨ Asks cfg σ' data)
    (hswitch : ∀ pkt ∈ σ'.switch.pending .tailReqQ,
      pkt ∈ σ.switch.pending .tailReqQ ∨ Asks cfg σ' pkt)
    (hreplies : ∀ r ∈ σ'.replies,
      r ∈ σ.replies ∨ ∃ d, r.addr = (cfg.tailClient d).addr ∧ Answers cfg σ' d r.data)
    (hclients : ∀ d, ∀ pkt ∈ (σ'.clients d).threads.pending .tailRespQ,
      pkt ∈ (σ.clients d).threads.pending .tailRespQ ∨ Answers cfg σ' d pkt)
    (hnonce : ∀ d, (σ'.clients d).tailNonce = cfg.callNonce d (σ'.completed d))
    (hbusy : ∀ d, (σ'.clients d).waiting = true → 0 < (σ'.called d).length) : Inv cfg σ' where
  log := hlog
  called d n hn := (hcalled d n hn).elim
    (fun hold => Nat.le_trans (h.called d n hold) hg.log.length_le) id
  requests data hdata := (hrequests data hdata).elim (fun hold => (h.requests data hold).mono hg) id
  switch pkt hpkt := (hswitch pkt hpkt).elim (fun hold => (h.switch pkt hold).mono hg) id
  replies r hr := (hreplies r hr).elim
    (fun hold => (h.replies r hold).imp fun _ hd => ⟨hd.1, hd.2.mono hg⟩) id
  clients d pkt hpkt := (hclients d pkt hpkt).elim (fun hold => (h.clients d pkt hold).mono hg) id
  nonce := hnonce
  busy := hbusy

/-- A copy for the queue of a type begins like one of the datagrams of this type that were sent. -/
theorem copy_of_brings {c : Component} {q : PacketQueue} {type : BitVec 16}
    {sent : List (List Byte)} {e : ReceiverThreads.Event} {normBuf : List Byte}
    (htakes : c.Takes q type sizeofTail) (hsent : ∀ data ∈ sent, sizeofTail ≤ data.length)
    (h : Brings sent type e = true) (hcopy : e.copy c q normBuf = some pkt) :
    ∃ data ∈ sent, pkt.take sizeofTail = data.take sizeofTail := by
  cases e with
  | recvPacket data behind =>
    simp only [Brings, Bool.or_eq_true, List.contains_iff_mem, Bool.and_eq_true,
      decide_eq_true_eq] at h
    have hframed : ReceiverThreads.Framed type sizeofTail data := by
      rcases h with hmem | ⟨htyped, hother⟩
      · exact ⟨Nat.le_trans (by decide) (hsent data hmem), fun _ => hsent data hmem⟩
      · exact ⟨htyped, fun hown => absurd hown hother⟩
    rw [ReceiverThreads.copy_of_takes htakes (by decide) hframed,
      Option.ite_none_right_eq_some, Option.some.injEq] at hcopy
    obtain ⟨hown, rfl⟩ := hcopy
    refine ⟨data, h.resolve_right fun hother => hother.2 hown, ?_⟩
    have hlen : sizeofTail ≤ (data.take sizeofTail).length := by
      rw [List.length_take, Nat.min_eq_left (hframed.uncut hown)]
    rw [List.take_append_of_le_length hlen, List.take_take, Nat.min_self]
  | _ => cases hcopy

theorem Asks.length (h : Asks cfg σ pkt) : sizeofTail ≤ pkt.length := by
  obtain ⟨d, k, -, hreq⟩ := h
  exact hreq.length

theorem Asks.congr (h : Asks cfg σ data) (heq : pkt.take sizeofTail = data.take sizeofTail) :
    Asks cfg σ pkt := by
  obtain ⟨d, k, hk, hreq⟩ := h
  exact ⟨d, k, hk, heq.trans hreq⟩

theorem Answers.length (h : Answers cfg σ d pkt) : sizeofTail ≤ pkt.length := by
  obtain ⟨k, idx, hresp, -⟩ := h
  exact hresp.length

theorem Answers.congr (h : Answers cfg σ d data)
    (heq : pkt.take sizeofTail = data.take sizeofTail) : Answers cfg σ d pkt := by
  obtain ⟨k, idx, hresp, hans⟩ := h
  exact ⟨k, idx, hresp.congr heq, hans⟩

theorem handled_of_mem_answer {o : ReceiverThreads.Done} {r : Datagram} (h : r ∈ answer maxIdx o) :
    ∃ recv, o = .handled .tailReqQ recv := by
  unfold answer at h
  split at h
  · exact ⟨_, rfl⟩
  · cases h

/-- `tail_request` answers with the length of the log. -/
theorem Inv.answered (h : Inv cfg σ) (hlt : σ.log.log.length < 2 ^ 32) (hpkt : Asks cfg σ pkt)
    {r : Datagram} (hr : r ∈ answer σ.log.maxIdx (.handled .tailReqQ pkt)) :
    ∃ d, r.addr = (cfg.tailClient d).addr ∧ Answers cfg σ d r.data := by
  have hmax : σ.log.maxIdx.toNat = σ.log.log.length := by
    rw [h.log.maxIdx, LogSystem.toNat_ofNat_lt hlt]
  obtain ⟨d, k, hk, hreq⟩ := hpkt
  obtain ⟨reply, hreply, -, hresp⟩ := tailReply_request hreq (hmax ▸ hlt)
  simp only [answer, hreply, List.mem_singleton] at hr
  subst hr
  have hn := List.getElem?_eq_getElem hk
  exact ⟨d, rfl, k, _, hresp, _, hn, hmax ▸ h.called d _ (List.getElem_mem hk), hmax.le⟩

/-- What the call makes of a packet: nothing, or it returns, and then the nonce goes on. -/
theorem settle_cases (q : TailClient) (threads : ReceiverThreads) (o : ReceiverThreads.Done) :
    q.settle threads o = ({ q with threads := threads }, none) ∨
      ∃ recv idx, o = .handled .tailRespQ recv ∧ LogClient.tailResp q.tailNonce recv = some idx ∧
        q.settle threads o = (⟨threads, q.tailNonce + 1, false⟩, some idx) := by
  unfold TailClient.settle
  split
  · next recv =>
    cases hresp : LogClient.tailResp q.tailNonce recv with
    | none => exact .inl rfl
    | some idx => exact .inr ⟨recv, idx, rfl, hresp, rfl⟩
  · exact .inl rfl

/-- Different calls have different nonces. -/
theorem callNonce_injective {k' : Nat} (hk : k < 2 ^ 32) (hk' : k' < 2 ^ 32)
    (h : cfg.callNonce d k = cfg.callNonce d k') : k = k' :=
  LogClient.Appending.nonce_injective hk hk' h

theorem callNonce_succ {n : Nat} (hn : 0 < n) : cfg.callNonce d (n - 1) + 1 = cfg.callNonce d n := by
  obtain ⟨m, rfl⟩ := Nat.exists_eq_succ_of_ne_zero (Nat.ne_of_gt hn)
  rw [Config.callNonce, Config.callNonce, BitVec.add_assoc, Nat.succ_sub_one, Nat.succ_eq_add_one,
    BitVec.ofNat_add]
  rfl

/-! ## Steps -/

section
variable [DecidableEq C] [DecidableEq D] [DecidableEq S] [DecidableEq τ]
  {e : ReceiverThreads.Event} {o : ReceiverThreads.Done} {done : Done C D S}
  {ev ev' : Event C D S τ} {tr tr₁ tr₂ : List (Event C D S τ × Done C D S)}

omit [DecidableEq C] [DecidableEq S] [DecidableEq τ] in
theorem getTail_eq_some (hs : σ.getTail cfg d = some (σ', done)) :
    (σ.clients d).waiting = false ∧ done = .called d (σ.called d).length ∧
      σ' = { σ with
        clients := Function.update σ.clients d { σ.clients d with waiting := true }
        requests := σ.requests ++ [(cfg.tailClient d).tailPacket (σ.clients d).tailNonce]
        called := Function.update σ.called d (σ.called d ++ [σ.log.log.length]) } := by
  simp only [LogTail.getTail, Option.ite_none_left_eq_some, Option.some.injEq, Prod.mk.injEq] at hs
  obtain ⟨hidle, rfl, rfl⟩ := hs
  exact ⟨Bool.eq_false_of_not_eq_true hidle, rfl, rfl⟩

omit [DecidableEq C] [DecidableEq D] [DecidableEq S] [DecidableEq τ] in
theorem switchStep_eq_some (hs : σ.switchStep e = some (σ', done)) :
    ∃ switch o, Brings σ.requests ethTailReq e = true ∧
      σ.switch.step .softwareSwitch e = some (switch, o) ∧ done = .internal ∧
      σ' = { σ with switch := switch, replies := σ.replies ++ answer σ.log.maxIdx o } := by
  simp only [LogTail.switchStep, Option.ite_none_right_eq_some, Option.map_eq_some_iff,
    Prod.mk.injEq] at hs
  obtain ⟨hbrings, ⟨switch, o⟩, hstep, rfl, rfl⟩ := hs
  exact ⟨switch, o, hbrings, hstep, rfl, rfl⟩

omit [DecidableEq C] [DecidableEq S] [DecidableEq τ] in
/-- The call goes on waiting, or it returns with the answer in the packet that it has taken. -/
theorem clientStep_eq_some (hs : σ.clientStep cfg d e = some (σ', done)) :
    ∃ threads o, Brings (sentTo cfg σ d) ethTailResp e = true ∧ (σ.clients d).Takes e = true ∧
      (σ.clients d).threads.step .client e = some (threads, o) ∧
      (done = .internal ∧ σ' = { σ with
          clients := Function.update σ.clients d { σ.clients d with threads := threads } } ∨
        ∃ recv idx, o = .handled .tailRespQ recv ∧
          LogClient.tailResp (σ.clients d).tailNonce recv = some idx ∧
          done = .returned d ((σ.called d).length - 1) idx ∧ σ' = { σ with
            clients := Function.update σ.clients d
              ⟨threads, (σ.clients d).tailNonce + 1, false⟩ }) := by
  simp only [LogTail.clientStep, Option.ite_none_right_eq_some, Option.map_eq_some_iff,
    Prod.mk.injEq] at hs
  obtain ⟨⟨hbrings, htakes⟩, ⟨threads, o⟩, hstep, rfl, rfl⟩ := hs
  refine ⟨threads, o, hbrings, htakes, hstep, ?_⟩
  rcases settle_cases (σ.clients d) threads o with hnone | ⟨recv, idx, ho, hresp, hsome⟩
  · rw [hnone]
    exact .inl ⟨rfl, rfl⟩
  · rw [hsome]
    exact .inr ⟨recv, idx, ho, hresp, rfl, rfl⟩

/-- A step of the log, or one that leaves it alone. -/
theorem log_step (hs : LogTail.step cfg σ ev = some (σ', done)) :
    (∃ e logDone, (ev, done) = (.log e, .log logDone) ∧
        σ.log.step cfg.toConfig e = some (σ'.log, logDone)) ∨
      (∀ logDone, done ≠ .log logDone) ∧ σ'.log = σ.log := by
  cases ev with
  | log e =>
    obtain ⟨⟨log, logDone⟩, hlog, heq⟩ := Option.map_eq_some_iff.1 hs
    cases heq
    exact .inl ⟨e, logDone, rfl, hlog⟩
  | getTail d =>
    obtain ⟨-, rfl, rfl⟩ := getTail_eq_some hs
    exact .inr ⟨by rintro _ ⟨⟩, rfl⟩
  | switch e =>
    obtain ⟨_, _, -, -, rfl, rfl⟩ := switchStep_eq_some hs
    exact .inr ⟨by rintro _ ⟨⟩, rfl⟩
  | client d e =>
    obtain ⟨_, _, -, -, -, ⟨rfl, rfl⟩ | ⟨_, _, -, -, rfl, rfl⟩⟩ := clientStep_eq_some hs
    · exact .inr ⟨by rintro _ ⟨⟩, rfl⟩
    · exact .inr ⟨by rintro _ ⟨⟩, rfl⟩

theorem step_grows (hs : LogTail.step cfg σ ev = some (σ', done)) : Grows σ σ' := by
  constructor
  · rcases log_step hs with ⟨e, logDone, -, hlog⟩ | ⟨-, hlog⟩
    · exact LogSystem.log_extends hlog
    · rw [hlog]
  · cases ev with
    | log e =>
      obtain ⟨q, -, heq⟩ := Option.map_eq_some_iff.1 hs
      cases heq
      exact fun _ => List.prefix_rfl
    | getTail d =>
      obtain ⟨-, -, rfl⟩ := getTail_eq_some hs
      exact (Function.forall_update_iff σ.called fun d' l => σ.called d' <+: l).2
        ⟨List.prefix_append .., fun _ _ => List.prefix_rfl⟩
    | switch e =>
      obtain ⟨_, _, -, -, -, rfl⟩ := switchStep_eq_some hs
      exact fun _ => List.prefix_rfl
    | client d e =>
      obtain ⟨_, _, -, -, -, ⟨-, rfl⟩ | ⟨_, _, -, -, -, rfl⟩⟩ := clientStep_eq_some hs
      · exact fun _ => List.prefix_rfl
      · exact fun _ => List.prefix_rfl

/-- What a step has to keep: the invariant, and a call that returns has an answer, if its nonce was
not used before. -/
structure Stepped (cfg : Config C D S τ) (σ σ' : LogTail C D S τ) (done : Done C D S) : Prop where
  inv : Inv cfg σ'
  returned : ∀ d k idx, done = .returned d k idx → (σ.called d).length ≤ 2 ^ 32 →
    σ.Answered d k idx

omit [DecidableEq D] in
theorem Inv.logStep (h : Inv cfg σ) {ev : LogSystem.Event C S τ} {log : LogSystem C S τ}
    {logDone : LogSystem.Done C S} (hvalid : LogSystem.Valid cfg.toConfig ev)
    (hlt : log.log.length < 2 ^ 32)
    (hs : σ.log.step cfg.toConfig ev = some (log, logDone)) :
    Stepped cfg σ { σ with log := log } (.log logDone) := by
  have hg : Grows σ { σ with log := log } := ⟨LogSystem.log_extends hs, fun _ => List.prefix_rfl⟩
  exact ⟨h.mono hg (h.log.step hvalid hlt hs).inv (fun _ _ => .inl) (fun _ => .inl) (fun _ => .inl)
    (fun _ => .inl) (fun _ _ => .inl) h.nonce h.busy, by rintro _ _ _ ⟨⟩⟩

omit [DecidableEq C] [DecidableEq S] [DecidableEq τ] in
/-- What holds of the client `d` as it becomes, and of all as they were, holds of all. -/
theorem forall_update {β γ : Type} {f : D → β} {g : D → γ} {P : D → β → γ → Prop} {b : β} {c : γ}
    (hself : P d b c) (hall : ∀ d', P d' (f d') (g d')) (d' : D) :
    P d' (Function.update f d b d') (Function.update g d c d') := by
  by_cases hd : d' = d
  · subst hd
    simpa using hself
  · simpa [Function.update_of_ne hd] using hall d'

omit [DecidableEq C] [DecidableEq S] [DecidableEq τ] in
/-- A step of the client `d`, with the calls that it has made then and the requests on the way. -/
theorem Inv.update (h : Inv cfg σ) {q : TailClient} {requests : List (List Byte)}
    {calls : List Nat} (hcalls : σ.called d <+: calls)
    (hbound : ∀ n ∈ calls, n ≤ σ.log.log.length)
    (hrequests : ∀ data ∈ requests, data ∈ σ.requests ∨
      ∃ k < calls.length, IsTailReq (cfg.tailClient d) (cfg.callNonce d k) data)
    (hpending : ∀ pkt ∈ q.threads.pending .tailRespQ,
      pkt ∈ (σ.clients d).threads.pending .tailRespQ ∨ Answers cfg σ d pkt)
    (hnonce : q.tailNonce = cfg.callNonce d (if q.waiting then calls.length - 1 else calls.length))
    (hbusy : q.waiting = true → 0 < calls.length) :
    Inv cfg { σ with
      clients := Function.update σ.clients d q, requests := requests,
      called := Function.update σ.called d calls } := by
  have hg : Grows σ { σ with
      clients := Function.update σ.clients d q, requests := requests,
      called := Function.update σ.called d calls } :=
    ⟨List.prefix_rfl, (Function.forall_update_iff σ.called fun d' l => σ.called d' <+: l).2
      ⟨hcalls, fun _ _ => List.prefix_rfl⟩⟩
  refine h.mono hg h.log ?_ ?_ (fun _ => .inl) (fun _ => .inl) ?_ ?_ ?_
  · exact (Function.forall_update_iff σ.called fun d' l =>
      ∀ n ∈ l, n ∈ σ.called d' ∨ n ≤ σ.log.log.length).2
        ⟨fun n hn => .inr (hbound n hn), fun _ _ _ => .inl⟩
  · intro data hdata
    refine (hrequests data hdata).imp_right fun ⟨k, hk, hreq⟩ => ⟨d, k, ?_, hreq⟩
    simpa using hk
  · exact (Function.forall_update_iff σ.clients fun d' q => ∀ pkt ∈ q.threads.pending .tailRespQ,
      pkt ∈ (σ.clients d').threads.pending .tailRespQ ∨ Answers cfg _ d' pkt).2
        ⟨fun pkt hpkt => (hpending pkt hpkt).imp_right (·.mono hg), fun _ _ _ => .inl⟩
  · exact forall_update (P := fun d' (q : TailClient) (l : List Nat) =>
      q.tailNonce = cfg.callNonce d' (if q.waiting then l.length - 1 else l.length)) hnonce h.nonce
  · exact forall_update (P := fun _ (q : TailClient) (l : List Nat) =>
      q.waiting = true → 0 < l.length) hbusy h.busy

omit [DecidableEq C] [DecidableEq S] [DecidableEq τ] in
theorem Inv.getTail (h : Inv cfg σ) (hs : σ.getTail cfg d = some (σ', done)) :
    Stepped cfg σ σ' done := by
  obtain ⟨hidle, rfl, rfl⟩ := getTail_eq_some hs
  have hnonce : (σ.clients d).tailNonce = cfg.callNonce d (σ.called d).length := by
    rw [h.nonce d, completed, hidle]
    rfl
  refine ⟨h.update (List.prefix_append ..) ?_ ?_ (fun _ => .inl) ?_ (fun _ => by simp),
    by rintro _ _ _ ⟨⟩⟩
  · exact List.forall_mem_append.2 ⟨h.called d, List.forall_mem_singleton.2 (Nat.le_refl _)⟩
  · intro data hdata
    refine (List.mem_append.1 hdata).imp_right fun hnew => ⟨(σ.called d).length, by simp, ?_⟩
    rw [List.mem_singleton.1 hnew, IsTailReq, hnonce]
    exact List.take_of_length_le (Nat.le_of_eq (length_tailPacket ..))
  · simpa using hnonce

omit [DecidableEq C] [DecidableEq D] [DecidableEq S] [DecidableEq τ] in
theorem Inv.switchStep (h : Inv cfg σ) (hlt : σ'.log.log.length < 2 ^ 32)
    (hs : σ.switchStep e = some (σ', done)) : Stepped cfg σ σ' done := by
  obtain ⟨switch, o, hbrings, hstep, rfl, rfl⟩ := switchStep_eq_some hs
  have hg : Grows σ { σ with
      switch := switch, replies := σ.replies ++ answer σ.log.maxIdx o } :=
    ⟨List.prefix_rfl, fun _ => List.prefix_rfl⟩
  refine ⟨h.mono hg h.log (fun _ _ => .inl) (fun _ => .inl) ?_ ?_ (fun _ _ => .inl) h.nonce h.busy,
    by rintro _ _ _ ⟨⟩⟩
  · intro pkt hpkt
    refine (ReceiverThreads.mem_step hstep (List.mem_append_right _ hpkt)).imp_right fun hcopy => ?_
    obtain ⟨data, hdata, heq⟩ := copy_of_brings Component.takes_tailReq
      (fun data hdata => (h.requests data hdata).length) hbrings hcopy
    exact ((h.requests data hdata).congr heq).mono hg
  · intro r hr
    refine (List.mem_append.1 hr).imp_right fun hnew => ?_
    obtain ⟨recv, rfl⟩ := handled_of_mem_answer hnew
    obtain ⟨-, hpkt⟩ :=
      ReceiverThreads.handled_event hstep (Handoff.handedBy_handled PacketQueue.tailReqQ recv)
    obtain ⟨d, haddr, hans⟩ := h.answered hlt (h.switch recv hpkt) hnew
    exact ⟨d, haddr, hans.mono hg⟩

omit [DecidableEq C] [DecidableEq S] [DecidableEq τ] in
/-- A step of a client that makes no call. -/
theorem Inv.updateClient (h : Inv cfg σ) {q : TailClient}
    (hpending : ∀ pkt ∈ q.threads.pending .tailRespQ,
      pkt ∈ (σ.clients d).threads.pending .tailRespQ ∨ Answers cfg σ d pkt)
    (hnonce : q.tailNonce = cfg.callNonce d
      (if q.waiting then (σ.called d).length - 1 else (σ.called d).length))
    (hbusy : q.waiting = true → 0 < (σ.called d).length) :
    Inv cfg { σ with clients := Function.update σ.clients d q } := by
  simpa only [Function.update_eq_self] using
    h.update List.prefix_rfl (h.called d) (fun _ => .inl) hpending hnonce hbusy

omit [DecidableEq C] [DecidableEq D] [DecidableEq S] [DecidableEq τ] in
/-- What the call may find after a step was there before, or answers a call of this client. -/
theorem Inv.pending_client (h : Inv cfg σ) {threads : ReceiverThreads}
    (hbrings : Brings (sentTo cfg σ d) ethTailResp e = true)
    (hstep : (σ.clients d).threads.step .client e = some (threads, o)) :
    ∀ pkt ∈ threads.pending .tailRespQ,
      pkt ∈ (σ.clients d).threads.pending .tailRespQ ∨ Answers cfg σ d pkt := by
  have hsent : ∀ data ∈ sentTo cfg σ d, Answers cfg σ d data := by
    intro data hdata
    obtain ⟨r, hr, rfl⟩ := List.mem_map.1 hdata
    obtain ⟨hr, haddr⟩ := List.mem_filter.1 hr
    obtain ⟨d', haddr', hans⟩ := h.replies r hr
    have hd : d' = d := cfg.tail_addr_injective (haddr'.symm.trans (of_decide_eq_true haddr))
    exact hd ▸ hans
  intro pkt hpkt
  refine (ReceiverThreads.mem_step hstep (List.mem_append_right _ hpkt)).imp_right fun hcopy => ?_
  obtain ⟨data, hdata, heq⟩ := copy_of_brings Component.takes_tailResp
    (fun data hdata => (hsent data hdata).length) hbrings hcopy
  exact (hsent data hdata).congr heq

omit [DecidableEq C] [DecidableEq D] [DecidableEq S] [DecidableEq τ] in
/-- A packet that the waiting call takes for its answer is one. -/
theorem Inv.accepted (h : Inv cfg σ) (hbusy : (σ.clients d).waiting = true)
    (hfew : (σ.called d).length ≤ 2 ^ 32)
    (hpkt : pkt ∈ (σ.clients d).threads.pending .tailRespQ)
    (hresp : LogClient.tailResp (σ.clients d).tailNonce pkt = some idx) :
    σ.Answered d ((σ.called d).length - 1) idx := by
  have hpos := h.busy d hbusy
  obtain ⟨k, idx', hisresp, n, hn, hbounds⟩ := h.clients d pkt hpkt
  obtain ⟨hsame, rfl⟩ := hisresp.returned hresp
  rw [h.nonce d, completed, if_pos hbusy] at hsame
  have hk := (List.getElem?_eq_some_iff.1 hn).1
  rw [callNonce_injective (by omega) (by omega) hsame]
  exact ⟨n, hn, hbounds⟩

omit [DecidableEq C] [DecidableEq S] [DecidableEq τ] in
theorem Inv.clientStep (h : Inv cfg σ) (hs : σ.clientStep cfg d e = some (σ', done)) :
    Stepped cfg σ σ' done := by
  obtain ⟨threads, o, hbrings, htakes, hstep, hdone⟩ := clientStep_eq_some hs
  have hpending := h.pending_client hbrings hstep
  rcases hdone with ⟨rfl, rfl⟩ | ⟨recv, idx, rfl, hresp, rfl, rfl⟩
  · exact ⟨h.updateClient hpending (h.nonce d) (h.busy d), by rintro _ _ _ ⟨⟩⟩
  · obtain ⟨rfl, hpkt⟩ :=
      ReceiverThreads.handled_event hstep (Handoff.handedBy_handled PacketQueue.tailRespQ recv)
    have hbusy : (σ.clients d).waiting = true := htakes
    have hnonce : (σ.clients d).tailNonce + 1 = cfg.callNonce d (σ.called d).length := by
      rw [h.nonce d, completed, if_pos hbusy]
      exact callNonce_succ (h.busy d hbusy)
    refine ⟨h.updateClient hpending hnonce (by rintro ⟨⟩), ?_⟩
    rintro d' k idx' ⟨⟩ hfew
    exact h.accepted hbusy hfew hpkt hresp

/-- What the entry of a client must be like, when it appends. -/
def Valid (cfg : Config C D S τ) : Event C D S τ → Prop
  | .log e => LogSystem.Valid cfg.toConfig e
  | _ => True

theorem Inv.step (h : Inv cfg σ) (hvalid : Valid cfg ev) (hlt : σ'.log.log.length < 2 ^ 32)
    (hs : LogTail.step cfg σ ev = some (σ', done)) : Stepped cfg σ σ' done := by
  cases ev with
  | log e =>
    obtain ⟨⟨log, logDone⟩, hlog, heq⟩ := Option.map_eq_some_iff.1 hs
    cases heq
    exact h.logStep hvalid hlt hlog
  | getTail d => exact h.getTail hs
  | switch e => exact h.switchStep hlt hs
  | client d e => exact h.clientStep hs

/-! ## Runs -/

/-- The numbers fit in their field, and the nonces of a client are different. -/
structure Few (σ : LogTail C D S τ) : Prop where
  log : σ.log.log.length < 2 ^ 32
  called : ∀ d, (σ.called d).length ≤ 2 ^ 32

omit [DecidableEq C] [DecidableEq D] [DecidableEq S] [DecidableEq τ] in
theorem Few.before (h : Few σ') (hg : Grows σ σ') : Few σ :=
  ⟨Nat.lt_of_le_of_lt hg.log.length_le h.log,
    fun d => Nat.le_trans (hg.called d).length_le (h.called d)⟩

structure Kept (cfg : Config C D S τ) (tr : List (Event C D S τ × Done C D S))
    (σ : LogTail C D S τ) : Prop where
  inv : Inv cfg σ
  returned : ∀ ev d k idx, (ev, .returned d k idx) ∈ tr → σ.Answered d k idx

theorem kept_run (hr : (machine cfg).Run (start cfg) tr σ) (hvalid : ∀ x ∈ tr, Valid cfg x.1)
    (hfew : Few σ) : Kept cfg tr σ := by
  refine hr.invariant (I := Kept cfg) (B := Few) (A := Valid cfg)
    (fun _ _ _ _ _ hs hb => hb.before (step_grows hs)) ?_ hvalid ⟨inv_start cfg, ?_⟩ hfew
  · intro tr σ ev σ' done he hkept hb hs
    have hstepped := hkept.inv.step he hb.log hs
    have hg := step_grows hs
    refine ⟨hstepped.inv, fun ev' d k idx hmem => ?_⟩
    rcases List.mem_append.1 hmem with hold | hnew
    · exact (hkept.returned ev' d k idx hold).mono hg
    · cases List.mem_singleton.1 hnew
      exact (hstepped.returned d k idx rfl ((hb.before hg).called d)).mono hg
  · rintro _ _ _ _ ⟨⟩

/-- What a call needs: its request is on the way, and the threads can do their work. -/
structure Served (cfg : Config C D S τ) (σ : LogTail C D S τ) : Prop where
  switch : σ.switch.Sound .softwareSwitch
  clients : ∀ d, (σ.clients d).threads.Sound .client
  asked : ∀ d, (σ.clients d).waiting = true →
    (cfg.tailClient d).tailPacket (σ.clients d).tailNonce ∈ σ.requests

omit [DecidableEq C] [DecidableEq S] [DecidableEq τ] in
theorem Served.update (h : Served cfg σ) {q : TailClient} {requests : List (List Byte)}
    {called : D → List Nat} (hthreads : q.threads.Sound .client)
    (hrequests : ∀ data ∈ σ.requests, data ∈ requests)
    (hasked : q.waiting = true → (cfg.tailClient d).tailPacket q.tailNonce ∈ requests) :
    Served cfg { σ with
      clients := Function.update σ.clients d q, requests := requests, called := called } where
  switch := h.switch
  clients := (Function.forall_update_iff σ.clients fun _ q => q.threads.Sound .client).2
    ⟨hthreads, fun d' _ => h.clients d'⟩
  asked := (Function.forall_update_iff σ.clients fun d' q =>
      q.waiting = true → (cfg.tailClient d').tailPacket q.tailNonce ∈ requests).2
    ⟨hasked, fun d' _ hw => hrequests _ (h.asked d' hw)⟩

theorem Served.step (h : Served cfg σ) (hs : LogTail.step cfg σ ev = some (σ', done)) :
    Served cfg σ' := by
  cases ev with
  | log e =>
    obtain ⟨q, -, heq⟩ := Option.map_eq_some_iff.1 hs
    cases heq
    exact ⟨h.switch, h.clients, h.asked⟩
  | getTail d =>
    obtain ⟨-, -, rfl⟩ := getTail_eq_some hs
    exact h.update (h.clients d) (fun _ => List.mem_append_left _)
      (fun _ => List.mem_append_right _ (List.mem_singleton_self _))
  | switch e =>
    obtain ⟨switch, o, -, hstep, -, rfl⟩ := switchStep_eq_some hs
    exact ⟨h.switch.step hstep, h.clients, h.asked⟩
  | client d e =>
    obtain ⟨threads, o, -, -, hstep, hdone⟩ := clientStep_eq_some hs
    have hsound := (h.clients d).step hstep
    rcases hdone with ⟨-, rfl⟩ | ⟨_, _, -, -, -, rfl⟩
    · exact h.update hsound (fun _ => id) (h.asked d)
    · exact h.update hsound (fun _ => id) (by rintro ⟨⟩)

theorem served_run (hr : (machine cfg).Run (start cfg) tr σ) : Served cfg σ := by
  refine hr.invariant (I := fun _ => Served cfg) (B := fun _ => True) (A := fun _ => True)
    (fun _ _ _ _ _ _ _ => trivial) (fun _ _ _ _ _ _ h _ hs => h.step hs) (fun _ _ => trivial)
    ⟨ReceiverThreads.sound_begin _ _, fun _ => ReceiverThreads.sound_begin _ _, ?_⟩ trivial
  rintro _ ⟨⟩

theorem brings_of_internal {sent : List (List Byte)} {type : BitVec 16}
    (h : e.Internal ∨ e = .recvPacket data []) (hmem : data ∈ sent) :
    Brings sent type e = true := by
  rcases h with (rfl | ⟨k, rfl⟩) | rfl
  · rfl
  · rfl
  · simp [Brings, hmem]

theorem switch_step {t : ReceiverThreads} (hbrings : Brings σ.requests ethTailReq e = true)
    (hs : (ReceiverThreads.machine .softwareSwitch).step σ.switch e = some (t, o)) :
    (machine cfg).step σ (.switch e) = some ({ σ with
      switch := t, replies := σ.replies ++ answer σ.log.maxIdx o }, .internal) := by
  change LogTail.switchStep σ e = _
  rw [LogTail.switchStep, if_pos hbrings,
    show σ.switch.step .softwareSwitch e = some (t, o) from hs]
  rfl

/-- The threads of the switch take their steps here, and leave the rest alone. -/
theorem switch_lift {t : ReceiverThreads}
    {trs : List (ReceiverThreads.Event × ReceiverThreads.Done)}
    (hr : (ReceiverThreads.machine .softwareSwitch).Run σ.switch trs t)
    (hbrings : ∀ x ∈ trs, Brings σ.requests ethTailReq x.1 = true) :
    ∃ replies, (machine cfg).Run σ (trs.map fun x => (.switch x.1, .internal))
      { σ with switch := t, replies := σ.replies ++ replies } := by
  induction hr with
  | nil => exact ⟨[], by simpa using Machine.Run.nil σ⟩
  | @snoc t t' trs e o _ hs ih =>
    obtain ⟨hbefore, he⟩ := List.forall_mem_append.1 hbrings
    obtain ⟨replies, hr⟩ := ih hbefore
    refine ⟨replies ++ answer σ.log.maxIdx o, ?_⟩
    rw [List.map_append]
    refine hr.snoc ?_
    rw [← List.append_assoc]
    exact switch_step (he (e, o) (List.mem_singleton_self _)) hs

/-- The waiting call of a client returns in some run, in which the log stays as it is. -/
def CanReturn (cfg : Config C D S τ) (σ : LogTail C D S τ) (d : D) : Prop :=
  ∃ tr σ' e idx, (machine cfg).Run σ
      (tr ++ [(.client d e, .returned d ((σ.called d).length - 1) idx)]) σ' ∧
    (∀ x ∈ tr, Valid cfg x.1) ∧ σ'.log = σ.log ∧ σ'.called = σ.called

/-- A step of the threads of a client that waits. -/
theorem client_step {t : ReceiverThreads} (hwaiting : (σ.clients d).waiting = true)
    (hbrings : Brings (sentTo cfg σ d) ethTailResp e = true)
    (hs : (ReceiverThreads.machine .client).step (σ.clients d).threads e = some (t, o)) :
    (machine cfg).step σ (.client d e) =
      some ({ σ with
          clients := Function.update σ.clients d ((σ.clients d).settle t o).1 },
        match ((σ.clients d).settle t o).2 with
        | some idx => .returned d ((σ.called d).length - 1) idx
        | none => .internal) := by
  have htakes : (σ.clients d).Takes e = true := by
    unfold TailClient.Takes
    split
    · exact hwaiting
    · rfl
  change LogTail.clientStep cfg σ d e = _
  rw [LogTail.clientStep, if_pos ⟨hbrings, htakes⟩,
    show (σ.clients d).threads.step .client e = some (t, o) from hs]
  rfl

/-- The threads of a client take their steps here, until the call returns. -/
theorem client_lift {t : ReceiverThreads}
    {trs : List (ReceiverThreads.Event × ReceiverThreads.Done)}
    (hr : (ReceiverThreads.machine .client).Run (σ.clients d).threads trs t)
    (hwaiting : (σ.clients d).waiting = true)
    (hbrings : ∀ x ∈ trs, Brings (sentTo cfg σ d) ethTailResp x.1 = true) :
    CanReturn cfg σ d ∨ ∃ tr, (machine cfg).Run σ tr { σ with
      clients := Function.update σ.clients d { σ.clients d with threads := t } } ∧
        ∀ x ∈ tr, Valid cfg x.1 := by
  induction hr with
  | nil => exact .inr ⟨[], by simpa using Machine.Run.nil σ, List.forall_mem_nil _⟩
  | @snoc t t' trs e o _ hs ih =>
    obtain ⟨hbefore, he⟩ := List.forall_mem_append.1 hbrings
    rcases ih hbefore with hreturn | ⟨tr, hr, hvalid⟩
    · exact .inl hreturn
    · have hb : Brings (sentTo cfg σ d) ethTailResp e = true := he (e, o) (List.mem_singleton_self _)
      have hstep : (machine cfg).step { σ with
          clients := Function.update σ.clients d { σ.clients d with threads := t } }
            (.client d e) = _ :=
        client_step (by simpa using hwaiting) hb (by simpa using hs)
      simp only [Function.update_self, Function.update_idem] at hstep
      rcases settle_cases { σ.clients d with threads := t } t' o with hnone | ⟨_, idx, -, -, hsome⟩
      · rw [hnone] at hstep
        exact .inr ⟨_, hr.snoc hstep,
          List.forall_mem_append.2 ⟨hvalid, List.forall_mem_singleton.2 trivial⟩⟩
      · rw [hsome] at hstep
        exact .inl ⟨tr, _, e, idx, hr.snoc hstep, hvalid, rfl, rfl⟩

omit [DecidableEq C] [DecidableEq D] [DecidableEq S] [DecidableEq τ] in
/-- A packet of the tail's size is copied as it is. -/
theorem copy_tail {c : Component} {q : PacketQueue} {type : BitVec 16} {data : List Byte}
    (htakes : c.Takes q type sizeofTail) (hlen : data.length = sizeofTail)
    (htype : ntohs (load16 data 0) = type) (normBuf : List Byte) :
    (ReceiverThreads.Event.recvPacket data []).copy c q normBuf = some data := by
  have hframed : ReceiverThreads.Framed type sizeofTail data :=
    ⟨by rw [hlen]; decide, fun _ => hlen.ge⟩
  rw [ReceiverThreads.copy_of_takes htakes (by decide) hframed, if_pos htype, List.append_nil,
    List.take_of_length_le hlen.le]

/-- The switch can answer a waiting call. -/
theorem Served.exists_reply (h : Served cfg σ) (hinv : Inv cfg σ)
    (hlt : σ.log.log.length < 2 ^ 32) (hwaiting : (σ.clients d).waiting = true)
    (hstop : σ.switch.threads.stop = false) :
    ∃ tr switch replies reply, (machine cfg).Run σ tr
        { σ with switch := switch, replies := replies } ∧ (∀ x ∈ tr, Valid cfg x.1) ∧
      ⟨(cfg.tailClient d).addr, reply⟩ ∈ replies ∧ reply.length = sizeofTail ∧
        IsTailResp (σ.clients d).tailNonce σ.log.maxIdx reply := by
  set data := (cfg.tailClient d).tailPacket (σ.clients d).tailNonce with hdata
  have hmem : data ∈ σ.requests := h.asked d hwaiting
  have hlen : data.length = sizeofTail := length_tailPacket _ _
  have hmax : σ.log.maxIdx.toNat < 2 ^ 32 := by
    rw [hinv.log.maxIdx, LogSystem.toNat_ofNat_lt hlt]
    exact hlt
  obtain ⟨trs, t, t', hr, hs, hevents⟩ := h.switch.exists_handled hstop
    (show PacketQueue.tailReqQ ∈ Component.softwareSwitch.readers by decide)
    (copy_tail Component.takes_tailReq hlen (type_tailPacket _ _) σ.switch.normBuf)
  obtain ⟨replies, hr'⟩ : ∃ replies, (machine cfg).Run σ
      (trs.map fun x => (.switch x.1, .internal))
      { σ with switch := t, replies := σ.replies ++ replies } :=
    switch_lift hr fun x hx => brings_of_internal (hevents x hx) hmem
  obtain ⟨reply, hreply, hsize, hresp⟩ := tailReply_request
    (List.take_of_length_le hlen.le : IsTailReq _ _ data) hmax
  have hstep : (machine cfg).step { σ with switch := t, replies := σ.replies ++ replies }
      (.switch (.reader .tailReqQ)) = _ := switch_step rfl hs
  simp only [answer, hreply] at hstep
  refine ⟨_, t', _, reply, hr'.snoc hstep, ?_, List.mem_append_right _ (List.mem_singleton_self _),
    hsize, hresp⟩
  refine List.forall_mem_append.2 ⟨?_, List.forall_mem_singleton.2 trivial⟩
  exact List.forall_mem_map.2 fun _ _ => trivial

/-- A waiting call can return once its answer is on the way. -/
theorem canReturn_of_reply (hsound : (σ.clients d).threads.Sound .client)
    (hwaiting : (σ.clients d).waiting = true)
    (hstop : (σ.clients d).threads.threads.stop = false) {reply : List Byte}
    (hmem : reply ∈ sentTo cfg σ d) (hlen : reply.length = sizeofTail)
    (hresp : IsTailResp (σ.clients d).tailNonce idx reply) : CanReturn cfg σ d := by
  obtain ⟨trs, t, t', hr, hs, hevents⟩ := hsound.exists_handled hstop
    (show PacketQueue.tailRespQ ∈ Component.client.readers by decide)
    (copy_tail Component.takes_tailResp hlen hresp.type (σ.clients d).threads.normBuf)
  rcases client_lift hr hwaiting fun x hx => brings_of_internal (hevents x hx) hmem with
    hreturn | ⟨tr, hr', hvalid⟩
  · exact hreturn
  · have hstep : (machine cfg).step { σ with
        clients := Function.update σ.clients d { σ.clients d with threads := t } }
          (.client d (.reader .tailRespQ)) = _ :=
      client_step (by simpa using hwaiting) rfl (by simpa using hs)
    simp only [Function.update_self, TailClient.settle, hresp.tailResp_eq] at hstep
    exact ⟨tr, _, _, idx, hr'.snoc hstep, hvalid, rfl, rfl⟩

/-- A call that waits can be answered and return. -/
theorem Served.canReturn (h : Served cfg σ) (hinv : Inv cfg σ)
    (hlt : σ.log.log.length < 2 ^ 32) (hwaiting : (σ.clients d).waiting = true)
    (hswitch : σ.switch.threads.stop = false)
    (hclient : (σ.clients d).threads.threads.stop = false) : CanReturn cfg σ d := by
  obtain ⟨tr₁, switch, replies, reply, hr₁, hvalid₁, hmem, hlen, hresp⟩ :=
    h.exists_reply hinv hlt hwaiting hswitch
  have hsent : reply ∈ sentTo cfg { σ with switch := switch, replies := replies } d :=
    List.mem_map.2 ⟨_, List.mem_filter.2 ⟨hmem, decide_eq_true rfl⟩, rfl⟩
  obtain ⟨tr₂, σ', e, idx, hr₂, hvalid₂, hlog, hcalled⟩ :=
    canReturn_of_reply (σ := { σ with switch := switch, replies := replies })
      (h.clients d) hwaiting hclient hsent hlen hresp
  refine ⟨tr₁ ++ tr₂, σ', e, idx, ?_, List.forall_mem_append.2 ⟨hvalid₁, hvalid₂⟩, hlog, hcalled⟩
  rw [List.append_assoc]
  exact hr₁.append hr₂

/-- **A call of `getTail` can return**, whatever the run so far was, as long as `end_thread` is set
neither at the switch nor at the client. -/
theorem tail_can_return (hr : (machine cfg).Run (start cfg) tr σ)
    (hvalid : ∀ x ∈ tr, Valid cfg x.1) (hfew : Few σ) (hwaiting : (σ.clients d).waiting = true)
    (hswitch : σ.switch.threads.stop = false)
    (hclient : (σ.clients d).threads.threads.stop = false) :
    ∃ tr' σ' e idx, (machine cfg).Run σ
        (tr' ++ [(.client d e, .returned d ((σ.called d).length - 1) idx)]) σ' ∧
      (∀ x ∈ tr', Valid cfg x.1) ∧ σ'.log = σ.log ∧ σ'.called = σ.called :=
  (served_run hr).canReturn (kept_run hr hvalid hfew).inv hfew.log hwaiting hswitch hclient

omit [DecidableEq C] [DecidableEq D] [DecidableEq S] [DecidableEq τ] in
theorem valid_snoc (hvalid : ∀ x ∈ tr, Valid cfg x.1) (ev : Event C D S τ) (hev : Valid cfg ev)
    (done : Done C D S) : ∀ x ∈ tr ++ [(ev, done)], Valid cfg x.1 :=
  List.forall_mem_append.2 ⟨hvalid, List.forall_mem_singleton.2 hev⟩

/-- The log takes its steps here. -/
theorem log_lift {log : LogSystem C S τ} {trl : List (LogSystem.Event C S τ × LogSystem.Done C S)}
    (hr : (LogSystem.machine cfg.toConfig).Run σ.log trl log)
    (hvalid : ∀ x ∈ trl, LogSystem.Valid cfg.toConfig x.1) :
    (machine cfg).Run σ (trl.map fun x => (.log x.1, .log x.2)) { σ with log := log } ∧
      ∀ x ∈ trl.map fun x => ((.log x.1, .log x.2) : Event C D S τ × Done C D S),
        Valid cfg x.1 := by
  refine ⟨?_, List.forall_mem_map.2 hvalid⟩
  clear hvalid
  induction hr with
  | nil => exact .nil σ
  | snoc _ hs ih =>
    rw [List.map_append]
    exact ih.snoc (Option.map_eq_some_iff.2 ⟨_, hs, rfl⟩)

end

/-! ## One client that appends and one that asks -/

def soloConfig : Config Unit Unit Unit Unit where
  toConfig := LogSystem.soloConfig
  tailClient _ := LogClient.sampleClient 1
  tailNonce _ := 0
  tailBuf _ := []
  switchBuf := []
  tail_addr_injective _ _ _ := rfl

theorem exists_append_solo {σ : LogTail Unit Unit Unit Unit}
    (h : LogSystem.Inv soloConfig.toConfig σ.log) (hlt : σ.log.log.length + 1 < 2 ^ 32)
    (hidle : (σ.log.clients ()).waiting = none) : ∃ tr log k n ev,
      (machine soloConfig).Run σ ((.log (.append () [65]), .log (.called () k)) :: tr)
        { σ with log := log } ∧
      (∀ x ∈ (.log (.append () [65]), .log (.called () k)) :: tr, Valid soloConfig x.1) ∧
      log.log.length = σ.log.log.length + 1 ∧ (log.clients ()).waiting = none ∧
      (ev, .log (.returned () k n)) ∈ tr := by
  obtain ⟨trl, log, data, hl, hvalid, hlog, hidle'⟩ := h.exists_returned ⟨1, 1⟩ hlt hidle
    (LogSystem.sends_solo ()) (Nat.le_refl 1)
  obtain ⟨hr, hv⟩ := log_lift hl
    (LogSystem.valid_call (LogSystem.sends_solo ()) hvalid data (.called () _) (.returned () _ _))
  rw [List.map_cons, List.map_append] at hr hv
  exact ⟨_, log, _, _, _, hr, hv, hlog, hidle',
    List.mem_append_right _ (List.mem_singleton_self _)⟩

/-- A tail between two appends. -/
theorem solo_run : ∃ tr₁ tr₂ tr₃ σ k₁ n₁ idx k₂ n₂ ev₁ ev₂ ev₃,
    (machine soloConfig).Run (start soloConfig) (tr₁ ++ (.getTail (), .called () 0) ::
      (tr₂ ++ (.log (.append () [65]), .log (.called () k₂)) :: tr₃)) σ ∧
    (∀ x ∈ tr₁ ++ (.getTail (), .called () 0) ::
      (tr₂ ++ (.log (.append () [65]), .log (.called () k₂)) :: tr₃), Valid soloConfig x.1) ∧
    Few σ ∧ (ev₁, .log (.returned () k₁ n₁)) ∈ tr₁ ∧ (ev₂, .returned () 0 idx) ∈ tr₂ ∧
    (ev₃, .log (.returned () k₂ n₂)) ∈ tr₃ := by
  obtain ⟨tr₁, l₁, k₁, n₁, ev₁, hr₁, hv₁, hlog₁, hidle, hret₁⟩ :=
    exists_append_solo (inv_start soloConfig).log (show 1 < 2 ^ 32 by decide) rfl
  have hlog₁ : l₁.log.length = 1 := hlog₁
  -- the tail
  obtain ⟨σ₂, hcall, hlog₂, hcalled₂, hwaiting, hswitch, hclient⟩ :
      ∃ σ₂, (machine soloConfig).step { start soloConfig with log := l₁ } (.getTail ()) =
          some (σ₂, .called () 0) ∧ σ₂.log = l₁ ∧ (σ₂.called ()).length = 1 ∧
        (σ₂.clients ()).waiting = true ∧ σ₂.switch.threads.stop = false ∧
          (σ₂.clients ()).threads.threads.stop = false :=
    ⟨_, rfl, rfl, rfl, rfl, rfl, rfl⟩
  have hr₂ := hr₁.snoc hcall
  have hv₂ := valid_snoc hv₁ (.getTail ()) trivial (.called () 0)
  have hfew₂ : Few σ₂ :=
    ⟨by rw [hlog₂, hlog₁]; decide, fun _ => by rw [hcalled₂]; decide⟩
  have hinv₂ := (kept_run hr₂ hv₂ hfew₂).inv
  obtain ⟨tr₂, σ₃, e, idx, hr₃, hv₃, hlog₃, hcalled₃⟩ :=
    (served_run hr₂).canReturn hinv₂ hfew₂.log hwaiting hswitch hclient
  rw [hcalled₂, Nat.sub_self] at hr₃
  -- the second append
  obtain ⟨tr₃, l₂, k₂, n₂, ev₃, hr₄, hv₄, hlog₄, -, hret₂⟩ := exists_append_solo (σ := σ₃)
    (hlog₃ ▸ hinv₂.log) (by rw [hlog₃, hlog₂, hlog₁]; decide) (by rw [hlog₃, hlog₂]; exact hidle)
  have hrun := hr₂.append (hr₃.append hr₄)
  have hv := List.forall_mem_append.2 ⟨hv₂, List.forall_mem_append.2
    ⟨valid_snoc hv₃ (.client () e) trivial (.returned () 0 idx), hv₄⟩⟩
  rw [List.append_assoc, List.singleton_append] at hrun hv
  refine ⟨_ :: tr₁, tr₂ ++ [_], tr₃, _, k₁, n₁, idx, k₂, n₂, ev₁, .client () e, ev₃, hrun, hv,
    ⟨?_, fun _ => ?_⟩, List.mem_cons_of_mem _ hret₁,
    List.mem_append_right _ (List.mem_singleton_self _), hret₂⟩
  · change l₂.log.length < 2 ^ 32
    rw [hlog₄, hlog₃, hlog₂, hlog₁]
    decide
  · change (σ₃.called ()).length ≤ 2 ^ 32
    rw [hcalled₃, hcalled₂]
    decide

theorem tail_can_return_solo : ∃ tr σ e idx, (machine soloConfig).Run (start soloConfig)
    ([(.getTail (), .called () 0)] ++ (tr ++ [(.client () e, .returned () 0 idx)])) σ := by
  have hx : (machine soloConfig).exec (start soloConfig) [.getTail ()] =
      some (_, [(.getTail (), .called () 0)]) := rfl
  have hr := Machine.Run.of_exec hx
  obtain ⟨tr, σ, e, idx, hr', -⟩ := tail_can_return (d := ()) hr
    (valid_snoc (List.forall_mem_nil _) (.getTail ()) trivial _)
    ⟨by decide, fun _ => show 1 ≤ 2 ^ 32 by decide⟩ rfl rfl rfl
  exact ⟨tr, σ, e, idx, hr.append hr'⟩

end LogTail

end Pringles.Software
