import Pringles.Software.Client

/-!
# The nonces of appends

A client that appends waits for the response with the nonce of its request, and takes the index from
it. Responses to earlier requests may come in at any time and any number of times. As every call has a
nonce of its own, none of them is taken for the response to the current request.

Here `append` is alone with the buffer of the socket, so that a turn of its loop is one step. What a
second thread does to that buffer is the subject of `AppendThreads`.
-/

namespace Pringles.Software

open Bytes

namespace LogClient

inductive AppendCall where
  | append
  | appendStream (streamId : BitVec 32)

/-- A client between two turns of its loop: the call that is waiting for a response, the headers of
all requests sent so far, and the buffer of the socket. -/
structure Appending where
  client : LogClient
  waiting : Option AppendCall := none
  requests : List (List Byte) := []
  normBuf : List Byte

namespace Appending

/-- A call begins and sends its request, or `append` receives a datagram. -/
inductive Event where
  | call (call : AppendCall)
  | recv (data : List Byte)

/-- The headers of the request of a call. -/
def request (c : LogClient) : AppendCall → LogClient
  | .append => c
  | .appendStream streamId => { c with streamId := htonl streamId }

/-- `ntohs(type_hdr->type) == ETH_APPEND_RESP`. -/
def IsResponse (buf : List Byte) : Prop := ntohs (load16 buf 0) = ethAppendResp

instance (buf : List Byte) : Decidable (IsResponse buf) := inferInstanceAs (Decidable (_ = _))

/-- The index in a response, if it is the one that the call waits for. -/
def accept (c : LogClient) (recv : List Byte) : Option (BitVec 64) :=
  if IsResponse recv ∧ ntohl (AppendEntry.nonce recv) = c.appendNonce then
    some (seqNo (AppendEntry.gIdx recv))
  else none

/-- A call returns. -/
def finish (s : Appending) : Appending :=
  { s with client := { s.client with appendNonce := s.client.appendNonce + 1 }, waiting := none }

/-- The end of a turn: the call returns, or it goes on waiting. -/
def settle (s : Appending) (recv : List Byte) : Appending × Option (BitVec 64) :=
  match accept s.client recv with
  | some idx => (s.finish, some idx)
  | none => (s, none)

/-- The begin of a call. -/
def call (s : Appending) (call : AppendCall) : Option Appending :=
  match s.waiting with
  | none =>
    let c := request s.client call
    some { s with client := c, waiting := some call, requests := s.requests ++ [c.headers] }
  | some _ => none

def step (s : Appending) : Event → Option (Appending × Option (BitVec 64))
  | .call call => (s.call call).map fun s => (s, none)
  | .recv data =>
    match s.waiting with
    | some .append =>
      let buf := recvPacket s.normBuf data
      some ({ s with normBuf := buf }.settle buf)
    | _ => none

/-- A response with the nonce of a request that was sent, and the index that the request was
assigned. -/
def AnswersRequest (assigned : Nat → BitVec 64 → Prop) (requests : List (List Byte))
    (buf : List Byte) : Prop :=
  ∃ k headers, requests[k]? = some headers ∧
    AppendEntry.nonce buf = AppendEntry.nonce headers ∧ assigned k (seqNo (AppendEntry.gIdx buf))

/-- The network brings whole packets, and does not forge responses to appends. -/
structure Genuine (assigned : Nat → BitVec 64 → Prop) (requests : List (List Byte))
    (data : List Byte) : Prop where
  length : sizeofRingType ≤ data.length
  headers : IsResponse data → sizeofHeaders ≤ data.length
  entries : IsResponse data → numEntries data ≠ 0
  answers : IsResponse data → AnswersRequest assigned requests data

/-- The calls that are over. -/
def completed (s : Appending) : Nat :=
  if s.waiting.isSome then s.requests.length - 1 else s.requests.length

/-- The `k`-th request has the `k`-th nonce, and the client is at the nonce of its call. -/
structure Inv (start : BitVec 32) (s : Appending) : Prop where
  nonces : ∀ k headers, s.requests[k]? = some headers →
    AppendEntry.nonce headers = htonl (start + BitVec.ofNat 32 k)
  current : s.client.appendNonce = start + BitVec.ofNat 32 s.completed
  busy : s.waiting.isSome → 0 < s.requests.length

variable {assigned : Nat → BitVec 64 → Prop} {start : BitVec 32} {s s' : Appending} {e : Event}
  {o : Option (BitVec 64)} {buf buf' data normBuf : List Byte} {idx : BitVec 64}
  {requests : List (List Byte)}

/-! ## Datagrams -/

theorem AnswersRequest.congr (h : AnswersRequest assigned requests buf)
    (heq : buf'.take sizeofHeaders = buf.take sizeofHeaders) :
    AnswersRequest assigned requests buf' := by
  obtain ⟨k, headers, hk, hnonce, hidx⟩ := h
  have hnonce' : AppendEntry.nonce buf' = AppendEntry.nonce buf :=
    load32_of_take_eq heq (by decide)
  have hidx' : AppendEntry.gIdx buf' = AppendEntry.gIdx buf := load32_of_take_eq heq (by decide)
  exact ⟨k, headers, hk, hnonce'.trans hnonce, hidx' ▸ hidx⟩

theorem AnswersRequest.snoc (h : AnswersRequest assigned requests buf) (headers : List Byte) :
    AnswersRequest assigned (requests ++ [headers]) buf := by
  obtain ⟨k, headers', hk, hanswer⟩ := h
  refine ⟨k, headers', ?_, hanswer⟩
  rw [List.getElem?_append_left (List.getElem?_eq_some_iff.1 hk).1]
  exact hk

theorem Genuine.snoc (h : Genuine assigned requests data) (headers : List Byte) :
    Genuine assigned (requests ++ [headers]) data where
  length := h.length
  headers := h.headers
  entries := h.entries
  answers hresp := (h.answers hresp).snoc headers

/-- What is received is as genuine as the datagram. -/
theorem Genuine.received (h : Genuine assigned requests data) (normBuf : List Byte) :
    Genuine assigned requests (recvPacket normBuf data) := by
  have hhead : ∀ n, n ≤ data.length → n ≤ maxPacketSize →
      (recvPacket normBuf data).take n = data.take n := fun n => take_recvPacket
  have hlen : ∀ n, n ≤ data.length → n ≤ maxPacketSize → n ≤ (recvPacket normBuf data).length := by
    intro n hn hmax
    have hlength := congrArg List.length (hhead n hn hmax)
    rw [List.length_take, List.length_take, Nat.min_eq_left hn] at hlength
    omega
  have hsame := hhead sizeofRingType h.length (by decide)
  have hresp : IsResponse (recvPacket normBuf data) → IsResponse data := by
    rw [IsResponse, load16_of_take_eq hsame (by decide)]
    exact id
  refine ⟨hlen _ h.length (by decide), fun hr => hlen _ (h.headers (hresp hr)) (by decide), ?_, ?_⟩
  · intro hr
    rw [numEntries, load16_of_take_eq hsame (by decide)]
    exact h.entries (hresp hr)
  · intro hr
    exact (h.answers (hresp hr)).congr (hhead _ (h.headers (hresp hr)) (by decide))

/-- A new request has the nonce of the client. -/
theorem nonce_headers (c : LogClient) : AppendEntry.nonce c.headers = htonl c.appendNonce := by
  simp only [AppendEntry.nonce, sizeofRingType, headers, RingType.bytes, RingAppendEntry.bytes,
    List.append_assoc]
  simp only [load32_skip16, load32_skip32, load32_bytes32]
  rfl

/-! ## One turn -/

theorem settle_eq (hresp : IsResponse buf)
    (hnonce : ntohl (AppendEntry.nonce buf) = s.client.appendNonce) :
    s.settle buf = (s.finish, some (seqNo (AppendEntry.gIdx buf))) := by
  have haccept : accept s.client buf = some (seqNo (AppendEntry.gIdx buf)) :=
    if_pos ⟨hresp, hnonce⟩
  rw [Appending.settle, haccept]

theorem settle_eq_self
    (h : ¬ (IsResponse buf ∧ ntohl (AppendEntry.nonce buf) = s.client.appendNonce)) :
    s.settle buf = (s, none) := by
  rw [Appending.settle, accept, if_neg h]

theorem settle_eq_some (h : (s.settle buf).2 = some idx) : IsResponse buf ∧
    ntohl (AppendEntry.nonce buf) = s.client.appendNonce ∧
      idx = seqNo (AppendEntry.gIdx buf) := by
  by_cases hown : IsResponse buf ∧ ntohl (AppendEntry.nonce buf) = s.client.appendNonce
  · rw [settle_eq hown.1 hown.2] at h
    exact ⟨hown.1, hown.2, (Option.some.inj h).symm⟩
  · rw [settle_eq_self hown] at h
    cases h

/-- Fewer than 2^32 nonces in a row are different. -/
theorem nonce_injective {j k : Nat} (hj : j < 2 ^ 32) (hk : k < 2 ^ 32)
    (h : start + BitVec.ofNat 32 j = start + BitVec.ofNat 32 k) : j = k := by
  have hnat := congrArg BitVec.toNat ((BitVec.add_right_inj start).1 h)
  rwa [BitVec.toNat_ofNat, BitVec.toNat_ofNat, Nat.mod_eq_of_lt hj, Nat.mod_eq_of_lt hk] at hnat

theorem call_eq_some {call : AppendCall} (h : s.call call = some s') : s.waiting = none ∧
    s' = { s with
      client := request s.client call, waiting := some call
      requests := s.requests ++ [(request s.client call).headers] } := by
  unfold Appending.call at h
  split at h
  · next hidle => exact ⟨hidle, (Option.some.inj h).symm⟩
  · cases h

namespace Inv

theorem last (h : Inv start s) (hbusy : s.waiting.isSome) :
    s.completed + 1 = s.requests.length := by
  have hpos := h.busy hbusy
  have hcompleted : s.completed = s.requests.length - 1 := if_pos hbusy
  omega

/-- The response with the nonce of the call answers its request. -/
theorem own (h : Inv start s) (hfew : s.requests.length ≤ 2 ^ 32) (hbusy : s.waiting.isSome)
    (hanswer : AnswersRequest assigned s.requests buf)
    (hnonce : ntohl (AppendEntry.nonce buf) = s.client.appendNonce) :
    assigned s.completed (seqNo (AppendEntry.gIdx buf)) := by
  obtain ⟨k, headers, hk, hsame, hassigned⟩ := hanswer
  have hlt : k < s.requests.length := (List.getElem?_eq_some_iff.1 hk).1
  have hlast := h.last hbusy
  rw [hsame, h.nonces k headers hk, ntohl_htonl, h.current] at hnonce
  rw [← nonce_injective (by omega) (by omega) hnonce]
  exact hassigned

/-- A call returns. -/
theorem finish (h : Inv start s) (hbusy : s.waiting.isSome) :
    Inv start s.finish ∧ s.finish.completed = s.completed + 1 := by
  have hlast := h.last hbusy
  have hcompleted : s.finish.completed = s.requests.length := rfl
  refine ⟨⟨h.nonces, ?_, fun hsome => nomatch hsome⟩, hcompleted.trans hlast.symm⟩
  rw [hcompleted, ← hlast, BitVec.ofNat_add, ← BitVec.add_assoc, ← h.current]
  rfl

/-- A call begins. -/
theorem call (h : Inv start s) {call : AppendCall} (hc : s.call call = some s') :
    Inv start s' ∧ s'.completed = s.completed := by
  obtain ⟨hidle, rfl⟩ := call_eq_some hc
  have hcompleted : s.completed = s.requests.length := by rw [completed, hidle]; rfl
  have hnonce : (request s.client call).appendNonce = start + BitVec.ofNat 32 s.requests.length := by
    rw [← hcompleted, ← h.current]
    cases call <;> rfl
  refine ⟨⟨?_, ?_, fun _ => by simp⟩, by simp [completed, hidle]⟩
  · intro k headers hk
    rcases Nat.lt_trichotomy k s.requests.length with hlt | rfl | hgt
    · rw [List.getElem?_append_left hlt] at hk
      exact h.nonces k headers hk
    · rw [List.getElem?_concat_length, Option.some.injEq] at hk
      rw [← hk, nonce_headers, hnonce]
    · rw [List.getElem?_eq_none (by simp; omega)] at hk
      cases hk
  · rw [hnonce, completed]
    simp

end Inv

/-- What a step does to the calls. -/
structure Turned (start : BitVec 32) (s s' : Appending) (o : Option (BitVec 64)) : Prop where
  inv : Inv start s'
  completed : s'.completed = s.completed + o.toList.length
  requests : s.requests.length ≤ s'.requests.length
  busy : ∀ idx, o = some idx → s.completed + 1 = s.requests.length

/-- What a step of a client with these nonces may return, and what it leaves. -/
structure Stepped (assigned : Nat → BitVec 64 → Prop) (start : BitVec 32) (s s' : Appending)
    (o : Option (BitVec 64)) : Prop extends Turned start s s' o where
  assigned : s.requests.length ≤ 2 ^ 32 → ∀ idx, o = some idx → assigned s.completed idx

theorem Turned.silent (h : Inv start s') (hcompleted : s'.completed = s.completed)
    (hrequests : s.requests.length ≤ s'.requests.length) : Turned start s s' none :=
  ⟨h, hcompleted, hrequests, by rintro _ ⟨⟩⟩

theorem Stepped.silent (h : Inv start s') (hcompleted : s'.completed = s.completed)
    (hrequests : s.requests.length ≤ s'.requests.length) : Stepped assigned start s s' none :=
  ⟨.silent h hcompleted hrequests, by rintro _ _ ⟨⟩⟩

/-- The buffer is no part of the discipline. -/
theorem Inv.receive (h : Inv start s) (buf : List Byte) : Inv start { s with normBuf := buf } :=
  ⟨h.nonces, h.current, h.busy⟩

theorem Inv.settle_turned (h : Inv start s) (hbusy : s.waiting.isSome) (buf : List Byte) :
    Turned start s (s.settle buf).1 (s.settle buf).2 := by
  unfold Appending.settle
  cases accept s.client buf with
  | none => exact .silent h rfl (Nat.le_refl _)
  | some idx =>
    obtain ⟨hinv, hcompleted⟩ := h.finish hbusy
    exact ⟨hinv, hcompleted, Nat.le_refl _, fun _ _ => h.last hbusy⟩

/-- A turn with a buffer that answers a request if it is a response. -/
theorem Inv.settle (h : Inv start s) (hbusy : s.waiting.isSome)
    (hanswers : IsResponse buf → AnswersRequest assigned s.requests buf) :
    Stepped assigned start s (s.settle buf).1 (s.settle buf).2 := by
  refine ⟨h.settle_turned hbusy buf, ?_⟩
  intro hfew idx hidx
  obtain ⟨hresp, hnonce, rfl⟩ := settle_eq_some hidx
  exact h.own hfew hbusy (hanswers hresp) hnonce

theorem recv_eq_some (hs : s.step (.recv data) = some (s', o)) : s.waiting = some .append ∧
    (s', o) = { s with normBuf := recvPacket s.normBuf data }.settle (recvPacket s.normBuf data) := by
  simp only [Appending.step] at hs
  split at hs
  · next hwait => exact ⟨hwait, (Option.some.inj hs).symm⟩
  · cases hs

/-- **A turn keeps the nonces.** -/
theorem Inv.recv_turned (h : Inv start s) (hs : s.step (.recv data) = some (s', o)) :
    Turned start s s' o := by
  obtain ⟨hwait, heq⟩ := recv_eq_some hs
  have hturn := (h.receive (recvPacket s.normBuf data)).settle_turned (by simp [hwait])
    (recvPacket s.normBuf data)
  rw [← heq] at hturn
  exact ⟨hturn.inv, hturn.completed, hturn.requests, hturn.busy⟩

/-- **What a turn returns was assigned to the request of its call.** -/
theorem Inv.recv (h : Inv start s) (hgen : Genuine assigned s.requests data)
    (hs : s.step (.recv data) = some (s', o)) : Stepped assigned start s s' o := by
  refine ⟨h.recv_turned hs, ?_⟩
  obtain ⟨hwait, heq⟩ := recv_eq_some hs
  have hturn := (h.receive (recvPacket s.normBuf data)).settle (by simp [hwait])
    (hgen.received s.normBuf).answers
  rw [← heq] at hturn
  exact hturn.assigned

/-- A client that has not appended yet. -/
def begin (c : LogClient) (normBuf : List Byte) : Appending := ⟨c, none, [], normBuf⟩

theorem inv_begin (c : LogClient) (normBuf : List Byte) :
    Inv c.appendNonce (begin c normBuf) where
  nonces _ _ h := nomatch h
  current := (BitVec.add_zero _).symm
  busy h := nomatch h

end Appending

end LogClient

end Pringles.Software
