import Mathlib.Data.List.Perm.Subperm
import Pringles.Software.LogMessages

/-!
# The log service

Clients, the software switch and the storage servers, as they run against each other: `append` of
every client, one thread of `append_request` and one of `append_response`, and any number of threads
of `append_server` at every server. The switch sends the copies of an append to an address, and the
network brings them to the servers behind it.

The network may lose every datagram, and it may reorder them. Between a client and the switch it may
also bring a datagram several times, so what is on the way there never disappears; between the switch
and the servers it brings a datagram once. It changes none, and makes none up. What a party would
read behind one of its buffers has no result here.
-/

namespace Pringles.Software

/-- A datagram that was sent, when all of it lay in the buffer. -/
def Sent.whole (s : Sent) : Option (List Byte) :=
  if s.head.length = s.size then some s.head else none

namespace LogSystem

/-- The parties, with the memory that they do not initialize. No two clients receive at the same
address, and a server sends from none of theirs. -/
structure Config (C S τ : Type) where
  client : C → LogClient
  clientBuf : C → List Byte
  ackThreshold : BitVec 64
  requestBuf : List Byte
  responseSlots : List Slot
  appendSocket : Address
  servers : Address → List S
  serverSlots : S → τ → List Slot
  sendSocket : S → τ → Address
  fits : ∀ c, (client c).packetSize ≤ maxPacketSize
  ready : LogStorage.SlotsReady responseSlots
  serverReady : ∀ s t, LogStorage.SlotsReady (serverSlots s t)
  nodup : ∀ a, (servers a).Nodup
  addr_injective : Function.Injective fun c => (client c).addr
  addr_ne : ∀ s t c, sendSocket s t ≠ (client c).addr

/-- The datagram of a call, with the client that sent it. -/
structure Request (C : Type) where
  client : C
  call : Nat
  data : List Byte

end LogSystem

/-- The parties and the datagrams on the way: requests to the switch, copies to the servers,
acknowledgements with the servers that sent them, and what the switch has sent in response. `entries`
records what the clients were asked to append, `log` whose requests have been numbered, and `counted`
the acknowledgements that the switch has taken; nobody reads them. -/
structure LogSystem (C S τ : Type) where
  clients : C → LogClient.Appending
  maxIdx : BitVec 64
  normBuf : List Byte
  responder : BatchServer AckMap
  servers : S → LogStorage τ
  requests : List (LogSystem.Request C) := []
  copies : List (S × List Byte) := []
  acks : List (S × Datagram) := []
  responses : List Datagram := []
  entries : C → List (List Byte) := fun _ => []
  log : List (C × Nat) := []
  counted : List (S × BitVec 64) := []

namespace LogSystem

variable {C S τ : Type}

inductive Event (C S τ : Type) where
  | append (c : C) (entry : List Byte)
  | request (i : Nat) (stor : Address)
  | recv (s : S) (t : τ) (ds : List (List Byte))
  | handle (s : S) (t : τ)
  | send (s : S) (t : τ)
  | respond (as : List (S × Datagram))
  | receive (c : C) (data : List Byte)

/-- What a step has done for the log. The calls of a client are numbered from zero. -/
inductive Done (C S : Type) where
  | internal
  | called (c : C) (k : Nat)
  | numbered (c : C) (k : Nat)
  | stored (s : S) (n : BitVec 64)
  | returned (c : C) (k : Nat) (idx : BitVec 64)

def start (cfg : Config C S τ) : LogSystem C S τ where
  clients c := .begin (cfg.client c) (cfg.clientBuf c)
  maxIdx := 0
  normBuf := cfg.requestBuf
  responder := ⟨fun _ => none, cfg.responseSlots⟩
  servers s := .start (cfg.serverSlots s)

/-! ## Steps -/

section
variable [DecidableEq C] [DecidableEq S] [DecidableEq τ]

/-- A client begins a call of `append`. -/
def append (σ : LogSystem C S τ) (c : C) (entry : List Byte) :
    Option (LogSystem C S τ × Done C S) := do
  let q ← (σ.clients c).step (.call .append)
  let sent ← (σ.clients c).client.append entry
  let data ← sent.whole
  let k := (σ.entries c).length
  pure ({ σ with
    clients := Function.update σ.clients c q.1
    requests := σ.requests ++ [⟨c, k, data⟩]
    entries := Function.update σ.entries c (σ.entries c ++ [entry]) }, .called c k)

/-- The copies that the network brings of what the switch sends. -/
def copiesOf (cfg : Config C S τ) : Option Sent → Option (List (S × List Byte))
  | none => some []
  | some sent => sent.whole.map fun data => (cfg.servers sent.dest).map fun s => (s, data)

/-- A request arrives at the thread of `append_request`, which chooses `stor` for it. -/
def request (cfg : Config C S τ) (σ : LogSystem C S τ) (i : Nat) (stor : Address) :
    Option (LogSystem C S τ × Done C S) := do
  let r ← σ.requests[i]?
  let q := LogSoftwareSwitch.appendRequest true σ.normBuf ⟨r.data, σ.maxIdx + 1, stor⟩
  let copies ← copiesOf cfg q.2
  pure ({ σ with
    maxIdx := σ.maxIdx + 1
    normBuf := q.1
    copies := σ.copies ++ copies
    log := σ.log ++ [(r.client, r.call)] }, .numbered r.client r.call)

/-- Some of the copies on the way to a server arrive at one of its threads. -/
def recv (cfg : Config C S τ) (σ : LogSystem C S τ) (s : S) (t : τ) (ds : List (List Byte)) :
    Option (LogSystem C S τ × Done C S) :=
  let batch := ds.map fun data => (s, data)
  if batch.Subperm σ.copies then do
    let q ← (σ.servers s).step (.recv t (ds.map fun data => ⟨cfg.appendSocket, data⟩))
    pure ({ σ with
      servers := Function.update σ.servers s q.1
      copies := σ.copies.diff batch }, .internal)
  else none

def handle (σ : LogSystem C S τ) (s : S) (t : τ) : Option (LogSystem C S τ × Done C S) := do
  let q ← (σ.servers s).step (.handle t)
  let done := match q.2 with
    | .handled d _ => .stored s d.seqNo
    | _ => .internal
  pure ({ σ with servers := Function.update σ.servers s q.1 }, done)

/-- The responses of a batch. -/
def sentBy : LogStorage.Done → List Datagram
  | .sent acks => acks.map Prod.snd
  | _ => []

/-- The responses of a thread arrive at the switch if they are sent there. -/
def send (cfg : Config C S τ) (σ : LogSystem C S τ) (s : S) (t : τ) :
    Option (LogSystem C S τ × Done C S) := do
  let q ← (σ.servers s).step (.send t)
  let there := (sentBy q.2).filter fun d => d.addr = cfg.appendSocket
  pure ({ σ with
    servers := Function.update σ.servers s q.1
    acks := σ.acks ++ there.map fun d => (s, ⟨cfg.sendSocket s t, d.data⟩) }, .internal)

/-- Some of the acknowledgements arrive at the thread of `append_response`. -/
def respond (cfg : Config C S τ) (σ : LogSystem C S τ) (as : List (S × Datagram)) :
    Option (LogSystem C S τ × Done C S) :=
  if as.Subperm σ.acks then do
    let q ← σ.responder.turn (appendResponse cfg.ackThreshold) (as.map Prod.snd)
    pure ({ σ with
      responder := q.1
      acks := σ.acks.diff as
      responses := σ.responses ++ q.2
      counted := σ.counted ++ as.map fun a => (a.1, a.2.seqNo) }, .internal)
  else none

/-- A client receives what the switch has sent to its address. -/
def receive (cfg : Config C S τ) (σ : LogSystem C S τ) (c : C) (data : List Byte) :
    Option (LogSystem C S τ × Done C S) :=
  if ⟨(cfg.client c).addr, data⟩ ∈ σ.responses then do
    let q ← (σ.clients c).step (.recv data)
    let done := match q.2 with
      | some idx => .returned c ((σ.entries c).length - 1) idx
      | none => .internal
    pure ({ σ with clients := Function.update σ.clients c q.1 }, done)
  else none

def step (cfg : Config C S τ) (σ : LogSystem C S τ) :
    Event C S τ → Option (LogSystem C S τ × Done C S)
  | .append c entry => σ.append c entry
  | .request i stor => σ.request cfg i stor
  | .recv s t ds => σ.recv cfg s t ds
  | .handle s t => σ.handle s t
  | .send s t => σ.send cfg s t
  | .respond as => σ.respond cfg as
  | .receive c data => σ.receive cfg c data

def machine (cfg : Config C S τ) : Machine (LogSystem C S τ) (Event C S τ) (Done C S) := ⟨step cfg⟩

/-! ## What a step can do -/

variable {cfg : Config C S τ} {σ σ' : LogSystem C S τ} {c : C} {s : S} {t : τ} {i : Nat}
  {stor : Address} {entry data : List Byte} {ds : List (List Byte)} {as : List (S × Datagram)}
  {done : Done C S}

omit [DecidableEq S] [DecidableEq τ] in
theorem append_eq_some (h : σ.append c entry = some (σ', done)) :
    ∃ q sent data, (σ.clients c).step (.call .append) = some q ∧
      (σ.clients c).client.append entry = some sent ∧ sent.whole = some data ∧
      done = .called c (σ.entries c).length ∧
      σ' = { σ with
        clients := Function.update σ.clients c q.1
        requests := σ.requests ++ [⟨c, (σ.entries c).length, data⟩]
        entries := Function.update σ.entries c (σ.entries c ++ [entry]) } := by
  simp only [append, Option.bind_eq_bind, Option.bind_eq_some_iff, Option.pure_def,
    Option.some.injEq, Prod.mk.injEq] at h
  obtain ⟨q, hq, sent, hsent, data, hdata, rfl, rfl⟩ := h
  exact ⟨q, sent, data, hq, hsent, hdata, rfl, rfl⟩

omit [DecidableEq C] [DecidableEq S] [DecidableEq τ] in
theorem request_eq_some (h : σ.request cfg i stor = some (σ', done)) :
    ∃ r normBuf copies, σ.requests[i]? = some r ∧
      copiesOf cfg (LogSoftwareSwitch.appendRequest true σ.normBuf
        ⟨r.data, σ.maxIdx + 1, stor⟩).2 = some copies ∧ done = .numbered r.client r.call ∧
      σ' = { σ with
        maxIdx := σ.maxIdx + 1
        normBuf := normBuf
        copies := σ.copies ++ copies
        log := σ.log ++ [(r.client, r.call)] } := by
  simp only [request, Option.bind_eq_bind, Option.bind_eq_some_iff, Option.pure_def,
    Option.some.injEq, Prod.mk.injEq] at h
  obtain ⟨r, hr, copies, hcopies, rfl, rfl⟩ := h
  exact ⟨r, _, copies, hr, hcopies, rfl, rfl⟩

omit [DecidableEq C] in
theorem recv_eq_some (h : σ.recv cfg s t ds = some (σ', done)) :
    ∃ q, (ds.map fun data => (s, data)).Subperm σ.copies ∧
      (σ.servers s).step (.recv t (ds.map fun data => ⟨cfg.appendSocket, data⟩)) = some q ∧
      done = .internal ∧
      σ' = { σ with
        servers := Function.update σ.servers s q.1
        copies := σ.copies.diff (ds.map fun data => (s, data)) } := by
  simp only [recv, Option.bind_eq_bind, Option.ite_none_right_eq_some, Option.bind_eq_some_iff,
    Option.pure_def, Option.some.injEq, Prod.mk.injEq] at h
  obtain ⟨hsub, q, hq, rfl, rfl⟩ := h
  exact ⟨q, hsub, hq, rfl, rfl⟩

omit [DecidableEq C] in
theorem handle_eq_some (h : σ.handle s t = some (σ', done)) :
    ∃ server d slot, (σ.servers s).step (.handle t) = some (server, .handled d slot) ∧
      done = .stored s d.seqNo ∧
      σ' = { σ with servers := Function.update σ.servers s server } := by
  simp only [handle, Option.bind_eq_bind, Option.bind_eq_some_iff, Option.pure_def,
    Option.some.injEq, Prod.mk.injEq] at h
  obtain ⟨⟨server, o⟩, hq, rfl, rfl⟩ := h
  rcases LogStorage.step_cases hq with ⟨u, ds, he, -⟩ |
    ⟨u, ds, i, d, slot, stor, slot', -, rfl, -⟩ | ⟨u, ds, he, -⟩
  · cases he
  · exact ⟨server, d, slot, hq, rfl, rfl⟩
  · cases he

omit [DecidableEq C] in
theorem send_eq_some (h : σ.send cfg s t = some (σ', done)) :
    ∃ server acks, (σ.servers s).step (.send t) = some (server, .sent acks) ∧ done = .internal ∧
      σ' = { σ with
        servers := Function.update σ.servers s server
        acks := σ.acks ++ ((acks.map Prod.snd).filter fun d => d.addr = cfg.appendSocket).map
          fun d => (s, ⟨cfg.sendSocket s t, d.data⟩) } := by
  simp only [send, Option.bind_eq_bind, Option.bind_eq_some_iff, Option.pure_def,
    Option.some.injEq, Prod.mk.injEq] at h
  obtain ⟨⟨server, o⟩, hq, rfl, rfl⟩ := h
  rcases LogStorage.step_cases hq with ⟨u, ds, he, -⟩ |
    ⟨u, ds, i, d, slot, stor, slot', he, -⟩ | ⟨u, ds, -, -, rfl, -⟩
  · cases he
  · cases he
  · exact ⟨server, _, hq, rfl, rfl⟩

omit [DecidableEq C] [DecidableEq τ] in
theorem respond_eq_some (h : σ.respond cfg as = some (σ', done)) :
    ∃ responder out, as.Subperm σ.acks ∧
      σ.responder.turn (appendResponse cfg.ackThreshold) (as.map Prod.snd) =
        some (responder, out) ∧ done = .internal ∧
      σ' = { σ with
        responder := responder
        acks := σ.acks.diff as
        responses := σ.responses ++ out
        counted := σ.counted ++ as.map fun a => (a.1, a.2.seqNo) } := by
  simp only [respond, Option.bind_eq_bind, Option.ite_none_right_eq_some, Option.bind_eq_some_iff,
    Option.pure_def, Option.some.injEq, Prod.mk.injEq] at h
  obtain ⟨hsub, ⟨responder, out⟩, hq, rfl, rfl⟩ := h
  exact ⟨responder, out, hsub, hq, rfl, rfl⟩

omit [DecidableEq S] [DecidableEq τ] in
theorem receive_eq_some (h : σ.receive cfg c data = some (σ', done)) :
    ∃ client o, ⟨(cfg.client c).addr, data⟩ ∈ σ.responses ∧
      (σ.clients c).step (.recv data) = some (client, o) ∧
      done = (match o with
        | some idx => .returned c ((σ.entries c).length - 1) idx
        | none => .internal) ∧
      σ' = { σ with clients := Function.update σ.clients c client } := by
  simp only [receive, Option.bind_eq_bind, Option.ite_none_right_eq_some, Option.bind_eq_some_iff,
    Option.pure_def, Option.some.injEq, Prod.mk.injEq] at h
  obtain ⟨hmem, ⟨client, o⟩, hq, rfl, rfl⟩ := h
  exact ⟨client, o, hmem, hq, rfl, rfl⟩

end

end LogSystem

end Pringles.Software
