import Pringles.Lib.HandoffEnd
import Pringles.Software.AppendNonce
import Pringles.Software.Read

/-!
# The threads of `receiver`

In each of the three programs a thread of `receiver` takes the datagrams from the socket, copies each
into the queue of its type and wakes the thread that waits for this queue. The switch and the storage
server have a thread for each queue that somebody reads; in the client the reader is the call that
waits for a response, and a caller that calls again and again. (The constructors have the lines that
start these threads commented out.)

No copy is lost, handed over twice or overtaken, and none is left in a queue because its reader sleeps
(`handed_over_once`). The append queues of the switch and of the storage server have no reader at all:
appends are received from sockets of their own.

`end_thread` is set without a mutex. A reader that has found it unset and its queue empty at that
moment may go to sleep after the destructor has called `notify_all`, and then nobody wakes it; no other
reader can miss the end (`reader_ends_iff`). `end_thread` is a plain `bool`: here every access to it is
atomic, and two looks at it with nothing in between are one.
-/

namespace Pringles.Software

open Bytes

/-- The queues of packets. -/
inductive PacketQueue where
  | appendReqQ | appendRespQ | readReqQ | readRespQ | tailReqQ | tailRespQ | subQ | subscribeRespQ
deriving DecidableEq

/-! ## The branches of `receiver`

For a packet the queue that its copy goes to, and the size of the copy. -/

def LogClient.branch (buf : List Byte) : Option (PacketQueue × Nat) :=
  let type := ntohs (load16 buf 0)
  let entries := (ntohs (numEntries buf)).toNat
  if type = ethAppendResp then some (.appendRespQ, entries * LogSoftwareSwitch.pktSize buf)
  else if type = ethReadResp then some (.readRespQ, entries * readPktSize buf)
  else if type = ethSubscribeEntry then
    some (.subscribeRespQ, entries * LogSoftwareSwitch.pktSize buf)
  else if type = ethTailResp then some (.tailRespQ, sizeofRingType + sizeofRingTailReq)
  else none

/-- Reads have the number of entries, and read requests the payload size too, as they lie in
memory. -/
def LogSoftwareSwitch.branch (buf : List Byte) : Option (PacketQueue × Nat) :=
  let type := ntohs (load16 buf 0)
  if type = ethAppendResp then some (.appendRespQ, (ntohs (numEntries buf)).toNat * pktSize buf)
  else if type = ethAppendReq then some (.appendReqQ, pktSize buf)
  else if type = ethReadResp then some (.readRespQ, (numEntries buf).toNat * readPktSize buf)
  else if type = ethReadReq then
    some (.readReqQ, (numEntries buf).toNat *
      (sizeofRingType + sizeofRingReadEntry + (ReadEntry.payloadSize buf).toNat + 1))
  else if type = ethSubscribeEntry then some (.subQ, sizeofRingType + sizeofRingSubscribeEntry)
  else if type = ethTailReq then some (.tailReqQ, sizeofRingType + sizeofRingTailReq)
  else none

def LogStorage.branch (buf : List Byte) : Option (PacketQueue × Nat) :=
  let type := ntohs (load16 buf 0)
  let entries := (ntohs (numEntries buf)).toNat
  if type = ethAppendReq then some (.appendReqQ, entries * LogSoftwareSwitch.pktSize buf)
  else if type = ethReadReq then some (.readReqQ, entries * readPktSize buf)
  else none

inductive Component where
  | client
  | softwareSwitch
  | storage

namespace Component

def branch : Component → List Byte → Option (PacketQueue × Nat)
  | client => LogClient.branch
  | softwareSwitch => LogSoftwareSwitch.branch
  | storage => LogStorage.branch

/-- The copy of the packet in `buf`, with what lies behind it. -/
def message (c : Component) (buf behind : List Byte) : Option (PacketQueue × List Byte) :=
  (c.branch buf).map fun b => (b.1, buf.take b.2 ++ behind)

/-- The queues that somebody waits for. -/
def readers : Component → List PacketQueue
  | client => [.appendRespQ, .readRespQ, .subscribeRespQ, .tailRespQ]
  | softwareSwitch => [.readReqQ, .readRespQ, .tailReqQ, .subQ]
  | storage => [.readReqQ]

/-- The queues in the order in which the destructor calls `notify_all` for them. -/
def notified : Component → List PacketQueue
  | client => [.appendRespQ, .readRespQ, .subscribeRespQ, .tailRespQ]
  | softwareSwitch => [.readReqQ, .readRespQ, .tailReqQ, .subQ]
  | storage => []

/-- Only the calls of the client leave when their wait ends with `end_thread` set; the threads of the
servers try to take a packet first. -/
def threads (c : Component) : Handoff.Config PacketQueue where
  works k := c.readers.contains k
  leaves _ := match c with
    | client => true
    | _ => false
  wakes := c.notified

@[simp] theorem works_threads {c : Component} {k : PacketQueue} :
    c.threads.works k = true ↔ k ∈ c.readers := List.contains_iff_mem

theorem notified_readers {c : Component} {k : PacketQueue} (h : k ∈ c.notified) :
    k ∈ c.readers := by
  cases c with
  | client | softwareSwitch => exact h
  | storage => cases h

end Component

namespace Component

/-- `receiver` copies `size` bytes of the packets of a type into the queue, and none of the others. -/
structure Takes (c : Component) (k : PacketQueue) (type : BitVec 16) (size : Nat) : Prop where
  own : ∀ buf, ntohs (load16 buf 0) = type → c.branch buf = some (k, size)
  other : ∀ buf b, ntohs (load16 buf 0) ≠ type → c.branch buf = some b → b.1 ≠ k

theorem takes_tailResp : client.Takes .tailRespQ ethTailResp
    (sizeofRingType + sizeofRingTailReq) where
  own buf h := by
    simp only [branch, LogClient.branch, h]
    rfl
  other buf b h hb := by
    simp only [branch, LogClient.branch, if_neg h] at hb
    split_ifs at hb <;> cases hb <;> simp

theorem takes_tailReq : softwareSwitch.Takes .tailReqQ ethTailReq
    (sizeofRingType + sizeofRingTailReq) where
  own buf h := by
    simp only [branch, LogSoftwareSwitch.branch, h]
    rfl
  other buf b h hb := by
    simp only [branch, LogSoftwareSwitch.branch, if_neg h] at hb
    split_ifs at hb <;> cases hb <;> simp

theorem takes_sub : softwareSwitch.Takes .subQ ethSubscribeEntry
    (sizeofRingType + sizeofRingSubscribeEntry) where
  own buf h := by
    simp only [branch, LogSoftwareSwitch.branch, h]
    rfl
  other buf b h hb := by
    simp only [branch, LogSoftwareSwitch.branch, if_neg h] at hb
    split_ifs at hb <;> cases hb <;> simp

end Component

/-- The buffer of the socket, and the threads with the queues between them. -/
structure ReceiverThreads where
  normBuf : List Byte
  threads : Handoff PacketQueue (List Byte) := {}

namespace ReceiverThreads

/-- `recv_packet` returns with a datagram or after the timeout of the socket; `receiver` or a reader
takes a step; a wait ends by itself; `end_thread` is set; the destructor begins, and goes on to its
next `notify_all`. -/
inductive Event where
  | recvPacket (data behind : List Byte)
  | timeout
  | receiver
  | reader (k : PacketQueue)
  | spurious (k : PacketQueue)
  | endThread
  | destructor
  | notifyAll

/-- What an event is for the threads. -/
def Event.handoff (c : Component) (normBuf : List Byte) :
    Event → Handoff.Event PacketQueue (List Byte)
  | recvPacket data behind => .receive (c.message (Software.recvPacket normBuf data) behind)
  | timeout => .receive none
  | receiver => .produce
  | reader k => .consume k
  | spurious k => .spurious k
  | endThread => .raise
  | destructor => .close
  | notifyAll => .wake

/-- `norm_buf` behind an event. -/
def Event.normBuf (normBuf : List Byte) : Event → List Byte
  | recvPacket data _ => Software.recvPacket normBuf data
  | _ => normBuf

abbrev Done := Handoff.Done PacketQueue (List Byte)

def step (c : Component) (s : ReceiverThreads) (e : Event) : Option (ReceiverThreads × Done) :=
  (s.threads.step c.threads (e.handoff c s.normBuf)).map fun q => (⟨e.normBuf s.normBuf, q.1⟩, q.2)

def machine (c : Component) : Machine ReceiverThreads Event Done := ⟨step c⟩

/-- A step of `receiver` or of a reader, between two datagrams. -/
def Event.Internal (e : Event) : Prop := e = receiver ∨ ∃ k, e = reader k

/-! ## The copies -/

/-- The copy that an event puts into queue `k`. -/
def Event.copy (c : Component) (k : PacketQueue) (normBuf : List Byte) (e : Event) :
    Option (List Byte) :=
  (e.handoff c normBuf).message k

/-- The copies for queue `k` of the datagrams that come in. -/
def copies (c : Component) (k : PacketQueue) : List Byte → List Event → List (List Byte)
  | _, [] => []
  | normBuf, e :: es => (e.copy c k normBuf).toList ++ copies c k (e.normBuf normBuf) es

variable {c : Component} {s s' s₁ : ReceiverThreads} {e : Event} {o : Done} {k : PacketQueue}
  {normBuf data behind : List Byte} {tr tr' : List (Event × Done)} {es es' : List Event}

theorem copies_append : copies c k normBuf (es ++ es') = copies c k normBuf es ++
    copies c k (es.foldl (fun buf e => e.normBuf buf) normBuf) es' := by
  induction es generalizing normBuf with
  | nil => rfl
  | cons e es ih => rw [List.cons_append, copies, copies, ih, List.append_assoc, List.foldl_cons]

theorem Event.Internal.copy (h : e.Internal) : e.copy c k normBuf = none := by
  rcases h with rfl | ⟨j, rfl⟩ <;> rfl

/-- What happens inside the program copies nothing. -/
theorem copies_internal (h : ∀ e ∈ es, e.Internal) : copies c k normBuf es = [] := by
  induction es generalizing normBuf with
  | nil => rfl
  | cons e es ih =>
    obtain ⟨he, hes⟩ := List.forall_mem_cons.1 h
    rw [copies, he.copy, ih hes]
    rfl

/-- A datagram has a type, and one of the type `type` has `size` bytes at least. -/
structure Framed (type : BitVec 16) (size : Nat) (data : List Byte) : Prop where
  typed : 2 ≤ data.length
  uncut : ntohs (load16 data 0) = type → size ≤ data.length

/-- The copy of a datagram of its own type is the datagram, whatever was in the buffer. -/
theorem copy_of_takes {type : BitVec 16} {size : Nat} (h : c.Takes k type size)
    (hle : size ≤ maxPacketSize) (hdata : Framed type size data) (normBuf behind : List Byte) :
    (Event.recvPacket data behind).copy c k normBuf =
      if ntohs (load16 data 0) = type then some (data.take size ++ behind) else none := by
  have htype : load16 (Software.recvPacket normBuf data) 0 = load16 data 0 :=
    load16_of_take_eq (take_recvPacket hdata.typed (by decide)) (by decide)
  simp only [Event.copy, Event.handoff, Component.message]
  split_ifs with hown
  · rw [h.own _ (htype ▸ hown)]
    simp only [Option.map_some, Handoff.Event.message, if_true]
    rw [take_recvPacket (hdata.uncut hown) hle]
  · cases hb : c.branch (Software.recvPacket normBuf data) with
    | none => rfl
    | some b => simp [Handoff.Event.message, h.other _ b (htype ▸ hown) hb]

/-! ## The threads below

A run is one of the threads, and the threads can go on here as they can below. -/

theorem step_eq_some (h : (machine c).step s e = some (s', o)) :
    (Handoff.machine _ c.threads).step s.threads (e.handoff c s.normBuf) = some (s'.threads, o) ∧
      s'.normBuf = e.normBuf s.normBuf := by
  obtain ⟨⟨t, o'⟩, ht, heq⟩ := Option.map_eq_some_iff.1 h
  simp only [Prod.mk.injEq] at heq
  obtain ⟨rfl, rfl⟩ := heq
  exact ⟨ht, rfl⟩

theorem Event.Internal.handoff (h : e.Internal) : (e.handoff c normBuf).Internal := by
  rcases h with rfl | ⟨j, rfl⟩ <;> trivial

/-- The packet that a reader has in hand, and those in its queue. -/
def pending (s : ReceiverThreads) (k : PacketQueue) : List (List Byte) :=
  (s.threads.consumer k).held ++ s.threads.queue k

/-- What a reader processes or has before it after a step was there before, or is the copy of the
datagram. -/
theorem mem_step (h : (machine c).step s e = some (s', o)) {pkt : List Byte}
    (hpkt : pkt ∈ (o.handedBy k).toList ++ s'.pending k) :
    pkt ∈ s.pending k ∨ e.copy c k s.normBuf = some pkt := by
  have hmoves := Handoff.step_moves (step_eq_some h).1 k
  have horder := hmoves.order
  simp only [Handoff.view] at horder
  rw [pending, horder, List.mem_append, Option.mem_toList, hmoves.putIn] at hpkt
  exact hpkt

/-- Only a step of its reader takes a packet from a queue. -/
theorem handled_event (h : (machine c).step s e = some (s', o)) {pkt : List Byte}
    (hpkt : o.handedBy k = some pkt) :
    e = .reader k ∧ pkt ∈ s.pending k := by
  have hevent := (Handoff.step_moves (step_eq_some h).1 k).handed_event hpkt
  have he : e = .reader k := by
    cases e <;> simp [Event.handoff] at hevent
    rw [hevent]
  refine ⟨he, (mem_step h (List.mem_append_left _ (Option.mem_toList.2 hpkt))).resolve_right ?_⟩
  rw [he]
  rintro ⟨⟩

/-- A run of the threads, with the same outputs. -/
theorem run_threads (hr : (machine c).Run s tr s') : ∃ tr₁,
    (Handoff.machine _ c.threads).Run s.threads tr₁ s'.threads ∧
      tr₁.map Prod.snd = tr.map Prod.snd ∧
        ((∀ x ∈ tr, x.1.Internal) → ∀ x ∈ tr₁, x.1.Internal) := by
  induction hr with
  | nil => exact ⟨[], .nil _, rfl, fun h => by simp⟩
  | @snoc s₁ s₂ tr e o _ hs ih =>
    obtain ⟨tr₁, hr₁, heq, hint⟩ := ih
    refine ⟨_, hr₁.snoc (step_eq_some hs).1, by rw [List.map_append, List.map_append, heq]; rfl, ?_⟩
    intro h
    obtain ⟨htr, he⟩ := List.forall_mem_append.1 h
    refine List.forall_mem_append.2 ⟨hint htr, List.forall_mem_singleton.2 ?_⟩
    exact (he (e, o) (List.mem_singleton_self _)).handoff

/-- The buffer of a run, from its datagrams. -/
theorem normBuf_run (hr : (machine c).Run s tr s') :
    s'.normBuf = (tr.map Prod.fst).foldl (fun buf e => e.normBuf buf) s.normBuf := by
  induction hr with
  | nil => rfl
  | snoc _ hs ih =>
    rw [List.map_append, List.foldl_append, ← ih, (step_eq_some hs).2]
    rfl

/-- What `receiver` puts into a queue are the copies for it. -/
theorem copies_eq_puts (hr : (machine c).Run s tr s') (k : PacketQueue) :
    copies c k s.normBuf (tr.map Prod.fst) = Handoff.puts k tr := by
  induction hr with
  | nil => rfl
  | @snoc s₁ s₂ tr e o hr₁ hs ih =>
    have hcopy : o.putIn k = e.copy c k s₁.normBuf :=
      (Handoff.step_moves (step_eq_some hs).1 k).putIn
    rw [Handoff.puts_snoc, List.map_append, copies_append, ih, hcopy, normBuf_run hr₁]
    simp [copies]

/-- An event of the threads, but not a datagram, in the words of the program. -/
def Event.ofHandoff : Handoff.Event PacketQueue (List Byte) → Event
  | .receive _ => timeout
  | .produce => receiver
  | .consume k => reader k
  | .spurious k => spurious k
  | .raise => endThread
  | .close => destructor
  | .wake => notifyAll

theorem Event.handoff_ofHandoff {e : Handoff.Event PacketQueue (List Byte)} (h : e.Closed) :
    (ofHandoff e).handoff c normBuf = e ∧ (ofHandoff e).normBuf normBuf = normBuf := by
  cases e with
  | receive => exact h.elim
  | _ => exact ⟨rfl, rfl⟩

theorem step_of_threads {t t' : Handoff PacketQueue (List Byte)}
    {e' : Handoff.Event PacketQueue (List Byte)} {normBuf' : List Byte}
    (he : e.handoff c normBuf = e') (hbuf : e.normBuf normBuf = normBuf')
    (hs : (Handoff.machine _ c.threads).step t e' = some (t', o)) :
    (machine c).step ⟨normBuf, t⟩ e = some (⟨normBuf', t'⟩, o) := by
  subst he hbuf
  exact Option.map_eq_some_iff.2 ⟨_, hs, rfl⟩

/-- The threads go on without datagrams as they can below. -/
theorem lift_run {t t' : Handoff PacketQueue (List Byte)}
    {tr : List (Handoff.Event PacketQueue (List Byte) × Done)}
    (hr : (Handoff.machine _ c.threads).Run t tr t') (hclosed : ∀ x ∈ tr, x.1.Closed)
    (normBuf : List Byte) : (machine c).Run ⟨normBuf, t⟩
      (tr.map fun x => (Event.ofHandoff x.1, x.2)) ⟨normBuf, t'⟩ := by
  induction hr with
  | nil => exact .nil _
  | @snoc t₁ t₂ tr e o _ hs ih =>
    obtain ⟨htr, he⟩ := List.forall_mem_append.1 hclosed
    obtain ⟨hevent, hbuf⟩ : (Event.ofHandoff e).handoff c normBuf = e ∧
        (Event.ofHandoff e).normBuf normBuf = normBuf :=
      Event.handoff_ofHandoff (he (e, o) (List.mem_singleton_self _))
    rw [List.map_append]
    exact (ih htr).snoc (step_of_threads hevent hbuf hs)

theorem internal_ofHandoff {e : Handoff.Event PacketQueue (List Byte)} (h : e.Internal) :
    e.Closed ∧ (Event.ofHandoff e).Internal := by
  cases e with
  | produce => exact ⟨trivial, .inl rfl⟩
  | consume k => exact ⟨trivial, .inr ⟨k, rfl⟩⟩
  | _ => exact h.elim

/-- The same for what happens inside. -/
theorem lift_internal {t' : Handoff PacketQueue (List Byte)}
    {tr : List (Handoff.Event PacketQueue (List Byte) × Done)}
    (hr : (Handoff.machine _ c.threads).Run s.threads tr t') (hint : ∀ x ∈ tr, x.1.Internal) :
    ∃ tr', (machine c).Run s tr' ⟨s.normBuf, t'⟩ ∧ ∀ x ∈ tr', x.1.Internal := by
  refine ⟨_, lift_run hr (fun x hx => (internal_ofHandoff (hint x hx)).1) s.normBuf, ?_⟩
  exact List.forall_mem_map.2 fun x hx => (internal_ofHandoff (hint x hx)).2

/-! ## From the socket to the readers -/

/-- The programs start with empty queues. -/
def begin (normBuf : List Byte) : ReceiverThreads := ⟨normBuf, {}⟩

/-- What holds of the threads in every run: no reader sleeps through a message, and `receiver` leaves
its loop only when `end_thread` is set. -/
structure Sound (c : Component) (s : ReceiverThreads) : Prop where
  inv : s.threads.Inv c.threads
  gone : s.threads.producer = .gone → s.threads.stop = true

theorem sound_begin (c : Component) (normBuf : List Byte) : (begin normBuf).Sound c :=
  ⟨Handoff.inv_start _, by rintro ⟨⟩⟩

theorem Sound.step (h : s.Sound c) (hs : (machine c).step s e = some (s', o)) : s'.Sound c where
  inv := h.inv.step (step_eq_some hs).1
  gone := (Handoff.step_moves (step_eq_some hs).1 .tailReqQ).producer_gone h.gone

theorem sound_run (hr : (machine c).Run (begin normBuf) tr s) : s.Sound c := by
  induction hr with
  | nil => exact sound_begin c normBuf
  | snoc _ hs ih => exact ih.step hs

/-- A copy is handed over, in the hands of its reader, or in the queue. -/
theorem copies_run (hr : (machine c).Run (begin normBuf) tr s) (k : PacketQueue) :
    copies c k normBuf (tr.map Prod.fst) =
      Handoff.handedOver k tr ++ ((s.threads.consumer k).held ++ s.threads.queue k) := by
  obtain ⟨tr₁, hr₁, heq, -⟩ := run_threads hr
  have hputs := Handoff.puts_run hr₁ k
  rw [Handoff.puts_eq_map, Handoff.handedOver_eq_map, heq] at hputs
  rw [Handoff.handedOver_eq_map, ← hputs, ← Handoff.puts_eq_map]
  exact copies_eq_puts hr k

/-- The threads can go on until a queue that has a reader is worked off. -/
theorem exists_processed (hr : (machine c).Run (begin normBuf) tr s) (hk : k ∈ c.readers)
    (hstop : s.threads.stop = false) : ∃ tr' s', (machine c).Run s tr' s' ∧
      (∀ x ∈ tr', x.1.Internal) ∧
        Handoff.handedOver k (tr ++ tr') = copies c k normBuf (tr.map Prod.fst) := by
  obtain ⟨tr₁, t', hr₁, hint₁, hheld, hqueue⟩ :=
    (sound_run hr).inv.exists_delivery (Component.works_threads.2 hk) hstop
  obtain ⟨tr', hr', hint⟩ := lift_internal hr₁ hint₁
  refine ⟨tr', _, hr', hint, ?_⟩
  have hall := copies_run (hr.append hr') k
  rw [hheld, hqueue, List.append_nil, List.append_nil, List.map_append, copies_append,
    copies_internal (List.forall_mem_map.2 hint), List.append_nil] at hall
  exact hall.symm

/-- Nothing is taken from a queue without a reader. -/
theorem handedOver_unread (hr : (machine c).Run (begin normBuf) tr s) (hk : k ∉ c.readers) :
    Handoff.handedOver k tr = [] := by
  obtain ⟨tr₁, hr₁, heq, -⟩ := run_threads hr
  rw [Handoff.handedOver_eq_map, ← heq, ← Handoff.handedOver_eq_map]
  exact Handoff.handedOver_eq_nil hr₁ (by simpa [← Bool.not_eq_true] using hk)

/-- The next datagram can be processed, whatever is before it. -/
theorem Sound.exists_handled (h : s.Sound c) (hstop : s.threads.stop = false)
    (hk : k ∈ c.readers) {pkt : List Byte}
    (hcopy : (Event.recvPacket data behind).copy c k s.normBuf = some pkt) :
    ∃ tr s₁ s₂, (machine c).Run s tr s₁ ∧
      (machine c).step s₁ (.reader k) = some (s₂, .handled k pkt) ∧
      ∀ x ∈ tr, x.1.Internal ∨ x.1 = .recvPacket data behind := by
  obtain ⟨tr₁, m, m', tr₂, t', hr₁, hs, hr₂, hint₁, hint₂⟩ :=
    h.inv.exists_handled h.gone hstop (Component.works_threads.2 hk) pkt
  obtain ⟨t, hr₂, hlast⟩ := hr₂.snoc_inv
  obtain ⟨tr₁', hr₁', hint₁'⟩ := lift_internal hr₁ hint₁
  obtain ⟨tr₂', hr₂', hint₂'⟩ := lift_internal (s := ⟨Software.recvPacket s.normBuf data, m'⟩)
    hr₂ hint₂
  refine ⟨_, _, _, (hr₁'.snoc (step_of_threads (Handoff.Event.eq_receive hcopy) rfl hs)).append hr₂',
    step_of_threads rfl rfl hlast, fun x hx => ?_⟩
  rcases List.mem_append.1 hx with hx | hx
  · rcases List.mem_append.1 hx with hx | hx
    · exact .inl (hint₁' x hx)
    · cases List.mem_singleton.1 hx
      exact .inr rfl
  · exact .inl (hint₂' x hx)

/-- **Every packet once, in order, and none slept through.** In every run of a program the copies for
a queue are, in the order of the datagrams, those that its reader has processed, the one that it has
in hand, and those in the queue. While `end_thread` is not set, the threads can go on by themselves
until the reader has processed them all. A queue without a reader keeps them all. -/
theorem handed_over_once (hr : (machine c).Run (begin normBuf) tr s) (k : PacketQueue) :
    copies c k normBuf (tr.map Prod.fst) =
        Handoff.handedOver k tr ++ ((s.threads.consumer k).held ++ s.threads.queue k) ∧
      (k ∈ c.readers → s.threads.stop = false → ∃ tr' s', (machine c).Run s tr' s' ∧
        (∀ x ∈ tr', x.1.Internal) ∧
          Handoff.handedOver k (tr ++ tr') = copies c k normBuf (tr.map Prod.fst)) ∧
      (k ∉ c.readers → Handoff.handedOver k tr = []) :=
  ⟨copies_run hr k, fun hk hstop => exists_processed hr hk hstop, handedOver_unread hr⟩

/-- A response to `getTail`. -/
def sampleTailResp (tail : Byte) : List Byte :=
  bytes16 (htons ethTailResp) ++ List.replicate 34 tail

/-- Two responses come in while a call sleeps. It has taken the first, and the second is in the
queue. -/
theorem handed_over_once_tails : ∃ tr s, (machine .client).Run (begin []) tr s ∧
    copies .client .tailRespQ [] (tr.map Prod.fst) = [sampleTailResp 1, sampleTailResp 2] ∧
      (s.threads.consumer .tailRespQ).held = [sampleTailResp 1] ∧
      s.threads.queue .tailRespQ = [sampleTailResp 2] ∧
      ∃ tr' s', (machine .client).Run s tr' s' ∧ (∀ x ∈ tr', x.1.Internal) ∧
        Handoff.handedOver .tailRespQ (tr ++ tr') = [sampleTailResp 1, sampleTailResp 2] := by
  have hx : (machine .client).exec (begin [])
      (List.replicate 5 (.reader .tailRespQ) ++ .receiver :: .recvPacket (sampleTailResp 1) [] ::
        List.replicate 4 .receiver ++ .recvPacket (sampleTailResp 2) [] ::
        List.replicate 5 (.reader .tailRespQ)) = some (_, _) := rfl
  obtain ⟨tr, s, hr, hstop, hcopies, hheld, hqueue⟩ : ∃ tr s,
      (machine .client).Run (begin []) tr s ∧ s.threads.stop = false ∧
        copies .client .tailRespQ [] (tr.map Prod.fst) = [sampleTailResp 1, sampleTailResp 2] ∧
        (s.threads.consumer .tailRespQ).held = [sampleTailResp 1] ∧
        s.threads.queue .tailRespQ = [sampleTailResp 2] :=
    ⟨_, _, .of_exec hx, rfl, by decide, by decide, by decide⟩
  obtain ⟨-, hdelivered, -⟩ := handed_over_once hr .tailRespQ
  rw [hcopies] at hdelivered
  exact ⟨tr, s, hr, hcopies, hheld, hqueue, hdelivered (by decide) hstop⟩

/-! ## The end -/

/-- The destructor is through with the queue. -/
def Notified (s : ReceiverThreads) (k : PacketQueue) : Prop :=
  ∃ ks, s.threads.waking = some ks ∧ k ∉ ks

/-- The reader of the queue has left its loop. -/
def Ended (s : ReceiverThreads) (k : PacketQueue) : Prop := s.threads.consumer k = .gone

/-- **When a reader misses the end.** No reader ends before `end_thread` is set. When it is set, a
reader that the destructor notifies is sure to be able to end after that, whatever happens in
between, if and only if it is not between its look at `end_thread` and its sleep, with nothing in the
queue and nothing that `receiver` has put there and not yet taken the mutex for. -/
theorem reader_ends_iff (hr : (machine c).Run (begin normBuf) tr s) (k : PacketQueue) :
    (s.Ended k → s.threads.stop = true) ∧
      ∀ s₁ o, k ∈ c.notified → (machine c).step s .endThread = some (s₁, o) →
        ((∀ tr' s', (machine c).Run s₁ tr' s' → s'.Notified k → ∃ tr'' s'',
          (machine c).Run s' tr'' s'' ∧ (∀ x ∈ tr'', x.1.Internal) ∧ s''.Ended k) ↔
            ¬ s.threads.Gap k) := by
  have hinv := (sound_run hr).inv
  refine ⟨(hinv k).gone, ?_⟩
  intro s₁ o hk hs
  have hworks : c.threads.works k = true := Component.works_threads.2 (Component.notified_readers hk)
  obtain ⟨hraise, hbuf⟩ := step_eq_some hs
  obtain ⟨hwaking, hs₁⟩ : s.threads.waking = none ∧ s₁.threads = { s.threads with stop := true } := by
    simp only [Handoff.machine, Handoff.step, Event.handoff, Option.ite_none_right_eq_some,
      Option.isNone_iff_eq_none, Option.some.injEq, Prod.mk.injEq] at hraise
    exact ⟨hraise.1, hraise.2.1.symm⟩
  refine ⟨fun hall => ?_, fun hgap tr' s' hr' hpassed => ?_⟩
  · refine (Handoff.ends_iff (A := Handoff.Event.Closed) (fun _ h => h) hinv hworks hwaking hk).1 ?_
    intro tr₁ t' hr₁ hclosed hpassed
    rw [← hs₁] at hr₁
    obtain ⟨tr₂, s₂, hr₂, hint₂, hended⟩ :=
      hall _ ⟨s₁.normBuf, t'⟩ (lift_run hr₁ hclosed s₁.normBuf) hpassed
    obtain ⟨tr₃, hr₃, -, hint₃⟩ := run_threads hr₂
    exact ⟨tr₃, s₂.threads, hr₃, hint₃ hint₂, hended⟩
  · obtain ⟨tr₁, hr₁, -, -⟩ := run_threads hr'
    rw [hs₁] at hr₁
    obtain ⟨tr₂, t'', hr₂, hint₂, hgone⟩ :=
      (Handoff.ends_iff (A := fun _ => True) (fun _ _ => trivial) hinv hworks hwaking hk).2 hgap
        tr₁ s'.threads hr₁ (fun _ _ => trivial) hpassed
    obtain ⟨tr'', hr'', hint⟩ := lift_internal hr₂ hint₂
    exact ⟨tr'', _, hr'', hint, hgone⟩

/-- A call that waits for the tail has looked at `end_thread` just before it is set. -/
theorem reader_misses_end : ∃ tr s s₁ o, (machine .client).Run (begin []) tr s ∧
    (machine .client).step s .endThread = some (s₁, o) ∧
      ¬ ∀ tr' s', (machine .client).Run s₁ tr' s' → s'.Notified .tailRespQ → ∃ tr'' s'',
        (machine .client).Run s' tr'' s'' ∧ (∀ x ∈ tr'', x.1.Internal) ∧ s''.Ended .tailRespQ := by
  have hx : (machine .client).exec (begin [])
      [.reader .tailRespQ, .reader .tailRespQ, .reader .tailRespQ] = some (_, _) := rfl
  obtain ⟨tr, s, hr, hgap, s₁, o, hs⟩ : ∃ tr s, (machine .client).Run (begin []) tr s ∧
      s.threads.Gap .tailRespQ ∧ ∃ s₁ o, (machine .client).step s .endThread = some (s₁, o) :=
    ⟨_, _, .of_exec hx, ⟨rfl, .inl rfl, by rintro ⟨⟩⟩, _, _, rfl⟩
  have hends := (reader_ends_iff hr .tailRespQ).2 s₁ o (by decide) hs
  exact ⟨tr, s, s₁, o, hr, hs, fun hall => hends.1 hall hgap⟩

end ReceiverThreads

end Pringles.Software
