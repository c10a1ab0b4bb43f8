import Pringles.Lib.Machine
import Pringles.Software.AppendNonce

/-!
# Appends beside the receiver thread

`append` takes its datagrams from the socket, `append_stream` takes them from the queue that the
thread of `receiver` fills. Both threads receive into the one `norm_buf`, and both look at it several
times. So what `append` reads after it has found its response may come from another datagram: a late
response to an earlier request, with the index of that request. As long as no datagram takes the place
of what a thread is still reading, every call returns the index of its own request
(`returned_own_undisturbed`). A client that appends without the thread always keeps to that.
-/

namespace Pringles.Software

open Bytes

namespace LogClient

/-- What `append` does next: it receives, compares the type, compares the type and the nonce, and
takes the index. -/
inductive AppendTurn where
  | recv | type | typeAgain | nonce | gIdx
deriving DecidableEq

/-- What `receiver` does next: it receives, compares the type, allocates `pkt`, takes the size for
`memcpy`, copies, and pushes the copy. -/
inductive ReceiverTurn where
  | recv | type | malloc
  | size (allocated : Nat)
  | copy (allocated size : Nat)
  | push (pkt : List Byte)
deriving DecidableEq

namespace ReceiverTurn

/-- `receiver` still reads `norm_buf`. -/
def Reads : ReceiverTurn → Prop
  | .type | .malloc | .size _ | .copy _ _ => True
  | .recv | .push _ => False

/-- `receiver` has found a response and does not know its size yet. -/
def Sizing : ReceiverTurn → Prop
  | .malloc | .size _ => True
  | _ => False

instance (t : ReceiverTurn) : Decidable t.Sizing := by
  unfold Sizing
  split <;> infer_instance

/-- The packets that are about to be pushed. -/
def pushed : ReceiverTurn → List (List Byte)
  | .push pkt => [pkt]
  | _ => []

end ReceiverTurn

/-- The thread that appends, and the thread of `receiver`. -/
structure AppendThreads where
  caller : Appending
  turn : AppendTurn := .recv
  appendRespQ : List (List Byte) := []
  receiverTurn : ReceiverTurn := .recv

namespace AppendThreads

open Appending (AnswersRequest Genuine IsResponse)

/-- A call begins, a thread receives a datagram or goes on with the one in `norm_buf`, or
`append_stream` takes a packet from the queue. `behind` is what lies behind the copy of a packet. -/
inductive Event where
  | call (call : AppendCall)
  | recv (data : List Byte)
  | read
  | pop
  | receiverRecv (data : List Byte)
  | receiverRead (behind : List Byte)

/-- `norm_buf` when a datagram has come in. -/
def received (s : AppendThreads) (data : List Byte) : List Byte :=
  recvPacket s.caller.normBuf data

/-- A datagram comes in. -/
def receive (s : AppendThreads) (data : List Byte) : AppendThreads :=
  { s with caller := { s.caller with normBuf := s.received data } }

/-- `ntohl(append_entry->nonce) == append_nonce`. -/
def Owns (s : AppendThreads) (buf : List Byte) : Prop :=
  ntohl (AppendEntry.nonce buf) = s.caller.client.appendNonce

instance (s : AppendThreads) (buf : List Byte) : Decidable (s.Owns buf) :=
  inferInstanceAs (Decidable (_ = _))

/-- `append` goes on with `norm_buf`. -/
def read (s : AppendThreads) : Option (AppendThreads × Option (BitVec 64)) :=
  let buf := s.caller.normBuf
  match s.turn with
  | .recv => none
  | .type => some ({ s with turn := if IsResponse buf then .typeAgain else .recv }, none)
  | .typeAgain => some ({ s with turn := if IsResponse buf then .nonce else .recv }, none)
  | .nonce => some ({ s with turn := if s.Owns buf then .gIdx else .recv }, none)
  | .gIdx =>
    some ({ s with caller := s.caller.finish, turn := .recv }, some (seqNo (AppendEntry.gIdx buf)))

/-- The bytes of the response in `norm_buf`. -/
def respSize (buf : List Byte) : Nat :=
  (ntohs (numEntries buf)).toNat * LogSoftwareSwitch.pktSize buf

/-- `receiver` goes on with `norm_buf`. Packets of other types go to other queues. -/
def receiverRead (s : AppendThreads) (behind : List Byte) : Option AppendThreads :=
  let buf := s.caller.normBuf
  match s.receiverTurn with
  | .recv => none
  | .type => some { s with receiverTurn := if IsResponse buf then .malloc else .recv }
  | .malloc => some { s with receiverTurn := .size (respSize buf) }
  | .size allocated => some { s with receiverTurn := .copy allocated (respSize buf) }
  | .copy allocated size =>
    -- `memcpy` beyond the allocation is undefined
    if size ≤ allocated then some { s with receiverTurn := .push (buf.take size ++ behind) }
    else none
  | .push pkt => some { s with appendRespQ := s.appendRespQ ++ [pkt], receiverTurn := .recv }

def step (s : AppendThreads) : Event → Option (AppendThreads × Option (BitVec 64))
  | .call call => (s.caller.call call).map fun caller => ({ s with caller := caller }, none)
  | .recv data =>
    match s.caller.waiting, s.turn with
    | some .append, .recv => some ({ s.receive data with turn := .type }, none)
    | _, _ => none
  | .read => s.read
  | .pop =>
    match s.caller.waiting, s.appendRespQ with
    | some (.appendStream _), pkt :: q =>
      let settled := s.caller.settle pkt
      some ({ s with caller := settled.1, appendRespQ := q }, settled.2)
    | _, _ => none
  | .receiverRecv data =>
    match s.receiverTurn with
    | .recv => some ({ s.receive data with receiverTurn := .type }, none)
    | _ => none
  | .receiverRead behind => (s.receiverRead behind).map fun s => (s, none)

/-- What a step found, and the index that it returned. -/
def machine : Machine AppendThreads Event (AppendThreads × Option (BitVec 64)) :=
  ⟨fun s e => (s.step e).map fun q => (q.1, s, q.2)⟩

/-- A client that has not appended yet. -/
def begin (c : LogClient) (normBuf : List Byte) : AppendThreads := { caller := .begin c normBuf }

/-- The datagram that an event brings. -/
def Event.data : Event → Option (List Byte)
  | .recv data => some data
  | .receiverRecv data => some data
  | _ => none

/-- The numbers of the calls that have returned, in order. -/
def returned (tr : List (Event × AppendThreads × Option (BitVec 64))) : List Nat :=
  tr.filterMap fun x => x.2.2.map fun _ => x.2.1.caller.requests.length - 1

/-- All datagrams of a run are genuine when they arrive. -/
def AllGenuine (assigned : Nat → BitVec 64 → Prop)
    (tr : List (Event × AppendThreads × Option (BitVec 64))) : Prop :=
  ∀ x ∈ tr, ∀ data ∈ x.1.data, Genuine assigned x.2.1.caller.requests data

/-- No datagram takes the place of what the other thread still reads: of a response to this call, as
long as `append` has not taken the index; of one that has entries, as long as `receiver` has not
taken the size. -/
def Undisturbed (s : AppendThreads) : Event → Prop
  | .recv data => s.receiverTurn.Sizing → numEntries (s.received data) ≠ 0
  | .receiverRecv data =>
    (s.turn = .nonce → s.Owns (s.received data) → IsResponse (s.received data)) ∧
      (s.turn = .gIdx → IsResponse (s.received data) ∧ s.Owns (s.received data))
  | _ => True

/-- The responses that `receiver` has copied for `append_stream`. -/
def copies (s : AppendThreads) : List (List Byte) := s.appendRespQ ++ s.receiverTurn.pushed

/-- The nonces of the requests, and what is known about `norm_buf` at each place of the two loops. -/
structure Inv (assigned : Nat → BitVec 64 → Prop) (start : BitVec 32) (s : AppendThreads) :
    Prop where
  caller : s.caller.Inv start
  waiting : s.turn ≠ .recv → s.caller.waiting = some .append
  buffer : s.turn ≠ .recv ∨ s.receiverTurn.Reads →
    Genuine assigned s.caller.requests s.caller.normBuf
  found : s.turn = .nonce → s.Owns s.caller.normBuf → IsResponse s.caller.normBuf
  own : s.turn = .gIdx → IsResponse s.caller.normBuf ∧ s.Owns s.caller.normBuf
  sizing : s.receiverTurn.Sizing → numEntries s.caller.normBuf ≠ 0
  copying : ∀ allocated size, s.receiverTurn = .copy allocated size → sizeofHeaders ≤ size
  queued : ∀ pkt ∈ s.copies, IsResponse pkt → AnswersRequest assigned s.caller.requests pkt

variable {assigned : Nat → BitVec 64 → Prop} {start : BitVec 32} {s s' : AppendThreads} {e : Event}
  {o : Option (BitVec 64)} {buf data behind normBuf pkt : List Byte} {idx : BitVec 64}
  {requests : List (List Byte)} {c : LogClient} {caller : Appending}
  {tr : List (Event × AppendThreads × Option (BitVec 64))}

/-! ## Datagrams and copies -/

/-- A buffer with entries is not smaller than its headers. -/
theorem sizeofHeaders_le_respSize (h : numEntries buf ≠ 0) : sizeofHeaders ≤ respSize buf := by
  have hpos : 0 < (ntohs (numEntries buf)).toNat := by
    rw [Nat.pos_iff_ne_zero]
    intro hzero
    refine h ?_
    rw [← htons_ntohs (numEntries buf), BitVec.eq_of_toNat_eq (y := 0) hzero]
    rfl
  refine Nat.le_trans ?_ (Nat.le_mul_of_pos_left _ hpos)
  rw [LogSoftwareSwitch.pktSize, sizeofHeaders]
  omega

/-- A copy that is a response is a copy of one, and has its headers. -/
theorem answers_copy (h : Genuine assigned requests buf) {size : Nat} (hsize : sizeofHeaders ≤ size)
    (hresp : IsResponse (buf.take size ++ behind)) :
    AnswersRequest assigned requests (buf.take size ++ behind) := by
  have hcopy : ∀ n, n ≤ sizeofHeaders → n ≤ buf.length →
      (buf.take size ++ behind).take n = buf.take n := by
    intro n hn hlen
    rw [List.take_append_of_le_length (by rw [List.length_take]; omega), List.take_take,
      Nat.min_eq_left (by omega)]
  have hresp' : IsResponse buf := by
    rwa [IsResponse, load16_of_take_eq (hcopy _ (by decide) h.length) (by decide)] at hresp
  exact (h.answers hresp').congr (hcopy _ (Nat.le_refl _) (h.headers hresp'))

/-! ## One step -/

namespace Inv

variable (h : Inv assigned start s)
include h

/-- Between two turns of `append`, or outside of it, nothing is known of a response. -/
theorem idle (hwait : s.caller.waiting ≠ some .append) : s.turn = .recv := by
  by_contra hturn
  exact hwait (h.waiting hturn)

/-- A call begins. -/
theorem call {call : AppendCall} {caller : Appending} (hc : s.caller.call call = some caller) :
    Inv assigned start { s with caller := caller } ∧
      Appending.Stepped assigned start s.caller caller none := by
  obtain ⟨hinv, hcompleted⟩ := h.caller.call hc
  obtain ⟨hidle, rfl⟩ := Appending.call_eq_some hc
  have hturn : s.turn = .recv := h.idle (by rw [hidle]; rintro ⟨⟩)
  refine ⟨?_, .silent hinv hcompleted (by simp)⟩
  exact {
    caller := hinv
    waiting := fun hne => absurd hturn hne
    buffer := fun hreads => (h.buffer hreads).snoc _
    found := by rw [hturn]; rintro ⟨⟩
    own := by rw [hturn]; rintro ⟨⟩
    sizing := h.sizing
    copying := h.copying
    queued := fun pkt hpkt hresp => (h.queued pkt hpkt hresp).snoc _ }

/-- `append` receives. -/
theorem recv (hwait : s.caller.waiting = some .append)
    (hgen : Genuine assigned s.caller.requests data) (hcalm : s.Undisturbed (.recv data)) :
    Inv assigned start { s.receive data with turn := .type } where
  caller := h.caller.receive _
  waiting _ := hwait
  buffer _ := hgen.received s.caller.normBuf
  found := by rintro ⟨⟩
  own := by rintro ⟨⟩
  sizing := hcalm
  copying := h.copying
  queued := h.queued

/-- `receiver` receives. -/
theorem receiverRecv (hgen : Genuine assigned s.caller.requests data)
    (hcalm : s.Undisturbed (.receiverRecv data)) (hidle : s.receiverTurn = .recv) :
    Inv assigned start { s.receive data with receiverTurn := .type } where
  caller := h.caller.receive _
  waiting := h.waiting
  buffer _ := hgen.received s.caller.normBuf
  found := hcalm.1
  own := hcalm.2
  sizing := by rintro ⟨⟩
  copying := by rintro _ _ ⟨⟩
  queued pkt hpkt := by
    refine h.queued pkt ?_
    rwa [copies, hidle]

/-- `append` goes on in its turn. -/
theorem goOn (hreads : s.turn ≠ .recv) {turn : AppendTurn}
    (hfound : turn = .nonce → s.Owns s.caller.normBuf → IsResponse s.caller.normBuf)
    (hown : turn = .gIdx → IsResponse s.caller.normBuf ∧ s.Owns s.caller.normBuf) :
    Inv assigned start { s with turn := turn } where
  caller := h.caller
  waiting _ := h.waiting hreads
  buffer _ := h.buffer (.inl hreads)
  found := hfound
  own := hown
  sizing := h.sizing
  copying := h.copying
  queued := h.queued

/-- `append` takes the index from a response to its request, and returns. -/
theorem takeIdx (hturn : s.turn = .gIdx) :
    Inv assigned start { s with caller := s.caller.finish, turn := .recv } ∧
      Appending.Stepped assigned start s.caller s.caller.finish
        (some (seqNo (AppendEntry.gIdx s.caller.normBuf))) := by
  have hreads : s.turn ≠ .recv := by rw [hturn]; rintro ⟨⟩
  have hbuf := h.buffer (.inl hreads)
  obtain ⟨hresp, hown⟩ := h.own hturn
  have hstepped := h.caller.settle (by rw [h.waiting hreads]; rfl) hbuf.answers
  rw [Appending.settle_eq hresp hown] at hstepped
  refine ⟨?_, hstepped⟩
  exact {
    caller := hstepped.inv
    waiting := fun hne => absurd rfl hne
    buffer := fun _ => hbuf
    found := by rintro ⟨⟩
    own := by rintro ⟨⟩
    sizing := h.sizing
    copying := h.copying
    queued := h.queued }

/-- `append` reads `norm_buf`. -/
theorem read (hs : s.read = some (s', o)) : Inv assigned start s' ∧
    Appending.Stepped assigned start s.caller s'.caller o := by
  have hreads : s.turn ≠ .recv := by
    intro hrecv
    rw [AppendThreads.read, hrecv] at hs
    cases hs
  simp only [AppendThreads.read] at hs
  split at hs
  · cases hs
  · obtain ⟨rfl, rfl⟩ := Prod.mk.inj (Option.some.inj hs)
    refine ⟨h.goOn hreads ?_ ?_, .silent h.caller rfl (Nat.le_refl _)⟩ <;> split <;> rintro ⟨⟩
  · obtain ⟨rfl, rfl⟩ := Prod.mk.inj (Option.some.inj hs)
    refine ⟨h.goOn hreads ?_ ?_, .silent h.caller rfl (Nat.le_refl _)⟩
    · split
      · next hresp => exact fun _ _ => hresp
      · rintro ⟨⟩
    · split <;> rintro ⟨⟩
  · next hnonce =>
    obtain ⟨rfl, rfl⟩ := Prod.mk.inj (Option.some.inj hs)
    refine ⟨h.goOn hreads ?_ ?_, .silent h.caller rfl (Nat.le_refl _)⟩
    · split <;> rintro ⟨⟩
    · split
      · next hown => exact fun _ => ⟨h.found hnonce hown, hown⟩
      · rintro ⟨⟩
  · next hgIdx =>
    obtain ⟨rfl, rfl⟩ := Prod.mk.inj (Option.some.inj hs)
    exact h.takeIdx hgIdx

/-- `append_stream` takes a copy from the queue. -/
theorem pop {streamId : BitVec 32} {q : List (List Byte)}
    (hwait : s.caller.waiting = some (.appendStream streamId)) (hq : s.appendRespQ = pkt :: q) :
    Inv assigned start { s with caller := (s.caller.settle pkt).1, appendRespQ := q } ∧
      Appending.Stepped assigned start s.caller (s.caller.settle pkt).1 (s.caller.settle pkt).2 := by
  have hturn : s.turn = .recv := h.idle (by rw [hwait]; rintro ⟨⟩)
  have hcopies : s.copies = pkt :: (q ++ s.receiverTurn.pushed) := by rw [copies, hq]; rfl
  have hstepped := h.caller.settle (by rw [hwait]; rfl)
    (h.queued pkt (by rw [hcopies]; exact .head _))
  have hrest : (s.caller.settle pkt).1.requests = s.caller.requests ∧
      (s.caller.settle pkt).1.normBuf = s.caller.normBuf := by
    unfold Appending.settle
    split <;> exact ⟨rfl, rfl⟩
  refine ⟨?_, hstepped⟩
  exact {
    caller := hstepped.inv
    waiting := fun hne => absurd hturn hne
    buffer := by rw [hrest.1, hrest.2]; exact h.buffer
    found := by rw [hturn]; rintro ⟨⟩
    own := by rw [hturn]; rintro ⟨⟩
    sizing := by rw [hrest.2]; exact h.sizing
    copying := h.copying
    queued := by
      rw [hrest.1]
      exact fun pkt' hpkt => h.queued pkt' (by rw [hcopies]; exact .tail _ hpkt) }

/-- `receiver` goes on with something that it has read from `norm_buf`. -/
theorem receiverTo {turn : ReceiverTurn} (hreads : s.receiverTurn.Reads)
    (hsizing : turn.Sizing → numEntries s.caller.normBuf ≠ 0)
    (hcopying : ∀ allocated size, turn = .copy allocated size → sizeofHeaders ≤ size)
    (hpushed : ∀ pkt ∈ turn.pushed, IsResponse pkt →
      AnswersRequest assigned s.caller.requests pkt) :
    Inv assigned start { s with receiverTurn := turn } where
  caller := h.caller
  waiting := h.waiting
  buffer _ := h.buffer (.inr hreads)
  found := h.found
  own := h.own
  sizing := hsizing
  copying := hcopying
  queued pkt hpkt := by
    rcases List.mem_append.1 hpkt with hpkt | hpkt
    · exact h.queued pkt (List.mem_append_left _ hpkt)
    · exact hpushed pkt hpkt

/-- `receiver` pushes its copy. -/
theorem push (hturn : s.receiverTurn = .push pkt) : Inv assigned start
    { s with appendRespQ := s.appendRespQ ++ [pkt], receiverTurn := .recv } where
  caller := h.caller
  waiting := h.waiting
  buffer hreads := h.buffer (hreads.imp_right (by rintro ⟨⟩))
  found := h.found
  own := h.own
  sizing := by rintro ⟨⟩
  copying := by rintro _ _ ⟨⟩
  queued pkt' hpkt := by
    have hcopies : s.copies = s.appendRespQ ++ [pkt] ++ [] := by
      rw [copies, hturn, List.append_nil]
      rfl
    refine h.queued pkt' ?_
    rw [hcopies]
    exact hpkt

/-- `receiver` reads `norm_buf`, or pushes its copy. -/
theorem receiverRead (hs : s.receiverRead behind = some s') :
    Inv assigned start s' ∧ s'.caller = s.caller := by
  simp only [AppendThreads.receiverRead] at hs
  split at hs
  · cases hs
  · next hturn =>
    have hbuf := h.buffer (.inr (by rw [hturn]; trivial))
    obtain rfl := Option.some.inj hs
    refine ⟨h.receiverTo (by rw [hturn]; trivial) ?_ ?_ ?_, rfl⟩ <;> split
    · next hresp => exact fun _ => hbuf.entries hresp
    · rintro ⟨⟩
    · rintro _ _ ⟨⟩
    · rintro _ _ ⟨⟩
    · rintro _ ⟨⟩
    · rintro _ ⟨⟩
  · next hturn =>
    obtain rfl := Option.some.inj hs
    refine ⟨h.receiverTo (by rw [hturn]; trivial) ?_ (by rintro _ _ ⟨⟩) (by rintro _ ⟨⟩), rfl⟩
    exact fun _ => h.sizing (by rw [hturn]; trivial)
  · next hturn =>
    obtain rfl := Option.some.inj hs
    refine ⟨h.receiverTo (by rw [hturn]; trivial) (by rintro ⟨⟩) ?_ (by rintro _ ⟨⟩), rfl⟩
    rintro _ _ ⟨⟩
    exact sizeofHeaders_le_respSize (h.sizing (by rw [hturn]; trivial))
  · next hturn =>
    have hbuf := h.buffer (.inr (by rw [hturn]; trivial))
    obtain ⟨-, hs⟩ := Option.ite_none_right_eq_some.1 hs
    obtain rfl := Option.some.inj hs
    refine ⟨h.receiverTo (by rw [hturn]; trivial) (by rintro ⟨⟩) (by rintro _ _ ⟨⟩) ?_, rfl⟩
    intro pkt hpkt hresp
    obtain rfl := List.mem_singleton.1 hpkt
    exact answers_copy hbuf (h.copying _ _ hturn) hresp
  · next pkt hturn =>
    obtain rfl := Option.some.inj hs
    exact ⟨h.push hturn, rfl⟩

/-- **A step that disturbs nobody keeps what the threads know.** -/
theorem step (hgen : ∀ data ∈ e.data, Genuine assigned s.caller.requests data)
    (hcalm : s.Undisturbed e) (hs : s.step e = some (s', o)) : Inv assigned start s' ∧
      Appending.Stepped assigned start s.caller s'.caller o := by
  cases e with
  | call call =>
    obtain ⟨caller, hc, hs⟩ := Option.map_eq_some_iff.1 hs
    obtain ⟨rfl, rfl⟩ := Prod.mk.inj hs
    exact h.call hc
  | recv data =>
    simp only [AppendThreads.step] at hs
    split at hs
    · next hwait hturn =>
      obtain ⟨rfl, rfl⟩ := Prod.mk.inj (Option.some.inj hs)
      exact ⟨h.recv hwait (hgen data rfl) hcalm, .silent (h.caller.receive _) rfl (Nat.le_refl _)⟩
    · cases hs
  | read => exact h.read hs
  | pop =>
    simp only [AppendThreads.step] at hs
    split at hs
    · next hwait hq =>
      obtain ⟨rfl, rfl⟩ := Prod.mk.inj (Option.some.inj hs)
      exact h.pop hwait hq
    · cases hs
  | receiverRecv data =>
    simp only [AppendThreads.step] at hs
    split at hs
    · next hidle =>
      obtain ⟨rfl, rfl⟩ := Prod.mk.inj (Option.some.inj hs)
      exact ⟨h.receiverRecv (hgen data rfl) hcalm hidle,
        .silent (h.caller.receive _) rfl (Nat.le_refl _)⟩
    · cases hs
  | receiverRead behind =>
    obtain ⟨s₁, hread, hs⟩ := Option.map_eq_some_iff.1 hs
    obtain ⟨rfl, rfl⟩ := Prod.mk.inj hs
    obtain ⟨hinv, hcaller⟩ := h.receiverRead hread
    exact ⟨hinv, by rw [hcaller]; exact .silent h.caller rfl (Nat.le_refl _)⟩

end Inv

theorem inv_begin (c : LogClient) (normBuf : List Byte) :
    Inv assigned c.appendNonce (begin c normBuf) where
  caller := Appending.inv_begin c normBuf
  waiting hne := absurd rfl hne
  buffer hreads := by
    rcases hreads with hne | hreads
    · exact absurd rfl hne
    · exact hreads.elim
  found := by rintro ⟨⟩
  own := by rintro ⟨⟩
  sizing := by rintro ⟨⟩
  copying := by rintro _ _ ⟨⟩
  queued := by rintro _ ⟨⟩

/-! ## Runs -/

theorem machine_eq_some {x : Event × AppendThreads × Option (BitVec 64)}
    (hs : machine.step s x.1 = some (s', x.2)) :
    x.2.1 = s ∧ s.step x.1 = some (s', x.2.2) := by
  obtain ⟨⟨s₁, o⟩, hstep, heq⟩ := Option.map_eq_some_iff.1 hs
  obtain ⟨rfl, hx⟩ := Prod.mk.inj heq
  exact ⟨by rw [← hx], by rw [← hx, hstep]⟩

theorem inv_run (hr : machine.Run (begin c normBuf) tr s) (hgen : AllGenuine assigned tr)
    (hcalm : ∀ x ∈ tr, x.2.1.Undisturbed x.1) : Inv assigned c.appendNonce s := by
  induction hr with
  | nil => exact inv_begin c normBuf
  | @snoc m s' tr e out _ hs ih =>
    obtain ⟨found, o⟩ := out
    obtain ⟨rfl, hstep⟩ := machine_eq_some (x := (e, found, o)) hs
    simp only [AllGenuine, List.forall_mem_append, List.forall_mem_singleton] at hgen hcalm
    exact ((ih hgen.1 hcalm.1).step hgen.2 hcalm.2 hstep).1

/-- The calls return one after the other, each with an index of its own request. -/
theorem own_run (hr : machine.Run (begin c normBuf) tr s) (hgen : AllGenuine assigned tr)
    (hcalm : ∀ x ∈ tr, x.2.1.Undisturbed x.1) (hfew : s.caller.requests.length ≤ 2 ^ 32) :
    (∀ x ∈ tr, ∀ idx, x.2.2 = some idx →
      assigned (x.2.1.caller.requests.length - 1) idx) ∧
      returned tr = List.range s.caller.completed := by
  induction hr with
  | nil => exact ⟨by rintro _ ⟨⟩, rfl⟩
  | @snoc m s' tr e out hr hs ih =>
    obtain ⟨found, o⟩ := out
    obtain ⟨rfl, hstep⟩ := machine_eq_some (x := (e, found, o)) hs
    simp only [AllGenuine, List.forall_mem_append, List.forall_mem_singleton] at hgen hcalm ⊢
    obtain ⟨-, hstepped⟩ := (inv_run hr hgen.1 hcalm.1).step hgen.2 hcalm.2 hstep
    have hfew' := Nat.le_trans hstepped.requests hfew
    obtain ⟨hall, hreturned⟩ := ih hgen.1 hcalm.1 hfew'
    have hlast : ∀ idx, o = some idx →
        found.caller.requests.length - 1 = found.caller.completed := by
      intro idx hidx
      have hbusy : found.caller.completed + 1 = found.caller.requests.length :=
        hstepped.busy idx hidx
      omega
    refine ⟨⟨hall, ?_⟩, ?_⟩
    · intro idx hidx
      rw [hlast idx hidx]
      exact hstepped.assigned hfew' idx hidx
    · rw [hstepped.completed, returned, List.filterMap_append, ← returned, hreturned]
      cases o with
      | none => exact List.append_nil _
      | some idx =>
        change _ ++ [found.caller.requests.length - 1] = List.range (found.caller.completed + 1)
        rw [hlast idx rfl, List.range_succ]

theorem read_gIdx (hturn : s.turn = .gIdx) : s.read =
    some ({ s with caller := s.caller.finish, turn := .recv },
      some (seqNo (AppendEntry.gIdx s.caller.normBuf))) := by
  rw [read, hturn]

/-- A response to another request that comes in before `append` takes the index is the one that the
index is taken from. -/
theorem Inv.disturbed (h : Inv assigned start s) (hturn : s.turn = .gIdx)
    (hidle : s.receiverTurn = .recv) (hgen : Genuine assigned s.caller.requests data)
    (hresp : IsResponse (s.received data)) (hother : ¬ s.Owns (s.received data)) :
    ∃ m s' idx j, s.step (.receiverRecv data) = some (m, none) ∧
      m.step .read = some (s', some idx) ∧ j + 1 < s.caller.requests.length ∧ assigned j idx := by
  let m : AppendThreads := { s.receive data with receiverTurn := .type }
  have hrecv : s.step (.receiverRecv data) = some (m, none) := by
    rw [AppendThreads.step, hidle]
  have hread : m.step .read = _ := read_gIdx (s := m) hturn
  obtain ⟨j, headers, hj, hnonce, hassigned⟩ := (hgen.received s.caller.normBuf).answers hresp
  refine ⟨m, _, _, j, hrecv, hread, ?_, hassigned⟩
  have hlast := h.caller.last (by rw [h.waiting (by rw [hturn]; rintro ⟨⟩)]; rfl)
  have hlt : j < s.caller.requests.length := (List.getElem?_eq_some_iff.1 hj).1
  have hne : j ≠ s.caller.completed := by
    rintro rfl
    refine hother ?_
    rw [Owns, received, hnonce, h.caller.nonces _ headers hj, ntohl_htonl, h.caller.current]
  omega

/-- **Calls return their own indices.** As long as no datagram takes the place of what a thread still
reads, every call returns an index of its own request, one call after the other. When `append` has
only the index left to read, any response to an earlier request makes it return the index of that. -/
theorem returned_own_undisturbed (hr : machine.Run (begin c normBuf) tr s)
    (hgen : AllGenuine assigned tr) (hcalm : ∀ x ∈ tr, x.2.1.Undisturbed x.1)
    (hfew : s.caller.requests.length ≤ 2 ^ 32) :
    (∀ x ∈ tr, ∀ idx, x.2.2 = some idx →
      assigned (x.2.1.caller.requests.length - 1) idx) ∧
      returned tr = List.range s.caller.completed ∧
      ∀ data, s.turn = .gIdx → s.receiverTurn = .recv → Genuine assigned s.caller.requests data →
        IsResponse (s.received data) → ¬ s.Owns (s.received data) →
        ∃ m s' idx j, s.step (.receiverRecv data) = some (m, none) ∧
          m.step .read = some (s', some idx) ∧ j + 1 < s.caller.requests.length ∧
          assigned j idx := by
  obtain ⟨hall, hreturned⟩ := own_run hr hgen hcalm hfew
  refine ⟨hall, hreturned, ?_⟩
  intro data hturn hidle hdata hresp hother
  exact (inv_run hr hgen hcalm).disturbed hturn hidle hdata hresp hother

/-! ## Append without interruption -/

theorem machine_read (h : s.read = some (s', o)) : machine.step s .read = some (s', s, o) := by
  simp only [machine, step, h, Option.map_some]

/-- What `append` reads when it has received, and nobody comes in between, settles its turn. -/
theorem reads_run (hturn : s.turn = .type) : ∃ tr,
    machine.Run s tr { s with caller := (s.caller.settle s.caller.normBuf).1, turn := .recv } ∧
      tr.filterMap (fun x => x.2.2) = (s.caller.settle s.caller.normBuf).2.toList ∧
      ∀ x ∈ tr, x.1 = .read := by
  by_cases hresp : IsResponse s.caller.normBuf
  · have htype : machine.step s .read = some ({ s with turn := .typeAgain }, s, none) :=
      machine_read (by simp [read, hturn, hresp])
    have hagain : machine.step { s with turn := .typeAgain } .read =
        some ({ s with turn := .nonce }, { s with turn := .typeAgain }, none) :=
      machine_read (by simp [read, hresp])
    have hfound := (Machine.Run.single htype).snoc hagain
    by_cases hown : ntohl (AppendEntry.nonce s.caller.normBuf) = s.caller.client.appendNonce
    · have hnonce : machine.step { s with turn := .nonce } .read =
          some ({ s with turn := .gIdx }, { s with turn := .nonce }, none) :=
        machine_read (by simp [read, Owns, hown])
      have hidx := machine_read (read_gIdx (s := { s with turn := .gIdx }) rfl)
      rw [Appending.settle_eq hresp hown]
      exact ⟨_, (hfound.snoc hnonce).snoc hidx, rfl, by simp⟩
    · have hnonce : machine.step { s with turn := .nonce } .read =
          some ({ s with turn := .recv }, { s with turn := .nonce }, none) :=
        machine_read (by simp [read, Owns, hown])
      rw [Appending.settle_eq_self fun h => hown h.2]
      exact ⟨_, hfound.snoc hnonce, rfl, by simp⟩
  · have htype : machine.step s .read = some ({ s with turn := .recv }, s, none) :=
      machine_read (by simp [read, hturn, hresp])
    rw [Appending.settle_eq_self fun h => hresp h.1]
    exact ⟨_, .single htype, rfl, by simp⟩

/-- A turn of `append` that is one step of a client without the thread is a run here. -/
theorem turn_run (hturn : s.turn = .recv)
    (hs : s.caller.step (.recv data) = some (caller, o)) : ∃ tr,
      machine.Run s tr { s with caller := caller } ∧ tr.filterMap (fun x => x.2.2) = o.toList ∧
        ∀ x ∈ tr, x.1 = .recv data ∨ x.1 = .read := by
  simp only [Appending.step] at hs
  split at hs
  · next hwait =>
    have hrecv : machine.step s (.recv data) =
        some ({ s.receive data with turn := .type }, s, none) :=
      by simp only [machine, step, hwait, hturn, Option.map_some]
    obtain ⟨tr, hr, hidx, hreads⟩ := reads_run (s := { s.receive data with turn := .type }) rfl
    obtain ⟨rfl, rfl⟩ := Prod.mk.inj (Option.some.inj hs)
    refine ⟨_, (Machine.Run.single hrecv).append ?_, hidx, ?_⟩
    · rw [hturn]
      exact hr
    · intro x hx
      rcases List.mem_append.1 hx with hx | hx
      · exact .inl (congrArg Prod.fst (List.mem_singleton.1 hx))
      · exact .inr (hreads x hx)
  · cases hs

/-! ## Late responses -/

/-- The response to a request, with its index. -/
def response (headers : List Byte) (idx : BitVec 32) : List Byte :=
  setType (AppendEntry.setGIdx headers (htonl idx)) (htons ethAppendResp)

instance [∀ k v, Decidable (assigned k v)] : Decidable (AnswersRequest assigned requests buf) :=
  decidable_of_iff (∃ k : Fin requests.length, AppendEntry.nonce buf =
    AppendEntry.nonce requests[k] ∧ assigned k (seqNo (AppendEntry.gIdx buf))) <| by
  constructor
  · rintro ⟨k, hk⟩
    exact ⟨k, requests[k], List.getElem?_eq_getElem k.isLt, hk⟩
  · rintro ⟨k, headers, hk, hanswer⟩
    obtain ⟨hlt, rfl⟩ := List.getElem?_eq_some_iff.1 hk
    exact ⟨⟨k, hlt⟩, hanswer⟩

instance [∀ k v, Decidable (assigned k v)] : Decidable (Genuine assigned requests data) :=
  decidable_of_iff (sizeofRingType ≤ data.length ∧ (IsResponse data → sizeofHeaders ≤ data.length ∧
    numEntries data ≠ 0 ∧ AnswersRequest assigned requests data)) <| by
  constructor
  · rintro ⟨hlen, hresp⟩
    exact ⟨hlen, fun h => (hresp h).1, fun h => (hresp h).2.1, fun h => (hresp h).2.2⟩
  · rintro ⟨hlen, hheaders, hentries, hanswers⟩
    exact ⟨hlen, fun h => ⟨hheaders h, hentries h, hanswers h⟩⟩

instance (s : AppendThreads) (e : Event) : Decidable (s.Undisturbed e) := by
  cases e <;> unfold Undisturbed <;> infer_instance

/-- Three requests and their indices. -/
def sampleAssigned (k : Nat) (idx : BitVec 64) : Prop := [7, 8, 9][k]? = some idx

instance (k : Nat) (idx : BitVec 64) : Decidable (sampleAssigned k idx) :=
  inferInstanceAs (Decidable (_ = _))

def sampleResponse (nonce idx : BitVec 32) : List Byte :=
  response { sampleClient 1 with appendNonce := nonce }.headers idx

/-- Two appends and one to a stream. Responses to the requests before come in again in every call,
and to the request itself while `append` takes the index. -/
def calmEvents : List Event :=
  [.call .append, .recv (sampleResponse 1 7), .read, .read, .read, .read,
    .call .append, .recv (sampleResponse 1 7), .read, .read, .read,
    .receiverRecv (sampleResponse 1 7), .recv (sampleResponse 2 8), .receiverRead [], .read, .read,
    .receiverRead [], .receiverRead [], .read, .receiverRead [], .receiverRead [],
    .receiverRecv (sampleResponse 2 8), .read,
    .call (.appendStream 5), .pop, .receiverRead [], .receiverRead [], .receiverRead [],
    .receiverRead [], .receiverRead [], .pop, .receiverRecv (sampleResponse 3 9), .receiverRead [],
    .receiverRead [], .receiverRead [], .receiverRead [], .receiverRead [], .pop]

theorem returned_own_undisturbed_three : ∃ tr s,
    machine.Run (begin (sampleClient 1) []) tr s ∧
      (∀ x ∈ tr, ∀ idx, x.2.2 = some idx →
        sampleAssigned (x.2.1.caller.requests.length - 1) idx) ∧
      tr.filterMap (fun x => x.2.2) = [7, 8, 9] ∧ returned tr = [0, 1, 2] := by
  have hx : ((machine.exec (begin (sampleClient 1) []) calmEvents).any fun q => decide (
      (∀ x ∈ q.2, ∀ data ∈ x.1.data, Genuine sampleAssigned x.2.1.caller.requests data) ∧
      (∀ x ∈ q.2, x.2.1.Undisturbed x.1) ∧ q.1.caller.requests.length ≤ 2 ^ 32 ∧
      q.1.caller.completed = 3 ∧ q.2.filterMap (fun x => x.2.2) = [7, 8, 9])) = true := by
    decide +kernel
  obtain ⟨⟨s, tr⟩, hr, hx⟩ := (Option.any_eq_true ..).1 hx
  obtain ⟨hgen, hcalm, hfew, hthree, hindices⟩ := of_decide_eq_true hx
  obtain ⟨hown, hreturned, -⟩ := returned_own_undisturbed (.of_exec hr) hgen hcalm hfew
  rw [hthree] at hreturned
  exact ⟨tr, s, .of_exec hr, hown, hindices, hreturned⟩

/-- The response to the first append comes in again when the second one has compared the nonce. -/
def lateEvents : List Event :=
  [.call .append, .recv (sampleResponse 1 7), .read, .read, .read, .read, .call .append,
    .recv (sampleResponse 2 8), .read, .read, .read, .receiverRecv (sampleResponse 1 7), .read]

/-- The second append returns the index of the first. -/
theorem late_response_returned : ¬ ∀ (assigned : Nat → BitVec 64 → Prop) c normBuf tr s,
    machine.Run (begin c normBuf) tr s → AllGenuine assigned tr →
    c.appendNonce.toNat + s.caller.requests.length < 2 ^ 32 →
    ∀ x ∈ tr, ∀ idx, x.2.2 = some idx →
      assigned (x.2.1.caller.requests.length - 1) idx := by
  intro hall
  have hx : ((machine.exec (begin (sampleClient 1) []) lateEvents).any fun q => decide (
      (∀ x ∈ q.2, ∀ data ∈ x.1.data, Genuine sampleAssigned x.2.1.caller.requests data) ∧
      (sampleClient 1).appendNonce.toNat + q.1.caller.requests.length < 2 ^ 32 ∧
      ∃ x ∈ q.2, x.2.1.caller.requests.length = 2 ∧ x.2.2 = some 7)) = true := by
    decide +kernel
  obtain ⟨⟨s, tr⟩, hr, hx⟩ := (Option.any_eq_true ..).1 hx
  obtain ⟨hgen, hfew, x, hx, htwo, hidx⟩ := of_decide_eq_true hx
  have hsecond := hall sampleAssigned _ _ _ _ (.of_exec hr) hgen hfew x hx 7 hidx
  rw [htwo] at hsecond
  exact absurd hsecond (by decide)

end AppendThreads

end LogClient

end Pringles.Software
