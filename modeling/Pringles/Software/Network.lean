import Pringles.Lib.Machine
import Pringles.Software.RingHeaders

/-!
# Batches of datagrams

A batch server receives up to `BATCH_SIZE` datagrams into its slots (`recvmmsg`), handles the slots
one by one and sends what the slots then hold (`sendmmsg`). A slot is not cleared between batches:
behind a datagram its buffer still holds what was there before. All slots of a batch are sent, those
that the handler left alone as well; these still name their sender.
-/

namespace Pringles.Software

def batchSize : Nat := 64
def maxPacketSize : Nat := 8192

theorem sizeofHeaders_le_maxPacketSize : sizeofHeaders ≤ maxPacketSize := by decide

/-- `struct sockaddr_in`, in network byte order. -/
structure Address where
  ip : BitVec 32
  port : BitVec 16
deriving DecidableEq

/-- A datagram, with the address that it comes from or goes to. -/
structure Datagram where
  addr : Address
  data : List Byte
deriving DecidableEq

/-- The sequence number that a datagram is about. -/
def Datagram.seqNo (d : Datagram) : BitVec 64 := Software.seqNo (AppendEntry.gIdx d.data)

/-- The most bytes that fit in one UDP datagram. -/
def maxUdpPayload : Nat := 65507

/-- What `sendto` sends: `size` bytes, of which `head` are those that lie in the buffer. The others
are read from behind it. -/
structure Sent where
  dest : Address
  size : Nat
  head : List Byte
deriving DecidableEq

/-- `sendto` of the first `size` bytes of a buffer. It refuses what does not fit in one datagram. -/
def sendto (dest : Address) (buf : List Byte) (size : Nat) : Option Sent :=
  if size ≤ maxUdpPayload then some ⟨dest, size, buf.take size⟩ else none

/-- A datagram that was sent arrives with these bytes. -/
structure Sent.Brings (s : Sent) (data : List Byte) : Prop where
  length : data.length = s.size
  head : s.head <+: data

/-- When all of it lies in the buffer, that is what arrives. -/
theorem Sent.brings_iff {s : Sent} {data : List Byte} (h : s.head.length = s.size) :
    s.Brings data ↔ data = s.head := by
  constructor
  · intro hb
    exact (hb.head.eq_of_length (h.trans hb.length.symm)).symm
  · rintro rfl
    exact ⟨h, List.prefix_rfl⟩

/-- `norm_buf` after `Network::recv_packet`. -/
def recvPacket (normBuf data : List Byte) : List Byte :=
  let data := data.take maxPacketSize
  data ++ normBuf.drop data.length

theorem recvPacket_eq {normBuf d : List Byte} (h : d.length ≤ maxPacketSize) :
    recvPacket normBuf d = d ++ normBuf.drop d.length := by
  rw [recvPacket, List.take_of_length_le h]

theorem take_recvPacket {normBuf d : List Byte} {n : Nat} (h : n ≤ d.length)
    (hn : n ≤ maxPacketSize) : (recvPacket normBuf d).take n = d.take n := by
  have hle : n ≤ (d.take maxPacketSize).length := by
    rw [List.length_take]
    omega
  rw [recvPacket, List.take_append_of_le_length hle, List.take_take, Nat.min_eq_left hn]

/-- `buffers[i]`, `client_addrs[i]`, `msgs[i].msg_len` and `iovecs[i].iov_len`. -/
structure Slot where
  buf : List Byte
  name : Address
  msgLen : Nat
  iovLen : Nat

namespace Slot

/-- The slot can take a datagram. -/
structure Ready (s : Slot) : Prop where
  length : s.buf.length = maxPacketSize
  iovLen : s.iovLen = maxPacketSize

/-- A datagram overwrites the head of the buffer. -/
def recv (s : Slot) (d : Datagram) : Slot :=
  let data := d.data.take s.iovLen
  { s with buf := data ++ s.buf.drop data.length, name := d.addr, msgLen := data.length }

/-- What `sendmmsg` sends for the slot. -/
def sent (s : Slot) : Datagram := ⟨s.name, s.buf.take s.iovLen⟩

def reset (s : Slot) : Slot := { s with iovLen := maxPacketSize }

theorem length_recv {s : Slot} (h : s.Ready) (d : Datagram) :
    (s.recv d).buf.length = maxPacketSize := by
  have hle : (d.data.take s.iovLen).length ≤ s.buf.length := by
    rw [h.length, h.iovLen]
    exact List.length_take_le ..
  simp only [recv, List.length_append, List.length_drop]
  rw [← h.length]
  omega

/-- A slot receives the whole headers of a datagram that has them. -/
theorem sizeofHeaders_le_msgLen {s : Slot} (h : s.Ready) {d : Datagram}
    (hd : sizeofHeaders ≤ d.data.length) : sizeofHeaders ≤ (s.recv d).msgLen := by
  simp only [recv, List.length_take, h.iovLen]
  exact Nat.le_min.2 ⟨sizeofHeaders_le_maxPacketSize, hd⟩

/-- A received datagram is found in the headers of its slot. -/
theorem sameHeaders_recv {s : Slot} (h : s.Ready) {d : Datagram}
    (hd : sizeofHeaders ≤ d.data.length) : SameHeaders (s.recv d).buf d.data := by
  have htake : sizeofHeaders ≤ (d.data.take s.iovLen).length := sizeofHeaders_le_msgLen h hd
  refine (SameHeaders.append_left htake).trans (SameHeaders.take ?_)
  rw [h.iovLen]
  exact sizeofHeaders_le_maxPacketSize

end Slot

/-! ## The loop -/

/-- `recvmmsg`. -/
def recvManyPackets : List Slot → List Datagram → List Slot
  | s :: slots, d :: ds => s.recv d :: recvManyPackets slots ds
  | slots, _ => slots

variable {σ : Type}

/-- The loop over the slots of a batch. -/
def handleAll (handle : σ → Slot → σ × Slot) : σ → List Slot → σ × List Slot
  | st, [] => (st, [])
  | st, s :: slots =>
    let q := handle st s
    let r := handleAll handle q.1 slots
    (r.1, q.2 :: r.2)

/-- A thread that serves batches, with the state that its handler works on. -/
structure BatchServer (σ : Type) where
  state : σ
  slots : List Slot

namespace BatchServer

/-- One turn of the loop: a batch is received, handled and sent. -/
def turn (handle : σ → Slot → σ × Slot) (b : BatchServer σ) (ds : List Datagram) :
    Option (BatchServer σ × List Datagram) :=
  if ds.length ≤ batchSize then
    let slots := recvManyPackets b.slots ds
    let q := handleAll handle b.state (slots.take ds.length)
    some (⟨q.1, q.2.map Slot.reset ++ slots.drop ds.length⟩, q.2.map Slot.sent)
  else none

def machine (handle : σ → Slot → σ × Slot) :
    Machine (BatchServer σ) (List Datagram) (List Datagram) :=
  ⟨turn handle⟩

/-- A batch that is not too long is served. -/
theorem exists_run (handle : σ → Slot → σ × Slot) (b : BatchServer σ) (ds : List Datagram)
    (h : ds.length ≤ batchSize) : ∃ out b', (machine handle).Run b [(ds, out)] b' :=
  ⟨_, _, .single (if_pos h)⟩

/-- What has arrived and what has been sent, over a run. -/
def received (tr : List (List Datagram × List Datagram)) : List Datagram := tr.flatMap Prod.fst

def sent (tr : List (List Datagram × List Datagram)) : List Datagram := tr.flatMap Prod.snd

structure Ready (b : BatchServer σ) : Prop where
  length : b.slots.length = batchSize
  slots : ∀ s ∈ b.slots, s.Ready

/-! ## The rule of the loop

`I` relates the state of the handler to what has been received and sent. One slot at a time
preserves it, so the loop does. -/

section
variable {handle : σ → Slot → σ × Slot} {P : Datagram → Prop}
  {I : σ → List Datagram → List Datagram → Prop} {b b' : BatchServer σ} {ds out : List Datagram}

theorem drop_recvManyPackets (slots : List Slot) (ds : List Datagram) :
    (recvManyPackets slots ds).drop ds.length = slots.drop ds.length := by
  induction ds generalizing slots with
  | nil => cases slots <;> rfl
  | cons d ds ih =>
    cases slots with
    | nil => rfl
    | cons s slots => exact ih slots

theorem getElem?_recvManyPackets (slots : List Slot) (ds : List Datagram) (j : Nat) :
    (recvManyPackets slots ds)[j]? = (slots[j]?).map fun s =>
      match ds[j]? with
      | some d => s.recv d
      | none => s := by
  induction ds generalizing slots j with
  | nil =>
    cases slots <;> simp [recvManyPackets]
  | cons d ds ih =>
    cases slots with
    | nil => rfl
    | cons s slots =>
      cases j with
      | zero => rfl
      | succ j => exact ih slots j

theorem length_recvManyPackets (slots : List Slot) (ds : List Datagram) :
    (recvManyPackets slots ds).length = slots.length := by
  induction ds generalizing slots with
  | nil => cases slots <;> rfl
  | cons d ds ih =>
    cases slots with
    | nil => rfl
    | cons s slots => exact congrArg (· + 1) (ih slots)

variable (hbuf : ∀ st s, (handle st s).2.buf.length = s.buf.length)
  (hstep : ∀ (st : σ) (rs ss : List Datagram) (s : Slot) (d : Datagram), s.Ready → P d →
    I st rs ss →
      I (handle st (s.recv d)).1 (rs ++ [d]) (ss ++ [(handle st (s.recv d)).2.sent]))

include hbuf hstep in
theorem handleAll_invariant {st : σ} {rs ss : List Datagram} {slots : List Slot}
    (hslots : ∀ s ∈ slots, s.Ready) (hlen : ds.length ≤ slots.length) (hP : ∀ d ∈ ds, P d)
    (hI : I st rs ss) {q : σ × List Slot}
    (hq : handleAll handle st ((recvManyPackets slots ds).take ds.length) = q) :
    I q.1 (rs ++ ds) (ss ++ q.2.map Slot.sent) ∧ q.2.length = ds.length ∧
      ∀ s ∈ q.2, s.buf.length = maxPacketSize := by
  induction ds generalizing st rs ss slots q with
  | nil =>
    cases slots with
    | nil =>
      subst hq
      simpa [recvManyPackets, handleAll] using hI
    | cons s slots =>
      subst hq
      simpa [recvManyPackets, handleAll] using hI
  | cons d ds ih =>
    cases slots with
    | nil => simp at hlen
    | cons s slots =>
      simp only [List.forall_mem_cons, List.length_cons, Nat.add_le_add_iff_right] at hslots hlen hP
      simp only [recvManyPackets, List.length_cons, List.take_succ_cons, handleAll] at hq
      have hone := hstep st rs ss s d hslots.1 hP.1 hI
      obtain ⟨hrest, hlength, hbufs⟩ := ih hslots.2 hlen hP.2 hone rfl
      subst hq
      refine ⟨?_, ?_, ?_⟩
      · simpa using hrest
      · simp [hlength]
      · simp only [List.forall_mem_cons]
        exact ⟨by rw [hbuf, Slot.length_recv hslots.1], hbufs⟩

include hbuf hstep in
theorem turn_invariant {rs ss : List Datagram} (hready : b.Ready) (hP : ∀ d ∈ ds, P d)
    (hI : I b.state rs ss) (ht : b.turn handle ds = some (b', out)) :
    b'.Ready ∧ I b'.state (rs ++ ds) (ss ++ out) := by
  simp only [turn, Option.ite_none_right_eq_some, Option.some.injEq, Prod.mk.injEq] at ht
  obtain ⟨hlen, rfl, rfl⟩ := ht
  obtain ⟨hinv, hlength, hbufs⟩ := handleAll_invariant hbuf hstep hready.slots
    (hready.length ▸ hlen) hP hI rfl
  refine ⟨⟨?_, ?_⟩, hinv⟩
  · rw [List.length_append, List.length_map, hlength, drop_recvManyPackets, List.length_drop,
      hready.length]
    omega
  · simp only [List.forall_mem_append, List.forall_mem_map, drop_recvManyPackets]
    refine ⟨fun s hs => ⟨hbufs s hs, rfl⟩, ?_⟩
    exact fun s hs => hready.slots s (List.mem_of_mem_drop hs)

include hbuf hstep in
/-- **The rule.** What one slot preserves, every run preserves. -/
theorem run_invariant {tr : List (List Datagram × List Datagram)}
    (hr : (machine handle).Run b tr b') (hready : b.Ready) (hP : ∀ d ∈ received tr, P d)
    (hI : I b.state [] []) : b'.Ready ∧ I b'.state (received tr) (sent tr) := by
  induction hr with
  | nil => exact ⟨hready, hI⟩
  | snoc hr hs ih =>
    simp only [received, sent, List.flatMap_append, List.flatMap_singleton,
      List.forall_mem_append] at hP ih ⊢
    obtain ⟨hready', hinv⟩ := ih hP.1
    exact turn_invariant hbuf hstep hready' hP.2 hinv hs

end

end BatchServer

end Pringles.Software
