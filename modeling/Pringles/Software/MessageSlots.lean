import Mathlib.Data.List.FinRange
import Pringles.Software.AppendResponse
import Pringles.Software.Storage

/-!
# The slots of `recvmmsg`

A `Network` keeps `BATCH_SIZE` message headers, each pointing to an address and to a vector of one
buffer. What a slot can take is written in the slot itself: `iov_len` is the room of the buffer and
`msg_namelen` that of the address. The threads of `append_server` and `append_response` lower
`iov_len` to send a datagram back from where it was received, and raise it again afterwards for every
slot of the batch.
-/

namespace Pringles.Software

def sizeofSockaddrIn : Nat := 16

/-- `msgs[i]`, whose pointers are indices of `client_addrs` and `iovecs`. -/
structure MMsgHdr where
  msgLen : Nat := 0
  msgName : Fin batchSize
  msgNamelen : Nat
  msgIov : Fin batchSize

/-- `iovecs[i]`, whose pointer is an index of `buffers`. -/
structure IoVec where
  iovBase : Fin batchSize
  iovLen : Nat

/-- The members of `Network` that batches are received into. -/
structure MessageSlots where
  msgs : Fin batchSize → MMsgHdr
  iovecs : Fin batchSize → IoVec
  clientAddrs : Fin batchSize → Address
  buffers : Fin batchSize → List Byte

/-- A datagram as `recvmmsg` hands it over, with the length that it writes for the address, and what
the loop's body reads outside the slot when it comes to it. -/
structure Arrival (ε : Type) where
  datagram : Datagram
  namelen : Nat
  env : ε

/-- One turn of a receive loop, as its surroundings have it: `recvmmsg` fails, or it returns some
datagrams, and `sendmmsg` then writes the lengths `sent` of what it has sent. -/
inductive Iteration (ε : Type) where
  | error
  | batch (arrivals : List (Arrival ε)) (fits : arrivals.length ≤ batchSize) (sent : List Nat)

namespace MessageSlots

variable {ε : Type}

/-- What the constructor of `Network` writes, into memory with any addresses and buffers. -/
def init (clientAddrs : Fin batchSize → Address) (buffers : Fin batchSize → List Byte) :
    MessageSlots where
  msgs i := { msgName := i, msgNamelen := sizeofSockaddrIn, msgIov := i }
  iovecs i := { iovBase := i, iovLen := maxPacketSize }
  clientAddrs := clientAddrs
  buffers := buffers

/-- `for (int i = 0; i < n; i++)`. -/
def forEach (n : Nat) (f : MessageSlots → Fin batchSize → MessageSlots) (m : MessageSlots) :
    MessageSlots :=
  ((List.finRange batchSize).filter (·.val < n)).foldl f m

/-- A datagram goes where the pointers of its message lead, as far as there is room. -/
def recvOne (arrivals : List (Arrival ε)) (m : MessageSlots) (i : Fin batchSize) : MessageSlots :=
  match arrivals[i.val]? with
  | none => m
  | some a =>
    let iov := m.iovecs (m.msgs i).msgIov
    let data := a.datagram.data.take iov.iovLen
    { m with
      msgs := Function.update m.msgs i
        { m.msgs i with msgLen := data.length, msgNamelen := a.namelen }
      clientAddrs := Function.update m.clientAddrs (m.msgs i).msgName a.datagram.addr
      buffers := Function.update m.buffers iov.iovBase
        (data ++ (m.buffers iov.iovBase).drop data.length) }

/-- `Network::recv_many_packets`. -/
def recvManyPackets (arrivals : List (Arrival ε)) (m : MessageSlots) : MessageSlots :=
  forEach arrivals.length (recvOne arrivals) m

/-- What the loop's body finds under the index `i`. -/
def slot (m : MessageSlots) (i : Fin batchSize) : Slot where
  buf := m.buffers i
  name := m.clientAddrs (m.msgs i).msgName
  msgLen := (m.msgs i).msgLen
  iovLen := (m.iovecs i).iovLen

/-- What it leaves there. -/
def putSlot (m : MessageSlots) (i : Fin batchSize) (s : Slot) : MessageSlots :=
  { m with
    iovecs := Function.update m.iovecs i { m.iovecs i with iovLen := s.iovLen }
    clientAddrs := Function.update m.clientAddrs (m.msgs i).msgName s.name
    buffers := Function.update m.buffers i s.buf }

def handleOne (body : ε → Slot → Slot) (arrivals : List (Arrival ε)) (m : MessageSlots)
    (i : Fin batchSize) : MessageSlots :=
  match arrivals[i.val]? with
  | none => m
  | some a => m.putSlot i (body a.env (m.slot i))

/-- `sendmmsg` writes what it has sent of a message. -/
def sendOne (sent : List Nat) (m : MessageSlots) (i : Fin batchSize) : MessageSlots :=
  match sent[i.val]? with
  | none => m
  | some len => { m with msgs := Function.update m.msgs i { m.msgs i with msgLen := len } }

/-- The loop behind `sendmmsg`. -/
def restoreOne (m : MessageSlots) (i : Fin batchSize) : MessageSlots :=
  { m with
    msgs := Function.update m.msgs i { m.msgs i with msgNamelen := sizeofSockaddrIn }
    iovecs := Function.update m.iovecs i { m.iovecs i with iovLen := maxPacketSize } }

/-- One turn of a receive loop with the body `body`. -/
def iterate (body : ε → Slot → Slot) (m : MessageSlots) : Iteration ε → MessageSlots
  | .error => m
  | .batch arrivals _ sent =>
    let n := arrivals.length
    forEach n restoreOne
      (forEach n (sendOne sent) (forEach n (handleOne body arrivals) (recvManyPackets arrivals m)))

end MessageSlots

/-- The loop of `LogStorage::append_server`, which leaves out no element. -/
def LogStorage.appendServerLoop (m : MessageSlots) (it : Iteration Unit) : MessageSlots :=
  m.iterate (fun _ => answer) it

/-- The loop of `LogSoftwareSwitch::append_response`. An element is left out when it does not get a
quorum by the `ack_map` of the time. -/
def LogSoftwareSwitch.appendResponseLoop (ackThreshold : BitVec 64) (m : MessageSlots)
    (it : Iteration AckMap) : MessageSlots :=
  m.iterate (fun ackMap s => (appendResponse ackThreshold ackMap s).2) it

namespace MessageSlots

variable {ε : Type} {m m' m'' : MessageSlots} {n : Nat} {i j : Fin batchSize}
  {arrivals : List (Arrival ε)}

/-- The pointers of every slot are its own. -/
structure Own (m : MessageSlots) : Prop where
  msgName : ∀ i, (m.msgs i).msgName = i
  msgIov : ∀ i, (m.msgs i).msgIov = i
  iovBase : ∀ i, (m.iovecs i).iovBase = i

/-- The slot has room for a whole datagram and its address. -/
structure Room (m : MessageSlots) (i : Fin batchSize) : Prop where
  iovLen : (m.iovecs i).iovLen = maxPacketSize
  namelen : (m.msgs i).msgNamelen = sizeofSockaddrIn

/-- What has to hold when `recvmmsg` is called. -/
structure Restored (m : MessageSlots) : Prop where
  own : m.Own
  room : ∀ i, m.Room i

theorem restored_init (clientAddrs : Fin batchSize → Address)
    (buffers : Fin batchSize → List Byte) : (init clientAddrs buffers).Restored :=
  ⟨⟨fun _ => rfl, fun _ => rfl, fun _ => rfl⟩, fun _ => ⟨rfl, rfl⟩⟩

/-! ## The frame of a loop

A loop over the first `n` slots leaves the pointers of all slots alone, and the room of those from
`n` on. -/

structure Kept (n : Nat) (m m' : MessageSlots) : Prop where
  own : m.Own → m'.Own
  room : ∀ i, n ≤ i.val → m.Room i → m'.Room i

theorem Kept.refl (n : Nat) (m : MessageSlots) : Kept n m m := ⟨id, fun _ _ => id⟩

theorem Kept.trans (h : Kept n m m') (h' : Kept n m' m'') : Kept n m m'' :=
  ⟨h'.own ∘ h.own, fun i hi => h'.room i hi ∘ h.room i hi⟩

theorem mem_indices : i ∈ (List.finRange batchSize).filter (·.val < n) ↔ i.val < n := by
  simp

theorem kept_forEach {f : MessageSlots → Fin batchSize → MessageSlots}
    (hf : ∀ m i, i.val < n → Kept n m (f m i)) (m : MessageSlots) : Kept n m (forEach n f m) := by
  have hfold (is : List (Fin batchSize)) (his : ∀ i ∈ is, i.val < n) :
      Kept n m (is.foldl f m) := by
    induction is generalizing m with
    | nil => exact .refl n m
    | cons i is ih =>
      rw [List.forall_mem_cons] at his
      exact (hf m i his.1).trans (ih (f m i) his.2)
  exact hfold _ fun i hi => mem_indices.1 hi

/-- The slot `i` may be written, but for its pointers. -/
theorem kept_write (m : MessageSlots) (hi : i.val < n) (msg : MMsgHdr) (iov : IoVec)
    (hname : msg.msgName = (m.msgs i).msgName) (hiov : msg.msgIov = (m.msgs i).msgIov)
    (hbase : iov.iovBase = (m.iovecs i).iovBase) (clientAddrs : Fin batchSize → Address)
    (buffers : Fin batchSize → List Byte) :
    Kept n m ⟨Function.update m.msgs i msg, Function.update m.iovecs i iov, clientAddrs, buffers⟩ := by
  constructor
  · intro h
    refine ⟨?_, ?_, ?_⟩
    all_goals intro j
    · by_cases hj : j = i
      · simp [hj, hname, h.msgName]
      · simp [hj, h.msgName]
    · by_cases hj : j = i
      · simp [hj, hiov, h.msgIov]
      · simp [hj, h.msgIov]
    · by_cases hj : j = i
      · simp [hj, hbase, h.iovBase]
      · simp [hj, h.iovBase]
  · intro j hj h
    have hne : j ≠ i := by
      rintro rfl
      omega
    constructor
    · simpa [hne] using h.iovLen
    · simpa [hne] using h.namelen

theorem kept_recvOne (hi : i.val < n) (m : MessageSlots) : Kept n m (recvOne arrivals m i) := by
  unfold recvOne
  cases arrivals[i.val]? with
  | none => exact .refl n m
  | some a =>
    have hwrite := kept_write m hi { m.msgs i with
      msgLen := (a.datagram.data.take (m.iovecs (m.msgs i).msgIov).iovLen).length
      msgNamelen := a.namelen } (m.iovecs i) rfl rfl rfl
    rw [Function.update_eq_self] at hwrite
    exact hwrite _ _

theorem kept_handleOne (hi : i.val < n) (body : ε → Slot → Slot) (arrivals : List (Arrival ε))
    (m : MessageSlots) :
    Kept n m (handleOne body arrivals m i) := by
  unfold handleOne
  cases arrivals[i.val]? with
  | none => exact .refl n m
  | some a =>
    have hwrite := kept_write m hi (m.msgs i) { m.iovecs i with
      iovLen := (body a.env (m.slot i)).iovLen } rfl rfl rfl
    rw [Function.update_eq_self] at hwrite
    exact hwrite _ _

theorem kept_sendOne (hi : i.val < n) (sent : List Nat) (m : MessageSlots) :
    Kept n m (sendOne sent m i) := by
  unfold sendOne
  cases sent[i.val]? with
  | none => exact .refl n m
  | some len =>
    have hwrite := kept_write m hi { m.msgs i with msgLen := len } (m.iovecs i) rfl rfl rfl
    rw [Function.update_eq_self] at hwrite
    exact hwrite _ _

theorem kept_restoreOne (hi : i.val < n) (m : MessageSlots) : Kept n m (restoreOne m i) :=
  kept_write m hi { m.msgs i with msgNamelen := sizeofSockaddrIn }
    { m.iovecs i with iovLen := maxPacketSize } rfl rfl rfl _ _

/-! ## The loop that restores -/

theorem room_restoreOne (m : MessageSlots) (i : Fin batchSize) : (restoreOne m i).Room i := by
  constructor
  · simp [restoreOne]
  · simp [restoreOne]

theorem room_restoreOne_ne (h : m.Room j) (i : Fin batchSize) : (restoreOne m i).Room j := by
  by_cases hj : j = i
  · exact hj ▸ room_restoreOne m j
  · constructor
    · simpa [restoreOne, hj] using h.iovLen
    · simpa [restoreOne, hj] using h.namelen

/-- Every slot that the loop comes to has room again, and those that had room keep it. -/
theorem room_restore (h : j.val < n ∨ m.Room j) : (forEach n restoreOne m).Room j := by
  have hfold (is : List (Fin batchSize)) (hj : j ∈ is ∨ m.Room j) :
      (is.foldl restoreOne m).Room j := by
    clear h
    induction is generalizing m with
    | nil => exact hj.resolve_left List.not_mem_nil
    | cons i is ih =>
      rcases hj with hmem | hroom
      · rcases List.mem_cons.1 hmem with rfl | hmem
        · exact ih (.inr (room_restoreOne m j))
        · exact ih (.inl hmem)
      · exact ih (.inr (room_restoreOne_ne hroom i))
  exact hfold _ (h.imp_left mem_indices.2)

/-- **One turn of a receive loop restores every slot,** whatever its body does to those of the
batch. -/
theorem restored_iterate (h : m.Restored) (body : ε → Slot → Slot) (it : Iteration ε) :
    (m.iterate body it).Restored := by
  cases it with
  | error => exact h
  | batch arrivals fits sent =>
    have hrecv : Kept arrivals.length m (recvManyPackets arrivals m) :=
      kept_forEach (fun m i hi => kept_recvOne hi m) m
    have hhandle := hrecv.trans
      (kept_forEach (fun m i hi => kept_handleOne hi body arrivals m) _)
    have hsend := hhandle.trans (kept_forEach (fun m i hi => kept_sendOne hi sent m) _)
    have hrestore := hsend.trans (kept_forEach (fun m i hi => kept_restoreOne hi m) _)
    refine ⟨hrestore.own h.own, fun i => room_restore ?_⟩
    by_cases hi : i.val < arrivals.length
    · exact .inl hi
    · exact .inr (hsend.room i (Nat.le_of_not_lt hi) (h.room i))

/-! ## What is received -/

/-- A slot after `recvmmsg`, whether a datagram has arrived for it or not. -/
def received (arrivals : List (Arrival ε)) (i : Fin batchSize) (s : Slot) : Slot :=
  match arrivals[i.val]? with
  | some a => s.recv a.datagram
  | none => s

theorem slot_recvOne (h : m.Own) :
    (recvOne arrivals m i).slot i = received arrivals i (m.slot i) := by
  unfold recvOne received
  cases arrivals[i.val]? with
  | none => rfl
  | some a => simp [slot, Slot.recv, h.msgName, h.msgIov, h.iovBase]

theorem slot_recvOne_ne (h : m.Own) (hne : j ≠ i) : (recvOne arrivals m i).slot j = m.slot j := by
  unfold recvOne
  cases arrivals[i.val]? with
  | none => rfl
  | some a => simp [slot, h.msgName, h.msgIov, h.iovBase, hne]

/-- Each datagram is received into the slot of its index. -/
theorem slot_recvManyPackets (h : m.Own) (arrivals : List (Arrival ε)) (i : Fin batchSize) :
    (recvManyPackets arrivals m).slot i = received arrivals i (m.slot i) := by
  have hfold (is : List (Fin batchSize)) (hnodup : is.Nodup) :
      (is.foldl (recvOne arrivals) m).slot i =
        if i ∈ is then received arrivals i (m.slot i) else m.slot i := by
    induction is generalizing m with
    | nil => rfl
    | cons j is ih =>
      obtain ⟨hj, hnodup⟩ := List.nodup_cons.1 hnodup
      have hown : (recvOne arrivals m j).Own := (kept_recvOne j.isLt m).own h
      rw [List.foldl_cons, ih hown hnodup]
      by_cases hij : i = j
      · subst hij
        rw [if_neg hj, if_pos List.mem_cons_self, slot_recvOne h]
      · simp [slot_recvOne_ne h hij, hij]
  rw [recvManyPackets, forEach,
    hfold _ ((List.nodup_finRange batchSize).filter (·.val < arrivals.length))]
  split
  · rfl
  · next hi =>
    have hnone : arrivals[i.val]? = none :=
      List.getElem?_eq_none (Nat.le_of_not_lt (mt mem_indices.2 hi))
    rw [received, hnone]

/-- A batch of datagrams is received into the first slots, and each of them is cut only at the size
that a buffer has. -/
def TakesAll (ε : Type) (m : MessageSlots) : Prop :=
  ∀ arrivals : List (Arrival ε), ∀ i a, arrivals[i.val]? = some a →
    let s := (recvManyPackets arrivals m).slot i
    s.msgLen = min maxPacketSize a.datagram.data.length ∧
      a.datagram.data.take maxPacketSize <+: s.buf

theorem takesAll_of_restored (h : m.Restored) : m.TakesAll ε := by
  intro arrivals i a ha
  have hroom : (m.slot i).iovLen = maxPacketSize := (h.room i).iovLen
  simp only [slot_recvManyPackets h.own, received, ha, Slot.recv, hroom, List.length_take]
  exact ⟨trivial, List.prefix_append ..⟩

end MessageSlots

open MessageSlots in
/-- **At every call of `recvmmsg` all slots are restored**, after any turns of either loop. -/
theorem slots_restored (clientAddrs : Fin batchSize → Address)
    (buffers : Fin batchSize → List Byte) :
    (∀ its : List (Iteration Unit),
      let m := its.foldl LogStorage.appendServerLoop (init clientAddrs buffers)
      m.Restored ∧ m.TakesAll Unit) ∧
    ∀ (ackThreshold : BitVec 64) (its : List (Iteration AckMap)),
      let m := its.foldl (LogSoftwareSwitch.appendResponseLoop ackThreshold)
        (init clientAddrs buffers)
      m.Restored ∧ m.TakesAll AckMap := by
  have hrun {ε : Type} (body : ε → Slot → Slot) (its : List (Iteration ε)) (m : MessageSlots)
      (h : m.Restored) : (its.foldl (iterate body) m).Restored := by
    induction its generalizing m with
    | nil => exact h
    | cons it its ih => exact ih _ (restored_iterate h body it)
  constructor
  · intro its
    have h := hrun (fun _ => LogStorage.answer) its _ (restored_init clientAddrs buffers)
    exact ⟨h, takesAll_of_restored h⟩
  · intro ackThreshold its
    have h := hrun (fun ackMap s => (appendResponse ackThreshold ackMap s).2) its _
      (restored_init clientAddrs buffers)
    exact ⟨h, takesAll_of_restored h⟩

end Pringles.Software
