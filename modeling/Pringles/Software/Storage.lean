import Mathlib.Logic.Function.Basic
import Pringles.Lib.CString
import Pringles.Software.Network

/-!
# The storage server

Any number of threads of `append_server`, each with its own socket and slots, share the map
`concurrent_stor`. A thread takes the datagrams of a batch one by one: it stores the C string behind
the headers under the sequence number, unless something is stored there, and turns the datagram into
a response. What `store` returns is not looked at: at the end of the batch every datagram is
answered, also when its entry was refused.

What is stored stays (`stor_run`), so an acknowledgement is right for good when it is right at all:
when nothing had been stored under the number and the payload is the C string, or when the very same
payload had been stored (`acked_iff`).
-/

namespace Pringles.Software

open Bytes

/-- `concurrent_stor`. -/
abbrev Stor := BitVec 64 → Option (List Byte)

/-- What an append request is to store: `payload_size` bytes behind the headers. -/
def Datagram.payload (d : Datagram) : List Byte :=
  (d.data.drop sizeofHeaders).take (ntohl (AppendEntry.payloadSize d.data)).toNat

def Datagram.type (d : Datagram) : BitVec 16 := load16 d.data 0

namespace LogStorage

/-- `LogStorage::store`, with what it returns. -/
def store (stor : Stor) (idx : BitVec 64) (entry : List Byte) : Stor × Bool :=
  match stor idx with
  | none => (Function.update stor idx (some entry), true)
  | some _ => (stor, false)

/-- `LogStorage::get`. -/
def get (stor : Stor) (idx : BitVec 64) : List Byte := (stor idx).getD []

/-- The slot of a request, turned into that of its response. -/
def answer (s : Slot) : Slot :=
  { s with
    buf := setType s.buf (htons ethAppendResp)
    iovLen := if 0 < s.msgLen then s.msgLen else s.iovLen }

/-- The body of the loop in `LogStorage::append_server`. -/
def appendServer (stor : Stor) (s : Slot) : Option (Stor × Slot) :=
  let buf := setType s.buf (htons ethAppendResp)
  (cstr (buf.drop sizeofHeaders)).map fun stringToStore =>
    ((store stor (seqNo (AppendEntry.gIdx buf)) stringToStore).1, answer s)

/-! ## The threads -/

/-- Where a thread stands: it waits for a batch, or it has handled the first `i` datagrams of one. -/
inductive Phase where
  | receiving
  | handling (batch : List Datagram) (i : Nat)

structure Thread where
  slots : List Slot
  phase : Phase := .receiving

end LogStorage

structure LogStorage (τ : Type) where
  stor : Stor := fun _ => none
  threads : τ → LogStorage.Thread

namespace LogStorage

inductive Event (τ : Type) where
  | recv (t : τ) (ds : List Datagram)
  | handle (t : τ)
  | send (t : τ)

/-- What a step has done: a datagram was handled, with the slot that it was found in; or a batch was
answered, each response beside its request. -/
inductive Done where
  | received
  | handled (d : Datagram) (slot : Slot)
  | sent (acks : List (Datagram × Datagram))

variable {τ : Type} [DecidableEq τ]

def setThread (s : LogStorage τ) (t : τ) (thread : Thread) : LogStorage τ :=
  { s with threads := Function.update s.threads t thread }

def step (s : LogStorage τ) : Event τ → Option (LogStorage τ × Done)
  | .recv t ds =>
    match (s.threads t).phase with
    | .receiving =>
      if ds.length ≤ batchSize then
        some (s.setThread t ⟨recvManyPackets (s.threads t).slots ds, .handling ds 0⟩, .received)
      else none
    | .handling _ _ => none
  | .handle t =>
    match (s.threads t).phase with
    | .receiving => none
    | .handling ds i => do
      let d ← ds[i]?
      let slot ← (s.threads t).slots[i]?
      let q ← appendServer s.stor slot
      pure (setThread { s with stor := q.1 } t
        ⟨(s.threads t).slots.set i q.2, .handling ds (i + 1)⟩, .handled d slot)
  | .send t =>
    match (s.threads t).phase with
    | .receiving => none
    | .handling ds i =>
      if i = ds.length then
        let done := (s.threads t).slots.take ds.length
        some (s.setThread t
          ⟨done.map Slot.reset ++ (s.threads t).slots.drop ds.length, .receiving⟩,
          .sent (ds.zip (done.map Slot.sent)))
      else none

variable (τ) in
def machine : Machine (LogStorage τ) (Event τ) Done := ⟨step⟩

/-- Nothing is stored, and every thread waits for its first batch. -/
def start (slots : τ → List Slot) : LogStorage τ where
  threads t := ⟨slots t, .receiving⟩

/-! ## What is stored -/

variable {s s' : LogStorage τ} {e : Event τ} {o : Done} {t : τ} {tr tr' : List (Event τ × Done)}
  {stor stor' : Stor} {n : BitVec 64} {entry : List Byte} {slot slot' : Slot} {d : Datagram}

@[simp] theorem stor_setThread (s : LogStorage τ) (t : τ) (thread : Thread) :
    (s.setThread t thread).stor = s.stor := rfl

@[simp] theorem setThread_self (s : LogStorage τ) (t : τ) (thread : Thread) :
    (s.setThread t thread).threads t = thread := Function.update_self ..

theorem setThread_ne {u : τ} (s : LogStorage τ) (thread : Thread) (h : u ≠ t) :
    (s.setThread t thread).threads u = s.threads u := Function.update_of_ne h ..

theorem store_self (stor : Stor) (n : BitVec 64) (entry : List Byte) :
    (store stor n entry).1 n = some ((stor n).getD entry) := by
  unfold store
  cases h : stor n with
  | none => exact Function.update_self ..
  | some old => exact h

/-- An entry that was not there is what was to be stored. -/
theorem store_of_none {k : BitVec 64} {string : List Byte} (h : stor k = none)
    (hk : (store stor n string).1 k = some entry) : string = entry := by
  by_cases hn : k = n
  · subst hn
    rw [store_self, h, Option.getD_none, Option.some.injEq] at hk
    exact hk
  · have hkeep : (store stor n string).1 k = stor k := by
      unfold store
      split
      · exact Function.update_of_ne hn ..
      · rfl
    rw [hkeep, h] at hk
    cases hk

/-- The store is written once. -/
theorem store_of_some {k : BitVec 64} {old : List Byte} (h : stor k = some old) :
    (store stor n entry).1 k = some old := by
  unfold store
  cases hn : stor n with
  | none =>
    have hne : k ≠ n := by
      rintro rfl
      rw [hn] at h
      cases h
    exact (Function.update_of_ne hne ..).trans h
  | some _ => exact h

theorem appendServer_eq_some {q : Stor × Slot} : appendServer stor slot = some q ↔
    ∃ string, Terminated string (slot.buf.drop sizeofHeaders) ∧
      q = ((store stor (seqNo (AppendEntry.gIdx slot.buf)) string).1, answer slot) := by
  have hdrop : (setType slot.buf (htons ethAppendResp)).drop sizeofHeaders =
      slot.buf.drop sizeofHeaders := drop_store16 (by decide)
  have hgIdx : AppendEntry.gIdx (setType slot.buf (htons ethAppendResp)) =
      AppendEntry.gIdx slot.buf := SameHeaders.gIdx (SameHeaders.setType _ _)
  simp only [appendServer, hdrop, hgIdx, Option.map_eq_some_iff, cstr_eq_some]
  exact exists_congr fun string => and_congr_right fun _ => eq_comm

/-- Under a new number the server stores the string that it finds behind the headers. -/
theorem appendServer_stores_iff (hfresh : stor (seqNo (AppendEntry.gIdx slot.buf)) = none) :
    (∃ stor' slot', appendServer stor slot = some (stor', slot') ∧
      stor' (seqNo (AppendEntry.gIdx slot.buf)) = some entry) ↔
    Terminated entry (slot.buf.drop sizeofHeaders) := by
  constructor
  · rintro ⟨stor', slot', hserve, hentry⟩
    obtain ⟨string, hterm, heq⟩ := appendServer_eq_some.1 hserve
    obtain ⟨rfl, -⟩ := Prod.mk.inj heq
    rwa [← store_of_none hfresh hentry]
  · intro hterm
    refine ⟨_, _, appendServer_eq_some.2 ⟨entry, hterm, rfl⟩, ?_⟩
    rw [store_self, hfresh, Option.getD_none]

/-- What a step can do. -/
theorem step_cases (h : s.step e = some (s', o)) :
    (∃ t ds, e = .recv t ds ∧ o = .received ∧ (s.threads t).phase = .receiving ∧
      ds.length ≤ batchSize ∧
      s' = s.setThread t ⟨recvManyPackets (s.threads t).slots ds, .handling ds 0⟩) ∨
    (∃ t ds i d slot stor slot', e = .handle t ∧ o = .handled d slot ∧
      (s.threads t).phase = .handling ds i ∧ ds[i]? = some d ∧
      (s.threads t).slots[i]? = some slot ∧ appendServer s.stor slot = some (stor, slot') ∧
      s' = setThread { s with stor := stor } t
        ⟨(s.threads t).slots.set i slot', .handling ds (i + 1)⟩) ∨
    ∃ t ds, e = .send t ∧ (s.threads t).phase = .handling ds ds.length ∧
      o = .sent (ds.zip (((s.threads t).slots.take ds.length).map Slot.sent)) ∧
      s' = s.setThread t ⟨((s.threads t).slots.take ds.length).map Slot.reset ++
        (s.threads t).slots.drop ds.length, .receiving⟩ := by
  cases e with
  | recv t ds =>
    simp only [step] at h
    split at h
    · rename_i hphase
      simp only [Option.ite_none_right_eq_some, Option.some.injEq, Prod.mk.injEq] at h
      obtain ⟨hlen, rfl, rfl⟩ := h
      exact .inl ⟨t, ds, rfl, rfl, hphase, hlen, rfl⟩
    · cases h
  | handle t =>
    simp only [step] at h
    split at h
    · cases h
    · rename_i ds i hphase
      simp only [Option.bind_eq_bind, Option.bind_eq_some_iff, Option.pure_def,
        Option.some.injEq, Prod.mk.injEq] at h
      obtain ⟨d, hd, slot, hslot, ⟨stor, slot'⟩, hserve, rfl, rfl⟩ := h
      exact .inr (.inl ⟨t, ds, i, d, slot, stor, slot', rfl, rfl, hphase, hd, hslot, hserve, rfl⟩)
  | send t =>
    simp only [step] at h
    split at h
    · cases h
    · rename_i ds i hphase
      simp only [Option.ite_none_right_eq_some, Option.some.injEq, Prod.mk.injEq] at h
      obtain ⟨rfl, rfl, rfl⟩ := h
      exact .inr (.inr ⟨t, ds, rfl, hphase, rfl, rfl⟩)

/-- A step leaves what is stored where it is. -/
theorem stor_step (h : s.step e = some (s', o)) {old : List Byte} (hn : s.stor n = some old) :
    s'.stor n = some old := by
  rcases step_cases h with ⟨t, ds, -, -, -, -, rfl⟩ |
    ⟨t, ds, i, d, slot, stor, slot', -, -, -, -, -, hserve, rfl⟩ | ⟨t, ds, -, -, -, rfl⟩
  · exact hn
  · obtain ⟨string, -, heq⟩ := appendServer_eq_some.1 hserve
    obtain ⟨rfl, -⟩ := Prod.mk.inj heq
    exact store_of_some hn
  · exact hn

/-- **What is stored stays,** in every run. -/
theorem stor_run (h : (machine τ).Run s tr s') {old : List Byte} (hn : s.stor n = some old) :
    s'.stor n = some old := by
  induction h with
  | nil => exact hn
  | snoc _ hs ih => exact stor_step hs ih

/-! ## What is acknowledged -/

structure SlotsReady (slots : List Slot) : Prop where
  length : slots.length = batchSize
  ready : ∀ slot ∈ slots, slot.Ready

/-- The slot answers a request that thread `t` has handled. -/
def Answered (tr : List (Event τ × Done)) (t : τ) (d : Datagram) (slot : Slot) : Prop :=
  ∃ old : Slot, old.Ready ∧ (.handle t, .handled d (old.recv d)) ∈ tr ∧ slot = answer (old.recv d)

/-- A batch of which the first `i` datagrams have been handled. -/
structure Handling (tr : List (Event τ × Done)) (t : τ) (slots : List Slot) (ds : List Datagram)
    (i : Nat) : Prop where
  received : (.recv t ds, .received) ∈ tr
  length : slots.length = batchSize
  le : i ≤ ds.length
  bound : ds.length ≤ batchSize
  before : ∀ j d slot, j < i → ds[j]? = some d → slots[j]? = some slot → Answered tr t d slot
  after : ∀ j d slot, i ≤ j → ds[j]? = some d → slots[j]? = some slot →
    ∃ old : Slot, old.Ready ∧ slot = old.recv d
  behind : ∀ j slot, ds.length ≤ j → slots[j]? = some slot → slot.Ready

def ThreadInv (tr : List (Event τ × Done)) (t : τ) (thread : Thread) : Prop :=
  match thread.phase with
  | .receiving => SlotsReady thread.slots
  | .handling ds i => Handling tr t thread.slots ds i

def Inv (tr : List (Event τ × Done)) (s : LogStorage τ) : Prop := ∀ t, ThreadInv tr t (s.threads t)

omit [DecidableEq τ] in
theorem Answered.mono (h : Answered tr t d slot) (x : Event τ × Done) :
    Answered (tr ++ [x]) t d slot := by
  obtain ⟨old, hold, hmem, heq⟩ := h
  exact ⟨old, hold, List.mem_append_left _ hmem, heq⟩

omit [DecidableEq τ] in
theorem ThreadInv.mono {thread : Thread} (h : ThreadInv tr t thread) (x : Event τ × Done) :
    ThreadInv (tr ++ [x]) t thread := by
  unfold ThreadInv at h ⊢
  split
  · rename_i hphase
    rw [hphase] at h
    exact h
  · rename_i ds i hphase
    rw [hphase] at h
    exact ⟨List.mem_append_left _ h.received, h.length, h.le, h.bound,
      fun j d slot hj hd hslot => (h.before j d slot hj hd hslot).mono x, h.after, h.behind⟩

/-- The thread that moves keeps its invariant, and the others are left alone. -/
theorem Inv.setThread (h : Inv tr s) {x : Event τ × Done} {thread : Thread} {stor : Stor}
    (ht : ThreadInv (tr ++ [x]) t thread) :
    Inv (tr ++ [x]) (setThread { s with stor := stor } t thread) := by
  intro u
  by_cases hu : u = t
  · subst hu
    rw [setThread_self]
    exact ht
  · rw [setThread_ne _ _ hu]
    exact (h u).mono x

omit [DecidableEq τ] in
theorem inv_start {slots : τ → List Slot} (h : ∀ t, SlotsReady (slots t)) :
    Inv [] (start slots) := h

omit [DecidableEq τ] in
/-- A batch has been received. -/
theorem handling_recv {slots : List Slot} {ds : List Datagram} (h : SlotsReady slots)
    (hlen : ds.length ≤ batchSize) (hrecv : (.recv t ds, .received) ∈ tr) :
    Handling tr t (recvManyPackets slots ds) ds 0 := by
  have hget := BatchServer.getElem?_recvManyPackets slots ds
  constructor
  · exact hrecv
  · rw [BatchServer.length_recvManyPackets, h.length]
  · exact Nat.zero_le _
  · exact hlen
  · intro j d slot hj
    exact absurd hj (Nat.not_lt_zero j)
  · intro j d slot _ hd hslot
    rw [hget, hd, Option.map_eq_some_iff] at hslot
    obtain ⟨old, hold, rfl⟩ := hslot
    exact ⟨old, h.ready old (List.mem_of_getElem? hold), rfl⟩
  · intro j slot hj hslot
    rw [hget, List.getElem?_eq_none hj, Option.map_eq_some_iff] at hslot
    obtain ⟨old, hold, rfl⟩ := hslot
    exact h.ready old (List.mem_of_getElem? hold)

omit [DecidableEq τ] in
/-- One more datagram has been handled. -/
theorem Handling.handle {slots : List Slot} {ds : List Datagram} {i : Nat} {old : Slot}
    {x : Event τ × Done} (h : Handling tr t slots ds i) (hd : ds[i]? = some d) (hold : old.Ready)
    (hx : x = (.handle t, .handled d (old.recv d))) :
    Handling (tr ++ [x]) t (slots.set i (answer (old.recv d))) ds (i + 1) := by
  have hlt : i < ds.length := (List.getElem?_eq_some_iff.1 hd).1
  constructor
  · exact List.mem_append_left _ h.received
  · rw [List.length_set, h.length]
  · exact hlt
  · exact h.bound
  · intro j d' slot hj hd' hslot
    by_cases hij : i = j
    · subst hij
      rw [hd, Option.some.injEq] at hd'
      subst hd'
      rw [List.getElem?_set_self (by rw [h.length]; exact Nat.lt_of_lt_of_le hlt h.bound),
        Option.some.injEq] at hslot
      exact ⟨old, hold, List.mem_append_right _ (List.mem_singleton.2 hx.symm), hslot.symm⟩
    · rw [List.getElem?_set_ne hij] at hslot
      exact (h.before j d' slot (by omega) hd' hslot).mono x
  · intro j d' slot hj hd' hslot
    rw [List.getElem?_set_ne (by omega)] at hslot
    exact h.after j d' slot (by omega) hd' hslot
  · intro j slot hj hslot
    rw [List.getElem?_set_ne (by omega)] at hslot
    exact h.behind j slot hj hslot

theorem ready_reset_answer {old : Slot} (h : old.Ready) (d : Datagram) :
    (answer (old.recv d)).reset.Ready := by
  refine ⟨?_, rfl⟩
  change (setType (old.recv d).buf (htons ethAppendResp)).length = maxPacketSize
  rw [setType, length_store16, Slot.length_recv h]

omit [DecidableEq τ] in
/-- The batch has been answered. -/
theorem Handling.send {slots : List Slot} {ds : List Datagram}
    (h : Handling tr t slots ds ds.length) :
    SlotsReady ((slots.take ds.length).map Slot.reset ++ slots.drop ds.length) := by
  have hbound := h.bound
  constructor
  · rw [List.length_append, List.length_map, List.length_take, List.length_drop, h.length]
    omega
  · simp only [List.forall_mem_append, List.forall_mem_map]
    constructor
    · intro slot hslot
      obtain ⟨j, hj⟩ := List.mem_iff_getElem?.1 hslot
      have hlt : j < ds.length := by
        have hlen := (List.getElem?_eq_some_iff.1 hj).1
        rw [List.length_take] at hlen
        omega
      rw [List.getElem?_take_of_lt hlt] at hj
      obtain ⟨old, hold, -, rfl⟩ := h.before j _ slot hlt (List.getElem?_eq_getElem hlt) hj
      exact ready_reset_answer hold _
    · intro slot hslot
      obtain ⟨j, hj⟩ := List.mem_iff_getElem?.1 hslot
      rw [List.getElem?_drop] at hj
      exact h.behind _ slot (by omega) hj

theorem Inv.step (h : Inv tr s) (hs : s.step e = some (s', o)) : Inv (tr ++ [(e, o)]) s' := by
  rcases step_cases hs with ⟨t, ds, rfl, rfl, hphase, hlen, rfl⟩ |
    ⟨t, ds, i, d, slot, stor, slot', rfl, rfl, hphase, hd, hslot, hserve, rfl⟩ |
    ⟨t, ds, rfl, hphase, rfl, rfl⟩
  · have ht := h t
    simp only [ThreadInv, hphase] at ht
    exact h.setThread (handling_recv ht hlen (List.mem_append_right _ (List.mem_singleton_self _)))
  · have ht := h t
    simp only [ThreadInv, hphase] at ht
    obtain ⟨string, -, heq⟩ := appendServer_eq_some.1 hserve
    obtain ⟨-, rfl⟩ := Prod.mk.inj heq
    obtain ⟨old, hold, rfl⟩ := ht.after i d slot (Nat.le_refl i) hd hslot
    exact h.setThread (ht.handle hd hold rfl)
  · have ht := h t
    simp only [ThreadInv, hphase] at ht
    exact h.setThread ht.send

theorem inv_run {slots : τ → List Slot} (hslots : ∀ t, SlotsReady (slots t))
    (h : (machine τ).Run (start slots) tr s) : Inv tr s := by
  induction h with
  | nil => exact inv_start hslots
  | snoc _ hs ih => exact ih.step hs

/-- Every response that a thread sends answers a request that it has handled. -/
theorem Inv.answered (h : Inv tr s) {acks : List (Datagram × Datagram)}
    (hs : s.step (.send t) = some (s', .sent acks)) {a : Datagram × Datagram} (ha : a ∈ acks) :
    (∃ ds, (.recv t ds, .received) ∈ tr ∧ a.1 ∈ ds) ∧
      ∃ slot, Answered tr t a.1 slot ∧ a.2 = slot.sent := by
  rcases step_cases hs with ⟨t, ds, he, -⟩ | ⟨t, ds, i, d, slot, stor, slot', he, -⟩ |
    ⟨t, ds, he, hphase, ho, -⟩
  · cases he
  · cases he
  · cases he
    cases ho
    have ht := h t
    simp only [ThreadInv, hphase] at ht
    obtain ⟨j, hj⟩ := List.mem_iff_getElem?.1 ha
    obtain ⟨hd, hresp⟩ := List.getElem?_zip_eq_some.1 hj
    have hlt : j < ds.length := (List.getElem?_eq_some_iff.1 hd).1
    rw [List.getElem?_map, List.getElem?_take_of_lt hlt, Option.map_eq_some_iff] at hresp
    obtain ⟨slot, hslot, hsent⟩ := hresp
    exact ⟨⟨ds, ht.received, List.mem_of_getElem? hd⟩, slot, ht.before j _ slot hlt hd hslot,
      hsent.symm⟩

/-- A response has the number of its request. -/
theorem sent_answer {old : Slot} (h : old.Ready) (hd : sizeofHeaders ≤ d.data.length) :
    (answer (old.recv d)).sent.seqNo = d.seqNo ∧
      (answer (old.recv d)).sent.type = htons ethAppendResp := by
  have hmsg : sizeofHeaders ≤ (old.recv d).msgLen := Slot.sizeofHeaders_le_msgLen h hd
  have hsent : (answer (old.recv d)).sent.data =
      (setType (old.recv d).buf (htons ethAppendResp)).take (old.recv d).msgLen := by
    simp only [answer, Slot.sent]
    rw [if_pos (Nat.lt_of_lt_of_le (by decide) hmsg)]
  constructor
  · rw [Datagram.seqNo, hsent, ((SameHeaders.take hmsg).trans
      ((SameHeaders.setType _ _).trans (Slot.sameHeaders_recv h hd))).gIdx]
    rfl
  · rw [Datagram.type, hsent, setType, load16_congr (fun i _ hi => byteAt_take ?_), load16_store16]
    · rw [Slot.length_recv h]
      decide
    · exact Nat.lt_of_lt_of_le hi (Nat.le_trans (by decide) hmsg)

/-- Handling the datagram in `slot` stores its payload, or finds the same payload stored. -/
def Meets (stor : Stor) (slot : Slot) (d : Datagram) : Prop :=
  match stor d.seqNo with
  | none => Terminated d.payload (slot.buf.drop sizeofHeaders)
  | some entry => entry = d.payload

/-- What has been handled is stored for good; it is the payload exactly under that condition. -/
theorem stored_iff {old : Slot} {m m' : LogStorage τ} (hold : old.Ready)
    (hd : sizeofHeaders ≤ d.data.length)
    (hs : m.step (.handle t) = some (m', .handled d (old.recv d)))
    (hr : (machine τ).Run m' tr s) :
    (∀ tr' s', (machine τ).Run s tr' s' → get s'.stor d.seqNo = d.payload) ↔
      Meets m.stor (old.recv d) d := by
  obtain ⟨string, hterm, hstor⟩ : ∃ string,
      Terminated string ((old.recv d).buf.drop sizeofHeaders) ∧
        m'.stor d.seqNo = some ((m.stor d.seqNo).getD string) := by
    rcases step_cases hs with ⟨t, ds, he, -⟩ |
      ⟨t, ds, i, d', slot, stor, slot', -, ho, -, -, -, hserve, rfl⟩ | ⟨t, ds, he, -⟩
    · cases he
    · cases ho
      obtain ⟨string, hterm, heq⟩ := appendServer_eq_some.1 hserve
      obtain ⟨rfl, -⟩ := Prod.mk.inj heq
      refine ⟨string, hterm, ?_⟩
      rw [stor_setThread, (Slot.sameHeaders_recv hold hd).gIdx]
      exact store_self ..
    · cases he
  have hforever : ∀ tr' s', (machine τ).Run s tr' s' →
      get s'.stor d.seqNo = (m.stor d.seqNo).getD string := by
    intro tr' s' hr'
    rw [get, stor_run (hr.append hr') hstor, Option.getD_some]
  have hiff : (∀ tr' s', (machine τ).Run s tr' s' → get s'.stor d.seqNo = d.payload) ↔
      (m.stor d.seqNo).getD string = d.payload := by
    constructor
    · intro h
      rw [← hforever [] s (.nil s)]
      exact h [] s (.nil s)
    · intro h tr' s' hr'
      rw [hforever tr' s' hr', h]
  rw [hiff, Meets]
  cases m.stor d.seqNo with
  | some entry => rfl
  | none =>
    rw [← cstr_eq_some, cstr_eq_some.2 hterm, Option.some.injEq]
    rfl

/-! ### Batches are served -/

/-- The datagram brings the C string `p`, terminator included. -/
structure Carries (d : Datagram) (p : List Byte) : Prop where
  length : d.data.length ≤ maxPacketSize
  terminated : Terminated p (d.data.drop sizeofHeaders)

theorem Carries.headed {p : List Byte} (h : Carries d p) : sizeofHeaders ≤ d.data.length := by
  have hle := h.terminated.2.length_le
  rw [List.length_append, List.length_singleton, List.length_drop] at hle
  omega

/-- A slot that has received the datagram holds the string. -/
theorem Carries.recv {p : List Byte} (h : Carries d p) {old : Slot} (hold : old.Ready) :
    Terminated p ((old.recv d).buf.drop sizeofHeaders) := by
  refine ⟨h.terminated.1, h.terminated.2.trans ?_⟩
  have hdata : d.data.take old.iovLen = d.data :=
    List.take_of_length_le (by rw [hold.iovLen]; exact h.length)
  simp only [Slot.recv, hdata]
  rw [List.drop_append_of_le_length h.headed]
  exact List.prefix_append ..

theorem exists_recv (hphase : (s.threads t).phase = .receiving) {ds : List Datagram}
    (hlen : ds.length ≤ batchSize) :
    ∃ s', (machine τ).step s (.recv t ds) = some (s', .received) ∧ s'.stor = s.stor ∧
      (s'.threads t).phase = .handling ds 0 := by
  refine ⟨s.setThread t ⟨recvManyPackets (s.threads t).slots ds, .handling ds 0⟩, ?_, rfl, ?_⟩
  · simp only [machine, step, hphase, if_pos hlen]
  · rw [setThread_self]

theorem exists_handle (h : Inv tr s) {ds : List Datagram} {i : Nat} {p : List Byte}
    (hphase : (s.threads t).phase = .handling ds i) (hd : ds[i]? = some d) (hp : Carries d p) :
    ∃ s', ∃ old : Slot, (machine τ).step s (.handle t) = some (s', .handled d (old.recv d)) ∧
      old.Ready ∧ s'.stor = (store s.stor d.seqNo p).1 ∧
      (s'.threads t).phase = .handling ds (i + 1) := by
  have ht := h t
  simp only [ThreadInv, hphase] at ht
  have hlt : i < (s.threads t).slots.length := by
    rw [ht.length]
    exact Nat.lt_of_lt_of_le (List.getElem?_eq_some_iff.1 hd).1 ht.bound
  have hslot := List.getElem?_eq_getElem hlt
  obtain ⟨old, hold, hrecv⟩ := ht.after i d _ (Nat.le_refl i) hd hslot
  rw [hrecv] at hslot
  have hserve : appendServer s.stor (old.recv d) =
      some ((store s.stor d.seqNo p).1, answer (old.recv d)) := by
    refine appendServer_eq_some.2 ⟨p, hp.recv hold, ?_⟩
    rw [(Slot.sameHeaders_recv hold hp.headed).gIdx]
    rfl
  refine ⟨setThread { s with stor := (store s.stor d.seqNo p).1 } t
    ⟨(s.threads t).slots.set i (answer (old.recv d)), .handling ds (i + 1)⟩, old, ?_, hold, rfl, ?_⟩
  · simp only [machine, step, hphase, hd, hslot, hserve, Option.bind_eq_bind, Option.bind_some,
      Option.pure_def]
  · rw [setThread_self]

theorem exists_send (h : Inv tr s) {ds : List Datagram}
    (hphase : (s.threads t).phase = .handling ds ds.length) :
    ∃ s' acks, s.step (.send t) = some (s', .sent acks) ∧ s'.stor = s.stor ∧
      acks.map Prod.fst = ds := by
  have ht := h t
  simp only [ThreadInv, hphase] at ht
  refine ⟨s.setThread t ⟨((s.threads t).slots.take ds.length).map Slot.reset ++
    (s.threads t).slots.drop ds.length, .receiving⟩,
    ds.zip (((s.threads t).slots.take ds.length).map Slot.sent), ?_, rfl, ?_⟩
  · simp only [step, hphase]
    exact if_pos trivial
  · refine List.map_fst_zip ?_
    rw [List.length_map, List.length_take, ht.length]
    have hbound := ht.bound
    omega

/-- Of every batch that is received, the datagrams have their headers. -/
def Headed (tr : List (Event τ × Done)) : Prop :=
  ∀ t ds, (.recv t ds, .received) ∈ tr → ∀ d ∈ ds, sizeofHeaders ≤ d.data.length

/-- **An acknowledgement is right for good exactly when handling its request stored the payload, or
found the same payload stored.** -/
theorem acked_iff {slots : τ → List Slot} (hslots : ∀ t, SlotsReady (slots t))
    (hr : (machine τ).Run (start slots) tr s) (hd : Headed tr) {acks : List (Datagram × Datagram)}
    (hs : s.step (.send t) = some (s', .sent acks)) {a : Datagram × Datagram} (ha : a ∈ acks) :
    a.2.seqNo = a.1.seqNo ∧ a.2.type = htons ethAppendResp ∧
      ∃ tr₁ tr₂ m slot, tr = tr₁ ++ (.handle t, .handled a.1 slot) :: tr₂ ∧
        (machine τ).Run (start slots) tr₁ m ∧
        ((∀ tr' s'', (machine τ).Run s' tr' s'' →
          get s''.stor a.2.seqNo = a.1.payload) ↔ Meets m.stor slot a.1) := by
  obtain ⟨⟨ds, hrecv, hmem⟩, slot, ⟨old, hold, hhandled, rfl⟩, hsent⟩ :=
    (inv_run hslots hr).answered hs ha
  have hhead := hd t ds hrecv a.1 hmem
  obtain ⟨hno, htype⟩ := sent_answer hold hhead
  rw [hsent, hno]
  refine ⟨rfl, htype, ?_⟩
  obtain ⟨tr₁, tr₂, rfl⟩ := List.append_of_mem hhandled
  obtain ⟨m, m', hr₁, hstep, hr₂⟩ := hr.split_cons
  have hsend : (machine τ).step s (.send t) = some (s', .sent acks) := hs
  exact ⟨tr₁, tr₂, m, old.recv a.1, rfl, hr₁, stored_iff hold hhead hstep (hr₂.snoc hsend)⟩

/-! ### A server with one thread -/

def zeroSlots (_ : Unit) : List Slot :=
  List.replicate batchSize ⟨List.replicate maxPacketSize 0, ⟨0, 0⟩, 0, maxPacketSize⟩

theorem slotsReady_zeroSlots (t : Unit) : SlotsReady (zeroSlots t) := by
  refine ⟨List.length_replicate, fun slot hslot => ?_⟩
  rw [List.eq_of_mem_replicate hslot]
  exact ⟨List.length_replicate, rfl⟩

/-- The headers of a request to store one character under the number 1. -/
def requestHeaders : List Byte :=
  0x08 :: 0x60 :: List.replicate 21 0 ++ 1 :: List.replicate 7 0 ++ 1 :: List.replicate 32 0

def request (c : Byte) : Datagram := ⟨⟨1, 1⟩, requestHeaders ++ [c, 0]⟩

theorem sameHeaders_request (c : Byte) : SameHeaders (request c).data requestHeaders :=
  SameHeaders.append_left (Nat.le_refl _)

theorem length_request (c : Byte) : (request c).data.length = sizeofHeaders + 2 :=
  List.length_append

theorem drop_request (c : Byte) : (request c).data.drop sizeofHeaders = [c, 0] :=
  List.drop_left' rfl

theorem carries_request {c : Byte} (h : c ≠ 0) : Carries (request c) [c] := by
  refine ⟨?_, ?_⟩
  · rw [length_request]
    decide
  rw [drop_request]
  exact ⟨by simpa using h.symm, List.prefix_rfl⟩

theorem payload_request (c : Byte) : (request c).payload = [c] := by
  have hsize : ntohl (AppendEntry.payloadSize requestHeaders) = 1 := by decide
  rw [Datagram.payload, drop_request, (sameHeaders_request c).payloadSize, hsize]
  rfl

theorem seqNo_request (c : Byte) : (request c).seqNo = 1 := by
  rw [Datagram.seqNo, (sameHeaders_request c).gIdx]
  decide

/-- The first request of the first batch is stored. -/
theorem exists_first (ds : List Datagram) (hlen : ds.length ≤ batchSize) {c : Byte} (hc : c ≠ 0)
    (hd : ds[0]? = some (request c)) :
    ∃ s₁ s₂, ∃ old : Slot,
      (machine Unit).step (start zeroSlots) (.recv () ds) = some (s₁, .received) ∧
      s₁.stor = (start zeroSlots).stor ∧
      (machine Unit).step s₁ (.handle ()) = some (s₂, .handled (request c) (old.recv (request c))) ∧
      old.Ready ∧ s₂.stor 1 = some [c] ∧ (s₂.threads ()).phase = .handling ds 1 := by
  obtain ⟨s₁, h₁, hstor₁, hphase₁⟩ :=
    exists_recv (s := start zeroSlots) (t := ()) rfl hlen
  have hinv₁ := inv_run slotsReady_zeroSlots (.single h₁)
  obtain ⟨s₂, old, h₂, hold, hstor₂, hphase₂⟩ := exists_handle hinv₁ hphase₁ hd (carries_request hc)
  refine ⟨s₁, s₂, old, h₁, hstor₁, h₂, hold, ?_, hphase₂⟩
  rw [hstor₂, seqNo_request, store_self, hstor₁]
  rfl

theorem first_stored : ∃ tr s s' acks a, (machine Unit).Run (start zeroSlots) tr s ∧
    s.step (.send ()) = some (s', .sent acks) ∧ a ∈ acks ∧ a.1 = request 65 ∧
    ∀ tr' s'', (machine Unit).Run s' tr' s'' → get s''.stor a.2.seqNo = [65] := by
  obtain ⟨s₁, s₂, old, h₁, hstor₁, h₂, hold, -, hphase₂⟩ :=
    exists_first [request 65] (c := 65) (by decide) (by decide) rfl
  have hr := (Machine.Run.single h₁).snoc h₂
  obtain ⟨s', acks, hs, -, hacks⟩ := exists_send (inv_run slotsReady_zeroSlots hr) hphase₂
  obtain ⟨a, ha, ha65⟩ : ∃ a ∈ acks, a.1 = request 65 := by
    refine List.mem_map.1 ?_
    rw [hacks]
    exact List.mem_singleton_self _
  have hheaded : Headed [(Event.recv () [request 65], Done.received),
      (.handle (), .handled (request 65) (old.recv (request 65)))] := by
    intro t ds hmem d hd
    simp only [List.mem_cons, List.not_mem_nil, Prod.mk.injEq, Event.recv.injEq, reduceCtorEq,
      false_and, or_false] at hmem
    obtain ⟨⟨-, rfl⟩, -⟩ := hmem
    rw [List.mem_singleton.1 hd, length_request]
    exact Nat.le_add_right _ _
  obtain ⟨-, -, tr₁, tr₂, m, slot, htr, hrm, hiff⟩ :=
    acked_iff slotsReady_zeroSlots hr hheaded hs ha
  refine ⟨_, s₂, s', acks, a, hr, hs, ha, ha65, ?_⟩
  -- the request is handled in the state behind the first step
  obtain ⟨rfl, rfl⟩ : tr₁ = [(.recv () [request 65], .received)] ∧
      slot = old.recv (request 65) := by
    cases tr₁ with
    | nil =>
      obtain ⟨hx, -⟩ := List.cons.inj htr
      cases hx
    | cons x rest =>
      obtain ⟨hx, htail⟩ := List.cons.inj htr
      cases rest with
      | nil =>
        obtain ⟨hy, -⟩ := List.cons.inj htail
        rw [ha65, Prod.mk.injEq, Done.handled.injEq] at hy
        exact ⟨by rw [hx], hy.2.2.symm⟩
      | cons y rest =>
        have hlen := congrArg List.length htail
        simp at hlen
  obtain ⟨m₁, hm, hnil⟩ := hrm.cons_inv
  rw [h₁, Option.some.injEq, Prod.mk.injEq] at hm
  obtain ⟨rfl, -⟩ := hm
  have hmeets : Meets m.stor (old.recv (request 65)) a.1 := by
    rw [Meets, hnil.eq_of_nil, hstor₁, ha65, payload_request]
    exact (carries_request (by decide)).recv hold
  rw [ha65, payload_request] at hiff
  rw [ha65] at hmeets
  exact hiff.2 hmeets

/-- **The second of two requests for one number is refused, and acknowledged all the same.** -/
theorem refused_but_acked : ∃ tr s s' acks a, Headed tr ∧
    (machine Unit).Run (start zeroSlots) tr s ∧ s.step (.send ()) = some (s', .sent acks) ∧
    a ∈ acks ∧ a.2.seqNo = 1 ∧ a.2.type = htons ethAppendResp ∧
    a.1.payload = [66] ∧ get s'.stor 1 = [65] := by
  obtain ⟨s₁, s₂, old, h₁, -, h₂, hold, hstor₂, hphase₂⟩ :=
    exists_first [request 65, request 66] (c := 65) (by decide) (by decide) rfl
  have hr := ((Machine.Run.single h₁).snoc h₂)
  have hinv := inv_run slotsReady_zeroSlots hr
  obtain ⟨s₃, old', h₃, hold', hstor₃, hphase₃⟩ :=
    exists_handle hinv hphase₂ (d := request 66) rfl (carries_request (by decide))
  have hr' := hr.snoc h₃
  have hinv' := inv_run slotsReady_zeroSlots hr'
  obtain ⟨s', acks, hs, hstor', hacks⟩ := exists_send hinv' hphase₃
  obtain ⟨a, ha, ha66⟩ : ∃ a ∈ acks, a.1 = request 66 := by
    refine List.mem_map.1 ?_
    rw [hacks]
    exact List.mem_cons_of_mem _ (List.mem_singleton_self _)
  have hheaded : sizeofHeaders ≤ a.1.data.length := by
    rw [ha66, length_request]
    exact Nat.le_add_right _ _
  obtain ⟨-, slot, ⟨old'', hold'', -, rfl⟩, hsent⟩ := hinv'.answered hs ha
  obtain ⟨hno, htype⟩ := sent_answer hold'' hheaded
  refine ⟨_, s₃, s', acks, a, ?_, hr', hs, ha, ?_, ?_, ?_, ?_⟩
  · intro t ds hmem d hd
    simp only [List.mem_append, List.mem_singleton, Prod.mk.injEq, Event.recv.injEq, reduceCtorEq,
      false_and, or_false] at hmem
    obtain ⟨⟨-, rfl⟩, -⟩ := hmem
    simp only [List.mem_cons, List.not_mem_nil, or_false] at hd
    rcases hd with rfl | rfl
    · rw [length_request]
      exact Nat.le_add_right _ _
    · rw [length_request]
      exact Nat.le_add_right _ _
  · rw [hsent, hno, ha66, seqNo_request]
  · rw [hsent, htype]
  · rw [ha66, payload_request]
  · rw [get, hstor', hstor₃, store_of_some hstor₂]
    rfl

end LogStorage

end Pringles.Software
