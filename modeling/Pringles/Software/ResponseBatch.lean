import Pringles.Software.AppendResponse

/-!
# The responses of one batch

A turn of the loop of `append_response` skips the acknowledgements that have no quorum yet, and then
sends all slots of the batch. A skipped slot still names the storage server that the acknowledgement
came from, and has the size of the whole buffer; so has a slot with an empty datagram. What is sent is
the responses and nothing else exactly when no slot is skipped or empty (`sends_completed_iff`).
-/

namespace Pringles.Software

/-- The sequence number of the acknowledgement in a slot. -/
def Slot.number (s : Slot) : BitVec 64 := seqNo (AppendEntry.gIdx s.buf)

/-- The response to the client, of the size that was received. -/
def Slot.response (s : Slot) : Datagram :=
  ⟨⟨AppendEntry.clientIp s.buf, AppendEntry.recvPort s.buf⟩,
    (setType s.buf (ntohs ethAppendResp)).take s.msgLen⟩

/-- The acknowledgement brings the count for its number to the threshold, after those in the slots
`before` it. -/
def MeetsQuorum (ackThreshold : BitVec 64) (ackMap : AckMap) (before : List Slot) (s : Slot) :
    Prop :=
  ackThreshold ≤ (ackMap s.number).getD 0 +
    BitVec.ofNat 64 (before.countP (fun s' => s'.number = s.number) + 1)

instance (ackThreshold : BitVec 64) (ackMap : AckMap) (before : List Slot) (s : Slot) :
    Decidable (MeetsQuorum ackThreshold ackMap before s) :=
  inferInstanceAs (Decidable (_ ≤ _))

/-- The responses that are due: one for each acknowledgement that meets the quorum. -/
def completed (ackThreshold : BitVec 64) (ackMap : AckMap) : List Slot → List Slot → List Datagram
  | _, [] => []
  | before, s :: slots =>
    if MeetsQuorum ackThreshold ackMap before s then
      s.response :: completed ackThreshold ackMap (before ++ [s]) slots
    else completed ackThreshold ackMap (before ++ [s]) slots

/-- Every slot has a datagram that meets the quorum. -/
def AllComplete (ackThreshold : BitVec 64) (ackMap : AckMap) (before slots : List Slot) : Prop :=
  ∀ pre s post, slots = pre ++ s :: post →
    MeetsQuorum ackThreshold ackMap (before ++ pre) s ∧ 0 < s.msgLen

/-- The slots that a batch has been received into. -/
def BatchServer.batch {σ : Type} (b : BatchServer σ) (ds : List Datagram) : List Slot :=
  (recvManyPackets b.slots ds).take ds.length

variable {ackThreshold : BitVec 64} {ackMap m : AckMap} {before slots : List Slot} {s : Slot}
  {n : BitVec 64}

theorem allComplete_cons : AllComplete ackThreshold ackMap before (s :: slots) ↔
    (MeetsQuorum ackThreshold ackMap before s ∧ 0 < s.msgLen) ∧
      AllComplete ackThreshold ackMap (before ++ [s]) slots := by
  constructor
  · intro h
    refine ⟨by simpa using h [] s slots rfl, ?_⟩
    intro pre s' post heq
    have hsplit := h (s :: pre) s' post (by rw [heq]; rfl)
    rwa [List.append_cons] at hsplit
  · rintro ⟨hs, h⟩ pre s' post heq
    cases pre with
    | nil =>
      cases heq
      rwa [List.append_nil]
    | cons x pre =>
      cases heq
      rw [List.append_cons]
      exact h pre s' post rfl

/-! ## What the map counts -/

/-- `m` has counted the acknowledgements of the slots `before`. -/
def Counts (ackMap : AckMap) (before : List Slot) (m : AckMap) : Prop :=
  ∀ n, (m n).getD 0 =
    (ackMap n).getD 0 + BitVec.ofNat 64 (before.countP fun s => s.number = n)

theorem countAck_getD : ((countAck ackThreshold m n).1 n).getD 0 = (m n).getD 0 + 1 := by
  unfold countAck
  cases m n with
  | some second => simp
  | none => simp

theorem countAck_quorum :
    (countAck ackThreshold m n).2 = decide (ackThreshold ≤ (m n).getD 0 + 1) := by
  unfold countAck
  cases m n with
  | some second => rfl
  | none => simp

theorem Counts.quorum (h : Counts ackMap before m) :
    (countAck ackThreshold m s.number).2 = true ↔ MeetsQuorum ackThreshold ackMap before s := by
  rw [countAck_quorum, decide_eq_true_iff, h, MeetsQuorum, BitVec.ofNat_add, ← BitVec.add_assoc]
  rfl

theorem Counts.snoc (h : Counts ackMap before m) :
    Counts ackMap (before ++ [s]) (countAck ackThreshold m s.number).1 := by
  intro n
  rw [List.countP_append, List.countP_singleton]
  by_cases hn : s.number = n
  · subst hn
    rw [countAck_getD, h, BitVec.ofNat_add, ← BitVec.add_assoc]
    simp
  · rw [countAck_other (Ne.symm hn), h]
    simp [hn]

/-! ## What a slot sends -/

/-- A slot with a received datagram. -/
structure Slot.Received (s : Slot) : Prop extends s.Ready where
  msgLen : s.msgLen ≤ maxPacketSize

theorem Slot.Ready.recv (h : s.Ready) (d : Datagram) : (s.recv d).Received where
  length := Slot.length_recv h d
  iovLen := h.iovLen
  msgLen := by
    simp only [Slot.recv, List.length_take, h.iovLen]
    omega

theorem received_recvManyPackets (ds : List Datagram) (h : ∀ s ∈ slots, s.Ready) :
    ∀ s ∈ (recvManyPackets slots ds).take ds.length, s.Received := by
  induction ds generalizing slots with
  | nil => simp
  | cons d ds ih =>
    cases slots with
    | nil => simp [recvManyPackets]
    | cons s slots =>
      simp only [List.forall_mem_cons, recvManyPackets, List.length_cons,
        List.take_succ_cons] at h ⊢
      exact ⟨h.1.recv d, ih h.2⟩

theorem appendResponse_eq : appendResponse ackThreshold m s =
    if (countAck ackThreshold m s.number).2 then
      ((countAck ackThreshold m s.number).1, { s with
        buf := setType s.buf (ntohs ethAppendResp)
        iovLen := if 0 < s.msgLen then s.msgLen else s.iovLen
        name := ⟨AppendEntry.clientIp s.buf, AppendEntry.recvPort s.buf⟩ })
    else ((countAck ackThreshold m s.number).1, s) := rfl

theorem fst_appendResponse :
    (appendResponse ackThreshold m s).1 = (countAck ackThreshold m s.number).1 := by
  rw [appendResponse_eq]
  split <;> rfl

/-- A quorum and something received: the response. -/
theorem sent_eq_response (hq : (countAck ackThreshold m s.number).2 = true) (hlen : 0 < s.msgLen) :
    (appendResponse ackThreshold m s).2.sent = s.response := by
  rw [appendResponse_eq, if_pos hq, if_pos hlen]
  rfl

/-- No quorum or nothing received: the whole buffer. -/
theorem length_sent (ackThreshold : BitVec 64) (m : AckMap) (hs : s.Received)
    (h : ¬ ((countAck ackThreshold m s.number).2 = true ∧ 0 < s.msgLen)) :
    (appendResponse ackThreshold m s).2.sent.data.length = maxPacketSize := by
  rw [appendResponse_eq]
  split
  · next hq =>
    rw [if_neg fun hlen => h ⟨hq, hlen⟩]
    simp only [Slot.sent, List.length_take, setType, Bytes.length_store16, hs.length, hs.iovLen,
      Nat.min_self]
  · simp only [Slot.sent, List.length_take, hs.length, hs.iovLen, Nat.min_self]

/-! ## What a batch sends -/

/-- The datagrams and their bytes, counted together. -/
def weight (ds : List Datagram) : Nat := (ds.map fun d => d.data.length + 1).sum

theorem weight_cons (d : Datagram) (ds : List Datagram) :
    weight (d :: ds) = d.data.length + 1 + weight ds := rfl

theorem weight_perm {ds ds' : List Datagram} (h : ds.Perm ds') : weight ds = weight ds' :=
  (h.map _).sum_nat

theorem length_response_le : s.response.data.length ≤ s.msgLen := List.length_take_le ..

theorem completed_of_allComplete (hm : Counts ackMap before m)
    (h : AllComplete ackThreshold ackMap before slots) :
    (handleAll (appendResponse ackThreshold) m slots).2.map Slot.sent =
      completed ackThreshold ackMap before slots := by
  induction slots generalizing before m with
  | nil => rfl
  | cons s slots ih =>
    obtain ⟨⟨hq, hlen⟩, hrest⟩ := allComplete_cons.1 h
    have hnext : Counts ackMap (before ++ [s]) (appendResponse ackThreshold m s).1 := by
      rw [fst_appendResponse]
      exact hm.snoc
    simp only [handleAll, completed, List.map_cons, if_pos hq]
    rw [sent_eq_response (hm.quorum.2 hq) hlen, ih hnext hrest]

/-- A batch sends at least the responses, and more if a slot is skipped or empty. -/
theorem weight_completed (hm : Counts ackMap before m) (hs : ∀ s ∈ slots, s.Received) :
    weight (completed ackThreshold ackMap before slots) ≤
        weight ((handleAll (appendResponse ackThreshold) m slots).2.map Slot.sent) ∧
      (weight ((handleAll (appendResponse ackThreshold) m slots).2.map Slot.sent) ≤
        weight (completed ackThreshold ackMap before slots) →
        AllComplete ackThreshold ackMap before slots) := by
  induction slots generalizing before m with
  | nil => exact ⟨Nat.le_refl _, fun _ pre s post heq => by cases pre <;> cases heq⟩
  | cons s slots ih =>
    obtain ⟨hslot, hslots⟩ := List.forall_mem_cons.1 hs
    have hnext : Counts ackMap (before ++ [s]) (appendResponse ackThreshold m s).1 := by
      rw [fst_appendResponse]
      exact hm.snoc
    obtain ⟨hle, hall⟩ := ih hnext hslots
    have hresponse := length_response_le (s := s)
    have hpos : 0 < maxPacketSize := by decide
    rw [allComplete_cons]
    simp only [handleAll, completed, List.map_cons, weight_cons]
    by_cases hq : MeetsQuorum ackThreshold ackMap before s
    · rw [if_pos hq, weight_cons]
      by_cases hlen : 0 < s.msgLen
      · rw [sent_eq_response (hm.quorum.2 hq) hlen]
        exact ⟨by omega, fun h => ⟨⟨hq, hlen⟩, hall (by omega)⟩⟩
      · have hsent := length_sent ackThreshold m hslot fun h => hlen h.2
        exact ⟨by omega, fun h => by omega⟩
    · have hsent := length_sent ackThreshold m hslot
        fun h => hq (hm.quorum.1 h.1)
      rw [if_neg hq]
      exact ⟨by omega, fun h => by omega⟩

variable {b b' : BatchServer AckMap} {ds out : List Datagram}

/-- **What a turn sends is the responses that are due, exactly when every acknowledgement of the
batch meets the quorum** and none is empty. -/
theorem sends_completed_iff (hb : b.Ready)
    (ht : b.turn (appendResponse ackThreshold) ds = some (b', out)) :
    out.Perm (completed ackThreshold b.state [] (b.batch ds)) ↔
      AllComplete ackThreshold b.state [] (b.batch ds) := by
  simp only [BatchServer.turn, Option.ite_none_right_eq_some, Option.some.injEq,
    Prod.mk.injEq] at ht
  obtain ⟨-, -, rfl⟩ := ht
  have hm : Counts b.state [] b.state := fun n => by simp
  have hreceived : ∀ s ∈ b.batch ds, s.Received := received_recvManyPackets ds hb.slots
  constructor
  · intro hperm
    exact (weight_completed hm hreceived).2 (Nat.le_of_eq (weight_perm hperm))
  · intro h
    exact .of_eq (completed_of_allComplete hm h)

/-- One server acknowledges, and a threshold of one: its response is sent. -/
theorem sends_completed_iff_one : ∃ out b',
    idleServer.turn (appendResponse 1) [ackOne 1] = some (b', out) ∧
      out.Perm (completed 1 idleServer.state [] (idleServer.batch [ackOne 1])) := by
  have ht : idleServer.turn (appendResponse 1) [ackOne 1] = some (_, _) := rfl
  refine ⟨_, _, ht, (sends_completed_iff ready_idleServer ht).2 ?_⟩
  have hbatch : idleServer.batch [ackOne 1] = [_] := rfl
  rw [hbatch, allComplete_cons]
  refine ⟨⟨?_, ?_⟩, fun pre s post heq => by cases pre <;> cases heq⟩
  · exact BitVec.le_refl 1
  · have hlen : sizeofHeaders ≤ (ackOne 1).data.length := Nat.le_refl _
    simp only [Slot.recv, List.length_take]
    exact Nat.lt_min.2 ⟨by decide, Nat.lt_of_lt_of_le (by decide) hlen⟩

/-- One server acknowledges, and a threshold of two: its own acknowledgement is sent back to it, in a
datagram of the size of the buffer. -/
theorem sends_skipped : ∃ d b',
    idleServer.turn (appendResponse 2) [ackOne 1] = some (b', [d]) ∧ d.addr = ⟨1, 0⟩ ∧
      d.data.length = maxPacketSize ∧
      ¬ [d].Perm (completed 2 idleServer.state [] (idleServer.batch [ackOne 1])) := by
  have ht : idleServer.turn (appendResponse 2) [ackOne 1] = some (_, [_]) := rfl
  have hbatch : idleServer.batch [ackOne 1] = [_] := rfl
  have hslot := (ready_idleServer.slots _ (.head _)).recv (ackOne 1)
  have hnone : completed 2 idleServer.state [] (idleServer.batch [ackOne 1]) = [] := by
    rw [hbatch, completed, if_neg, completed]
    exact BitVec.not_le.2 (by decide)
  refine ⟨_, _, ht, rfl, length_sent _ _ hslot ?_, ?_⟩
  · rintro ⟨hq, -⟩
    cases hq
  · rw [hnone]
    exact fun hperm => nomatch hperm.length_eq

end Pringles.Software
