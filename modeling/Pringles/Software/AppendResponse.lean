import Mathlib.Data.List.Perm.Subperm
import Pringles.Software.AckCount
import Pringles.Software.Network

/-!
# The responses of the software switch

A thread of `append_response` takes the acknowledgements of the storage servers in batches. It counts
each one for its sequence number, and once the count has reached the threshold it turns the datagram
into the response to the client. It does so at every acknowledgement from there on: the client gets
`k + 1 - t` responses for `k` acknowledgements and a threshold of `t` (`replies_run`), which is one
only while nobody acknowledges beyond the threshold.
-/

namespace Pringles.Software

/-- The counts of `ack_map`. -/
abbrev AckMap := BitVec 64 → Option (BitVec 64)

/-- The map after an acknowledgement for `n`, and whether it got a quorum. -/
def countAck (ackThreshold : BitVec 64) (ackMap : AckMap) (n : BitVec 64) : AckMap × Bool :=
  match ackMap n with
  | some second =>
    (Function.update ackMap n (some (second + 1)), decide (ackThreshold ≤ second + 1))
  | none => (Function.update ackMap n (some 1), decide (ackThreshold ≤ 1))

/-! ## An undisturbed thread

A thread that nobody interrupts does to the shared map what `countAck` does. -/

namespace AckCount

variable {τ : Type} [DecidableEq τ] {ackThreshold : BitVec 64} {s s' : AckCount τ} {t : τ}
  {n : BitVec 64}

theorem run_one (h : s.appendResponse ackThreshold t = some s') :
    (machine τ ackThreshold).Run s [(.run t, s)] s' := by
  refine .single ?_
  simp [machine, step, h]

/-- The entry is there: the thread locks it, counts and releases it. -/
theorem run_hit (ackThreshold : BitVec 64) {second : BitVec 64} (ht : s.pc t = .find n)
    (hfree : s.ackMap.holder n = none) (hv : s.ackMap.value n = some second) :
    ∃ tr s', (machine τ ackThreshold).Run s tr s' ∧ (∀ x ∈ tr, x.1 = .run t) ∧
      s'.ackMap = ((s.ackMap.lock t n).write n (second + 1)).release n ∧
      s'.processed = s.processed ++ [(n, decide (ackThreshold ≤ second + 1))] ∧
      s'.pc = Function.update s.pc t .idle := by
  let s₁ : AckCount τ :=
    { s with ackMap := s.ackMap.lock t n, pc := Function.update s.pc t (.found n) }
  let s₂ : AckCount τ := { s with
    ackMap := (s.ackMap.lock t n).write n (second + 1)
    pc := Function.update s.pc t (.release n (decide (ackThreshold ≤ second + 1))) }
  have h₁ : s.appendResponse ackThreshold t = some s₁ := by
    simp [appendResponse, ht, LockMap.find, hv, hfree, s₁]
  have h₂ : s₁.appendResponse ackThreshold t = some s₂ := by
    simp [appendResponse, hv, s₁, s₂]
  have h₃ : s₂.appendResponse ackThreshold t = some { s with
      ackMap := ((s.ackMap.lock t n).write n (second + 1)).release n
      pc := Function.update s.pc t .idle
      processed := s.processed ++ [(n, decide (ackThreshold ≤ second + 1))] } := by
    simp [appendResponse, s₂]
  exact ⟨_, _, (run_one h₁).append ((run_one h₂).append (run_one h₃)), by simp, rfl, rfl, rfl⟩

/-- The entry is not there: the thread inserts it. -/
theorem run_miss (ackThreshold : BitVec 64) (ht : s.pc t = .find n)
    (hv : s.ackMap.value n = none) :
    ∃ tr s', (machine τ ackThreshold).Run s tr s' ∧ (∀ x ∈ tr, x.1 = .run t) ∧
      s'.ackMap = (((s.ackMap.write n 0).lock t n).write n 1).release n ∧
      s'.processed = s.processed ++ [(n, decide (ackThreshold ≤ 1))] ∧
      s'.pc = Function.update s.pc t .idle := by
  let s₁ : AckCount τ := { s with pc := Function.update s.pc t (.insert n) }
  let s₂ : AckCount τ := { s with
    ackMap := (s.ackMap.write n 0).lock t n, pc := Function.update s.pc t (.inserted n) }
  let s₃ : AckCount τ := { s with
    ackMap := ((s.ackMap.write n 0).lock t n).write n 1
    pc := Function.update s.pc t (.release n (decide (ackThreshold ≤ 1))) }
  have h₁ : s.appendResponse ackThreshold t = some s₁ := by
    simp [appendResponse, ht, LockMap.find, hv, s₁]
  have h₂ : s₁.appendResponse ackThreshold t = some s₂ := by
    simp [appendResponse, LockMap.insert, hv, s₁, s₂]
  have h₃ : s₂.appendResponse ackThreshold t = some s₃ := by
    simp [appendResponse, s₂, s₃]
  have h₄ : s₃.appendResponse ackThreshold t = some { s with
      ackMap := (((s.ackMap.write n 0).lock t n).write n 1).release n
      pc := Function.update s.pc t .idle
      processed := s.processed ++ [(n, decide (ackThreshold ≤ 1))] } := by
    simp [appendResponse, s₃]
  exact ⟨_, _, (run_one h₁).append ((run_one h₂).append ((run_one h₃).append (run_one h₄))),
    by simp, rfl, rfl, rfl⟩

/-- **Undisturbed, a thread does what `countAck` does.** -/
theorem run_countAck (ht : s.pc t = .find n) (hfree : s.ackMap.holder n = none) :
    ∃ tr s', (machine τ ackThreshold).Run s tr s' ∧ (∀ x ∈ tr, x.1 = .run t) ∧
      s'.ackMap.value = (countAck ackThreshold s.ackMap.value n).1 ∧
      s'.processed = s.processed ++ [(n, (countAck ackThreshold s.ackMap.value n).2)] ∧
      s'.pc = Function.update s.pc t .idle := by
  unfold countAck
  cases hv : s.ackMap.value n with
  | some second =>
    obtain ⟨tr, s', hr, htr, hmap, hproc, hpc⟩ := run_hit ackThreshold ht hfree hv
    exact ⟨tr, s', hr, htr, by rw [hmap]; rfl, hproc, hpc⟩
  | none =>
    obtain ⟨tr, s', hr, htr, hmap, hproc, hpc⟩ := run_miss ackThreshold ht hv
    refine ⟨tr, s', hr, htr, ?_, hproc, hpc⟩
    rw [hmap]
    simp [LockMap.write, LockMap.lock, LockMap.release]

end AckCount

/-! ## The handler -/

/-- The turn of the loop for one slot. The search for subscribers sends nothing. -/
def appendResponse (ackThreshold : BitVec 64) (ackMap : AckMap) (s : Slot) : AckMap × Slot :=
  let q := countAck ackThreshold ackMap (seqNo (AppendEntry.gIdx s.buf))
  if q.2 then
    (q.1, { s with
      buf := setType s.buf (ntohs ethAppendResp)
      iovLen := if 0 < s.msgLen then s.msgLen else s.iovLen
      name := ⟨AppendEntry.clientIp s.buf, AppendEntry.recvPort s.buf⟩ })
  else (q.1, s)

variable {client : BitVec 64 → Address} {n : BitVec 64} {d : Datagram} {ds ss : List Datagram}
  {ackThreshold : BitVec 64} {ackMap : AckMap} {s : Slot}

/-- An acknowledgement of a storage server: it carries the address of the client that appended the
entry, and comes from elsewhere. -/
structure IsAck (client : BitVec 64 → Address) (d : Datagram) : Prop where
  length : sizeofHeaders ≤ d.data.length
  names : ⟨AppendEntry.clientIp d.data, AppendEntry.recvPort d.data⟩ = client d.seqNo
  source : d.addr ≠ client d.seqNo

/-- How many acknowledgements for `n` there are. -/
def acksFor (n : BitVec 64) (ds : List Datagram) : Nat := ds.countP fun d => d.seqNo = n

/-- How many datagrams for `n` go to the client of `n`. -/
def repliesFor (client : BitVec 64 → Address) (n : BitVec 64) (ds : List Datagram) : Nat :=
  ds.countP fun d => d.addr = client n ∧ d.seqNo = n

theorem acksFor_snoc : acksFor n (ds ++ [d]) = acksFor n ds + if d.seqNo = n then 1 else 0 := by
  simp [acksFor, List.countP_append, List.countP_singleton]

theorem repliesFor_snoc : repliesFor client n (ss ++ [d]) =
    repliesFor client n ss + if d.addr = client n ∧ d.seqNo = n then 1 else 0 := by
  simp [repliesFor, List.countP_append, List.countP_singleton]

theorem length_appendResponse (ackMap : AckMap) (s : Slot) :
    (appendResponse ackThreshold ackMap s).2.buf.length = s.buf.length := by
  unfold appendResponse
  simp only
  split
  · exact Bytes.length_store16 _
  · rfl

/-- The headers of what a slot sends are those of what it received. -/
theorem sameHeaders_sent (hs : s.Ready) (hd : sizeofHeaders ≤ d.data.length) :
    SameHeaders (appendResponse ackThreshold ackMap (s.recv d)).2.sent.data d.data := by
  have hrecv := Slot.sameHeaders_recv hs hd
  have hmsg : sizeofHeaders ≤ (s.recv d).msgLen := Slot.sizeofHeaders_le_msgLen hs hd
  have hiov : (s.recv d).iovLen = maxPacketSize := hs.iovLen
  unfold appendResponse
  simp only
  split
  · refine ((SameHeaders.take ?_).trans (SameHeaders.setType _ _)).trans hrecv
    rw [if_pos (Nat.lt_of_lt_of_le (by decide) hmsg)]
    exact hmsg
  · exact (SameHeaders.take (hiov ▸ sizeofHeaders_le_maxPacketSize)).trans hrecv

/-- Only an acknowledgement that got a quorum makes a datagram for a client, and that one is for the
client of its number. -/
theorem appendResponse_sent (ackThreshold : BitVec 64) (ackMap : AckMap) (hs : s.Ready)
    (hd : IsAck client d) (n : BitVec 64) :
    (appendResponse ackThreshold ackMap (s.recv d)).1 = (countAck ackThreshold ackMap d.seqNo).1 ∧
      ((appendResponse ackThreshold ackMap (s.recv d)).2.sent.addr = client n ∧
        (appendResponse ackThreshold ackMap (s.recv d)).2.sent.seqNo = n ↔
      (countAck ackThreshold ackMap d.seqNo).2 = true ∧ d.seqNo = n) := by
  have hrecv := Slot.sameHeaders_recv hs hd.length
  have hgIdx : seqNo (AppendEntry.gIdx (s.recv d).buf) = d.seqNo := by rw [hrecv.gIdx]; rfl
  have hsent : (appendResponse ackThreshold ackMap (s.recv d)).2.sent.seqNo = d.seqNo := by
    rw [Datagram.seqNo, (sameHeaders_sent hs hd.length).gIdx]
    rfl
  rw [hsent]
  simp only [appendResponse, hgIdx]
  cases hq : (countAck ackThreshold ackMap d.seqNo).2 with
  | true =>
    have haddr : (⟨AppendEntry.clientIp (s.recv d).buf, AppendEntry.recvPort (s.recv d).buf⟩ :
        Address) = client d.seqNo := by
      rw [hrecv.clientIp, hrecv.recvPort]
      exact hd.names
    simp only [↓reduceIte, Slot.sent, haddr, true_and]
    exact ⟨fun h => h.2, fun h => ⟨by rw [h], h⟩⟩
  | false =>
    simp only [Bool.false_eq_true, ↓reduceIte, false_and, iff_false, true_and]
    rintro ⟨haddr, rfl⟩
    exact hd.source haddr

/-! ## Runs -/

/-- The responses to `k` acknowledgements: the last ones, from the threshold on. -/
structure Replied (ackThreshold : BitVec 64) (client : BitVec 64 → Address) (n : BitVec 64)
    (ackMap : AckMap) (ds ss : List Datagram) : Prop where
  count : ackMap n = if acksFor n ds = 0 then none else some (BitVec.ofNat 64 (acksFor n ds))
  replies : acksFor n ds < 2 ^ 64 →
    repliesFor client n ss = acksFor n ds + 1 - ackThreshold.toNat

theorem replied_init (ht : 0 < ackThreshold) :
    Replied ackThreshold client n (fun _ => none) [] [] where
  count := rfl
  replies _ := by
    rw [BitVec.lt_def] at ht
    change 0 = 0 + 1 - _
    have h0 : (0 : BitVec 64).toNat = 0 := rfl
    omega

/-- What `countAck` makes of a count. -/
theorem countAck_self {k : Nat}
    (hk : ackMap n = if k = 0 then none else some (BitVec.ofNat 64 k)) :
    (countAck ackThreshold ackMap n).1 n = some (BitVec.ofNat 64 (k + 1)) ∧
      (countAck ackThreshold ackMap n).2 = decide (ackThreshold ≤ BitVec.ofNat 64 (k + 1)) := by
  have hsucc : BitVec.ofNat 64 k + 1 = BitVec.ofNat 64 (k + 1) := (BitVec.ofNat_add ..).symm
  unfold countAck
  by_cases h0 : k = 0
  · rw [if_pos h0] at hk
    simp [hk, h0]
  · rw [if_neg h0] at hk
    simp only [hk, Function.update_self, hsucc, and_self]

theorem countAck_other {n' : BitVec 64} (hne : n ≠ n') :
    (countAck ackThreshold ackMap n').1 n = ackMap n := by
  unfold countAck
  split
  · exact Function.update_of_ne hne ..
  · exact Function.update_of_ne hne ..

/-- One more acknowledgement. -/
theorem Replied.step (h : Replied ackThreshold client n ackMap ds ss) (hs : s.Ready)
    (hd : IsAck client d) : Replied ackThreshold client n
      (appendResponse ackThreshold ackMap (s.recv d)).1 (ds ++ [d])
      (ss ++ [(appendResponse ackThreshold ackMap (s.recv d)).2.sent]) := by
  obtain ⟨hmap, hsent⟩ := appendResponse_sent ackThreshold ackMap hs hd n
  constructor
  · rw [hmap, acksFor_snoc]
    by_cases hn : d.seqNo = n
    · rw [if_pos hn, if_neg (Nat.succ_ne_zero _), hn]
      exact (countAck_self h.count).1
    · rw [if_neg hn, Nat.add_zero, countAck_other (Ne.symm hn), h.count]
  · rw [acksFor_snoc, repliesFor_snoc]
    simp only [hsent]
    by_cases hn : d.seqNo = n
    · rw [if_pos hn, hn, (countAck_self h.count).2]
      intro hlt
      have hreplies := h.replies (by omega)
      have hge : ackThreshold ≤ BitVec.ofNat 64 (acksFor n ds + 1) ↔
          ackThreshold.toNat ≤ acksFor n ds + 1 := by
        rw [BitVec.le_def, BitVec.toNat_ofNat, Nat.mod_eq_of_lt hlt]
      by_cases hle : ackThreshold.toNat ≤ acksFor n ds + 1
      · rw [if_pos (by simpa [hge] using hle)]
        omega
      · rw [if_neg (by simpa [hge] using hle)]
        omega
    · rw [if_neg hn, if_neg (by simp [hn])]
      exact h.replies

variable {b b' : BatchServer AckMap} {tr : List (List Datagram × List Datagram)}

open BatchServer (machine received sent)

/-- What a run sends to the client of `n`. -/
theorem replies_run (hr : (machine (appendResponse ackThreshold)).Run b tr b')
    (hb : b.Ready) (h0 : b.state = fun _ => none) (ht : 0 < ackThreshold)
    (hack : ∀ d ∈ received tr, IsAck client d) (hlt : acksFor n (received tr) < 2 ^ 64) :
    repliesFor client n (sent tr) = acksFor n (received tr) + 1 - ackThreshold.toNat := by
  have hinv := BatchServer.run_invariant (P := IsAck client)
    (I := Replied ackThreshold client n) length_appendResponse
    (fun _ _ _ _ _ hs hd h => h.step hs hd) hr hb hack (h0 ▸ replied_init ht)
  exact hinv.2.replies hlt

/-- An address as a number. -/
def Address.toNat (a : Address) : Nat := a.ip.toNat * 2 ^ 16 + a.port.toNat

theorem Address.toNat_lt (a : Address) : a.toNat < 2 ^ 48 := by
  have hip := a.ip.isLt
  have hport := a.port.isLt
  unfold Address.toNat
  omega

theorem Address.toNat_injective : Function.Injective Address.toNat := by
  rintro ⟨ip, port⟩ ⟨ip', port'⟩ h
  have hport := port.isLt
  have hport' := port'.isLt
  simp only [Address.toNat] at h
  have h1 : ip = ip' := BitVec.eq_of_toNat_eq (by omega)
  have h2 : port = port' := BitVec.eq_of_toNat_eq (by omega)
  rw [h1, h2]

/-- A server acknowledges an append once, so there are no more acknowledgements than addresses. -/
theorem acksFor_lt (honce : (ds.map fun d => (d.addr, d.seqNo)).Nodup) :
    acksFor n ds < 2 ^ 64 := by
  have hsub : (ds.filter fun d => d.seqNo = n).Sublist ds := List.filter_sublist
  have hpair := (hsub.map fun d => (d.addr, d.seqNo)).nodup honce
  have heq : (ds.filter fun d => d.seqNo = n).map (fun d => (d.addr, d.seqNo)) =
      ((ds.filter fun d => d.seqNo = n).map Datagram.addr).map fun a => (a, n) := by
    rw [List.map_map]
    refine List.map_congr_left ?_
    intro d hd
    simpa using (List.mem_filter.1 hd).2
  rw [heq] at hpair
  have hnodup := hpair.of_map.map Address.toNat_injective
  have hrange : ((ds.filter fun d => d.seqNo = n).map Datagram.addr).map Address.toNat ⊆
      List.range (2 ^ 48) := by
    intro k hk
    obtain ⟨a, -, rfl⟩ := List.mem_map.1 hk
    exact List.mem_range.2 a.toNat_lt
  have hlen := (List.subperm_of_subset hnodup hrange).length_le
  rw [List.length_map, List.length_map, List.length_range, ← List.countP_eq_length_filter] at hlen
  unfold acksFor
  omega

/-- **Exactly one response per append, as long as no server acknowledges beyond the threshold.** -/
theorem one_reply_iff (hr : (machine (appendResponse ackThreshold)).Run b tr b')
    (hb : b.Ready) (h0 : b.state = fun _ => none) (ht : 0 < ackThreshold)
    (hack : ∀ d ∈ received tr, IsAck client d)
    (honce : ((received tr).map fun d => (d.addr, d.seqNo)).Nodup) (n : BitVec 64) :
    repliesFor client n (sent tr) =
        (if ackThreshold.toNat ≤ acksFor n (received tr) then 1 else 0) ↔
      acksFor n (received tr) ≤ ackThreshold.toNat := by
  rw [replies_run hr hb h0 ht hack (acksFor_lt honce)]
  have ht' : (0 : BitVec 64).toNat < ackThreshold.toNat := BitVec.lt_def.1 ht
  have hzero : (0 : BitVec 64).toNat = 0 := rfl
  split
  · omega
  · omega

/-! ## Two servers and a threshold of one -/

/-- The headers of an acknowledgement of the append number 1. -/
def headersOne : List Byte := AppendEntry.setGIdx (List.replicate sizeofHeaders 0) (htonl 1)

/-- The acknowledgement of the server with this address. -/
def ackOne (ip : BitVec 32) : Datagram := ⟨⟨ip, 0⟩, headersOne⟩

def idleServer : BatchServer AckMap where
  state := fun _ => none
  slots := List.replicate batchSize ⟨List.replicate maxPacketSize 0, ⟨0, 0⟩, 0, maxPacketSize⟩

theorem ready_idleServer : idleServer.Ready where
  length := List.length_replicate
  slots := by
    intro s hs
    rw [List.eq_of_mem_replicate hs]
    exact ⟨List.length_replicate, rfl⟩

theorem names_headersOne :
    (⟨AppendEntry.clientIp headersOne, AppendEntry.recvPort headersOne⟩ : Address) = ⟨0, 0⟩ := by
  decide

theorem isAck_ackOne {ip : BitVec 32} (h : ip ≠ 0) : IsAck (fun _ => ⟨0, 0⟩) (ackOne ip) where
  length := Nat.le_refl _
  names := names_headersOne
  source := by simpa [ackOne] using h

theorem one_reply_iff_single : ∃ out b', (machine (appendResponse 1)).Run idleServer
    [([ackOne 1], out)] b' ∧ repliesFor (fun _ => ⟨0, 0⟩) 1 out = 1 := by
  obtain ⟨out, b', hr⟩ := BatchServer.exists_run (appendResponse 1) idleServer [ackOne 1] (by decide)
  have hack : ∀ d ∈ [ackOne 1], IsAck (fun _ => ⟨0, 0⟩) d := by
    simpa using isAck_ackOne (by decide)
  have hk : acksFor 1 (received [([ackOne 1], out)]) = 1 := rfl
  have h := one_reply_iff hr ready_idleServer rfl (by decide) hack (by simp [received]) 1
  rw [hk] at h
  exact ⟨out, b', hr, by simpa [sent] using h⟩

/-- Both servers acknowledge the append, and its client gets two responses. -/
theorem two_replies : ∃ out b', (machine (appendResponse 1)).Run idleServer
    [([ackOne 1, ackOne 2], out)] b' ∧ repliesFor (fun _ => ⟨0, 0⟩) 1 out = 2 := by
  obtain ⟨out, b', hr⟩ :=
    BatchServer.exists_run (appendResponse 1) idleServer [ackOne 1, ackOne 2] (by decide)
  have hack : ∀ d ∈ [ackOne 1, ackOne 2], IsAck (fun _ => ⟨0, 0⟩) d := by
    simpa using ⟨isAck_ackOne (by decide), isAck_ackOne (by decide)⟩
  have hk : acksFor 1 (received [([ackOne 1, ackOne 2], out)]) = 2 := rfl
  have h := replies_run (n := 1) hr ready_idleServer rfl (by decide) hack (by rw [hk]; decide)
  rw [hk] at h
  exact ⟨out, b', hr, by simpa [sent] using h⟩

end Pringles.Software
