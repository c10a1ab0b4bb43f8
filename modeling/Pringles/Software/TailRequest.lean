import Pringles.Software.AckCount
import Pringles.Software.Network
import Pringles.Software.Sequencer

/-!
# The tail of the software switch

`tail_request` answers with `max_idx`, the last number that a thread of `append_request` has drawn.
Whether the storage servers have acknowledged the append of that number is not looked at, so while
an append is in flight the answer names a position that no quorum holds. The answer is right in every
run in which the last number has its quorum whenever a tail is asked for (`tails_committed`): below it
lie all numbers for which a response has gone to a client (`Inv.responded_le`).
-/

namespace Pringles.Software

open Bytes

/-- The reply of `LogSoftwareSwitch::tail_request`, with the address that it goes to. -/
def tailRequest (maxIdx : BitVec 64) (recv : List Byte) : Address × List Byte :=
  let buf := setType (TailReq.setTailSeqNo recv (htonl (maxIdx.truncate 32))) (htons ethTailResp)
  (⟨TailReq.clientIp buf, TailReq.recvPort buf⟩, buf.take (sizeofRingType + sizeofRingTailReq))

/-- The threads of `append_request` and of `append_response` of one switch, with what they share. -/
structure SwitchThreads (τ σ : Type) where
  sequencer : Sequencer τ := {}
  acks : AckCount σ := {}

namespace SwitchThreads

inductive Event (τ σ : Type) where
  | append (t : τ)
  | receive (t : σ) (gIdx : BitVec 32)
  | count (t : σ)
  | tail (recv : List Byte)

variable {τ σ : Type} [DecidableEq τ] [DecidableEq σ]

/-- A step, with the reply of a tail request. The storage servers acknowledge only what has been
forwarded to them. A tail request comes in a copy of its size. -/
def step (ackThreshold : BitVec 64) (s : SwitchThreads τ σ) :
    Event τ σ → Option (SwitchThreads τ σ × Option (Address × List Byte))
  | .append t => some ({ s with sequencer := s.sequencer.appendRequest t }, none)
  | .receive t gIdx =>
    if s.sequencer.forwarded.contains gIdx then
      (s.acks.step ackThreshold (.receive t gIdx)).map fun acks => ({ s with acks := acks }, none)
    else none
  | .count t =>
    (s.acks.step ackThreshold (.run t)).map fun acks => ({ s with acks := acks }, none)
  | .tail recv =>
    if recv.length = sizeofRingType + sizeofRingTailReq then
      some (s, some (tailRequest s.sequencer.maxIdx recv))
    else none

/-- What a step found, and the reply that it sent. -/
abbrev Output (τ σ : Type) := SwitchThreads τ σ × Option (Address × List Byte)

variable (τ σ) in
def machine (ackThreshold : BitVec 64) :
    Machine (SwitchThreads τ σ) (Event τ σ) (Output τ σ) :=
  ⟨fun s e => (s.step ackThreshold e).map fun q => (q.1, s, q.2)⟩

/-- A response has gone to the client that appended `n`: after a quorum, or at once when nothing is
stored. -/
def Responded (useStore : Bool) (s : SwitchThreads τ σ) (n : BitVec 64) : Prop :=
  (n, true) ∈ s.acks.processed ∨
    useStore = false ∧ ∃ g ∈ s.sequencer.forwarded, seqNo g = n

/-- The tail in the reply is committed, and no append is behind it that a client has been told of. -/
structure Committed (ackThreshold : BitVec 64) (useStore : Bool) (s : SwitchThreads τ σ)
    (reply : Address × List Byte) : Prop where
  counted : seqNo (TailReq.tailSeqNo reply.2) = 0 ∨
    ackThreshold ≤ s.acks.count (seqNo (TailReq.tailSeqNo reply.2))
  responded : ∀ n, s.Responded useStore n → n ≤ seqNo (TailReq.tailSeqNo reply.2)

/-- The last number that was drawn has its quorum, and the numbers fit in their field. -/
structure Settled (ackThreshold : BitVec 64) (s : SwitchThreads τ σ) : Prop where
  few : s.sequencer.appends < 2 ^ 32
  last : s.sequencer.maxIdx = 0 ∨ ackThreshold ≤ s.acks.count s.sequencer.maxIdx

variable {ackThreshold : BitVec 64} {useStore : Bool} {s s' found : SwitchThreads τ σ}
  {e : Event τ σ} {tr : List (Event τ σ × Output τ σ)} {recv : List Byte}
  {reply : Address × List Byte} {o : Option (Address × List Byte)} {n : BitVec 64}

/-! ## Numbers in use -/

/-- The sequence number that a thread of `append_response` is at work on. -/
def number : AckPc → Option (BitVec 64)
  | .idle => none
  | .find n => some n
  | .insert n => some n
  | .found n => some n
  | .inserted n => some n
  | .release n _ => some n

/-- A thread stays at its number, and processes no other. -/
theorem number_moves {a a' : AckCount σ} {t : σ} {pc : AckPc}
    (hm : AckCount.Moves ackThreshold a t n pc a') :
    number pc = some n ∧ (∀ u k, number (a'.pc u) = some k → k = n ∨ number (a.pc u) = some k) ∧
      ∀ x ∈ a'.processed, x ∈ a.processed ∨ x.1 = n := by
  have hpc : ∀ q : AckPc, (∀ k, number q = some k → k = n) → ∀ u k,
      number (Function.update a.pc t q u) = some k → k = n ∨ number (a.pc u) = some k := by
    intro q hq u k hk
    by_cases hu : u = t
    · subst hu
      rw [Function.update_self] at hk
      exact .inl (hq k hk)
    · rw [Function.update_of_ne hu] at hk
      exact .inr hk
  have hsame : ∀ k, some n = some k → k = n := fun k hk => (Option.some.inj hk).symm
  have hold : ∀ x ∈ a.processed, x ∈ a.processed ∨ x.1 = n := fun x hx => .inl hx
  cases hm with
  | miss => exact ⟨rfl, hpc _ hsame, hold⟩
  | hit => exact ⟨rfl, hpc _ hsame, hold⟩
  | insert => exact ⟨rfl, hpc _ hsame, hold⟩
  | overtaken => exact ⟨rfl, hpc _ hsame, hold⟩
  | count => exact ⟨rfl, hpc _ hsame, hold⟩
  | first => exact ⟨rfl, hpc _ hsame, hold⟩
  | release gotQuorum =>
    refine ⟨rfl, hpc _ (fun k hk => nomatch hk), ?_⟩
    intro x hx
    rcases List.mem_append.1 hx with hx | hx
    · exact .inl hx
    · rw [List.mem_singleton.1 hx]
      exact .inr rfl

/-- No number is larger than the count of appends. -/
structure Inv (s : SwitchThreads τ σ) : Prop where
  count : s.sequencer.maxIdx = BitVec.ofNat 64 s.sequencer.appends
  forwarded : ∀ g ∈ s.sequencer.forwarded, (seqNo g).toNat ≤ s.sequencer.appends
  working : ∀ t n, number (s.acks.pc t) = some n → n.toNat ≤ s.sequencer.appends
  processed : ∀ x ∈ s.acks.processed, x.1.toNat ≤ s.sequencer.appends

omit [DecidableEq τ] [DecidableEq σ] in
theorem inv_init : ({} : SwitchThreads τ σ).Inv where
  count := rfl
  forwarded _ hg := nomatch hg
  working _ _ hn := nomatch hn
  processed _ hx := nomatch hx

omit [DecidableEq σ] in
theorem Inv.append (h : s.Inv) (t : τ) :
    Inv { s with sequencer := s.sequencer.appendRequest t } := by
  have hmono : s.sequencer.appends ≤ (s.sequencer.appendRequest t).appends := Sequencer.appends_le
  constructor
  · cases hpc : s.sequencer.pc t with
    | increment =>
      rw [Sequencer.appendRequest_increment hpc, h.count]
      exact (BitVec.ofNat_add ..).symm
    | load =>
      rw [Sequencer.appendRequest_load hpc]
      exact h.count
  · cases hpc : s.sequencer.pc t with
    | increment =>
      intro g hg
      rw [Sequencer.appendRequest_increment hpc] at hg
      exact Nat.le_trans (h.forwarded g hg) hmono
    | load =>
      rw [Sequencer.appendRequest_load hpc]
      intro g hg
      rcases List.mem_append.1 hg with hg | hg
      · exact h.forwarded g hg
      · -- the number is what was loaded, cut to its field
        have hle := Nat.mod_le s.sequencer.appends (2 ^ 64)
        have hle' := Nat.mod_le (s.sequencer.appends % 2 ^ 64) (2 ^ 32)
        rw [List.mem_singleton.1 hg, toNat_seqNo_htonl, h.count, BitVec.toNat_ofNat]
        exact Nat.le_trans hle' hle
  · exact fun u n hn => Nat.le_trans (h.working u n hn) hmono
  · exact fun x hx => Nat.le_trans (h.processed x hx) hmono

omit [DecidableEq τ] [DecidableEq σ] in
/-- What a thread of `append_response` goes on with. -/
theorem Inv.acks (h : s.Inv) {a : AckCount σ}
    (hw : ∀ t n, number (a.pc t) = some n → n.toNat ≤ s.sequencer.appends)
    (hp : ∀ x ∈ a.processed, x.1.toNat ≤ s.sequencer.appends) : Inv { s with acks := a } :=
  ⟨h.count, h.forwarded, hw, hp⟩

theorem Inv.step (h : s.Inv) (hs : s.step ackThreshold e = some (s', o)) : s'.Inv := by
  cases e with
  | append t =>
    simp only [SwitchThreads.step, Option.some.injEq, Prod.mk.injEq] at hs
    obtain ⟨rfl, -⟩ := hs
    exact h.append t
  | receive t gIdx =>
    simp only [SwitchThreads.step, AckCount.step, Option.ite_none_right_eq_some,
      Option.map_eq_some_iff, Option.some.injEq, Prod.mk.injEq] at hs
    obtain ⟨hg, a, ⟨hidle, rfl⟩, rfl, -⟩ := hs
    refine h.acks ?_ h.processed
    intro u n hn
    change number (Function.update s.acks.pc t (AckPc.find (seqNo gIdx)) u) = some n at hn
    by_cases hu : u = t
    · subst hu
      rw [Function.update_self] at hn
      rw [← Option.some.inj hn]
      exact h.forwarded gIdx (List.contains_iff_mem.1 hg)
    · rw [Function.update_of_ne hu] at hn
      exact h.working u n hn
  | count t =>
    simp only [SwitchThreads.step, AckCount.step, Option.map_eq_some_iff, Prod.mk.injEq] at hs
    obtain ⟨a, ha, rfl, -⟩ := hs
    obtain ⟨n, hm⟩ := AckCount.moves_of_appendResponse ha
    obtain ⟨hn, hpc, hproc⟩ := number_moves hm
    have hle : n.toNat ≤ s.sequencer.appends := h.working t n hn
    refine h.acks ?_ ?_
    · intro u k hk
      rcases hpc u k hk with rfl | hk
      · exact hle
      · exact h.working u k hk
    · intro x hx
      rcases hproc x hx with hx | hx
      · exact h.processed x hx
      · rwa [hx]
  | tail recv =>
    simp only [SwitchThreads.step, Option.ite_none_right_eq_some, Option.some.injEq,
      Prod.mk.injEq] at hs
    obtain ⟨-, rfl, -⟩ := hs
    exact h

theorem machine_eq_some {out : Output τ σ}
    (h : (machine τ σ ackThreshold).step s e = some (s', out)) :
    out.1 = s ∧ s.step ackThreshold e = some (s', out.2) := by
  simp only [machine, Option.map_eq_some_iff, Prod.mk.injEq, Prod.exists] at h
  obtain ⟨m, o, hs, rfl, rfl⟩ := h
  exact ⟨rfl, hs⟩

theorem inv_run (hr : (machine τ σ ackThreshold).Run {} tr s) : s.Inv := by
  induction hr with
  | nil => exact inv_init
  | snoc _ hs ih => exact ih.step (machine_eq_some hs).2

/-! ## The tail -/

/-- What the client finds in the reply. -/
theorem tailSeqNo_tailRequest {maxIdx : BitVec 64}
    (h : recv.length = sizeofRingType + sizeofRingTailReq) :
    TailReq.tailSeqNo (tailRequest maxIdx recv).2 = htonl (maxIdx.truncate 32) := by
  have hle : sizeofRingType + 8 + 4 ≤ recv.length := by
    rw [h]
    decide
  simp only [tailRequest, TailReq.tailSeqNo]
  rw [load32_congr fun i _ hi => byteAt_take (Nat.lt_of_lt_of_le hi (by decide)), setType,
    load32_store16_ne (.inr (by decide)), TailReq.setTailSeqNo, load32_store32 hle]

omit [DecidableEq τ] [DecidableEq σ] in
/-- No client has been told of a number that has not been drawn. -/
theorem Inv.responded_le (h : s.Inv) (hn : s.Responded useStore n) :
    n.toNat ≤ s.sequencer.appends := by
  rcases hn with hn | ⟨-, g, hg, rfl⟩
  · exact h.processed _ hn
  · exact h.forwarded g hg

omit [DecidableEq τ] [DecidableEq σ] in
/-- While the numbers fit in their field, the tail is the last one that was drawn. -/
theorem Inv.tail_eq (h : s.Inv) (hfew : s.sequencer.appends < 2 ^ 32) :
    seqNo (htonl (s.sequencer.maxIdx.truncate 32)) = s.sequencer.maxIdx ∧
      s.sequencer.maxIdx.toNat = s.sequencer.appends := by
  have hmax : s.sequencer.maxIdx.toNat = s.sequencer.appends := by
    rw [h.count, BitVec.toNat_ofNat, Nat.mod_eq_of_lt (by omega)]
  refine ⟨BitVec.eq_of_toNat_eq ?_, hmax⟩
  rw [toNat_seqNo_htonl, hmax, Nat.mod_eq_of_lt hfew]

omit [DecidableEq τ] [DecidableEq σ] in
theorem Inv.committed_iff (h : s.Inv) (hfew : s.sequencer.appends < 2 ^ 32)
    (hlen : recv.length = sizeofRingType + sizeofRingTailReq) :
    Committed ackThreshold useStore s (tailRequest s.sequencer.maxIdx recv) ↔
      s.sequencer.maxIdx = 0 ∨ ackThreshold ≤ s.acks.count s.sequencer.maxIdx := by
  obtain ⟨htail, hmax⟩ := h.tail_eq hfew
  constructor
  · rintro ⟨hcounted, -⟩
    rwa [tailSeqNo_tailRequest hlen, htail] at hcounted
  · intro hlast
    constructor
    · rwa [tailSeqNo_tailRequest hlen, htail]
    · intro n hn
      rw [tailSeqNo_tailRequest hlen, htail, BitVec.le_def, hmax]
      exact h.responded_le hn

/-- A tail request in a run. -/
theorem tail_of_mem (hr : (machine τ σ ackThreshold).Run {} tr s)
    (hx : (.tail recv, found, some reply) ∈ tr) :
    found.Inv ∧ recv.length = sizeofRingType + sizeofRingTailReq ∧
      reply = tailRequest found.sequencer.maxIdx recv := by
  obtain ⟨tr₁, tr₂, rfl⟩ := List.append_of_mem hx
  obtain ⟨m, m', hr₁, hs, -⟩ := hr.split_cons
  obtain ⟨rfl, hs⟩ := machine_eq_some hs
  simp only [SwitchThreads.step, Option.ite_none_right_eq_some, Option.some.injEq,
    Prod.mk.injEq] at hs
  exact ⟨inv_run hr₁, hs.1, hs.2.2.symm⟩

/-- **When the tail is committed.** In every run in which the last number has its quorum whenever a
tail is asked for, all tails are right; and a tail that is right is one of these, while the numbers
fit in their field. -/
theorem tails_committed (hr : (machine τ σ ackThreshold).Run {} tr s) (useStore : Bool) :
    ((∀ recv found reply, (.tail recv, found, some reply) ∈ tr → Settled ackThreshold found) →
      ∀ recv found reply, (.tail recv, found, some reply) ∈ tr →
        Committed ackThreshold useStore found reply) ∧
    ∀ recv found reply, (.tail recv, found, some reply) ∈ tr → found.sequencer.appends < 2 ^ 32 →
      Committed ackThreshold useStore found reply → Settled ackThreshold found := by
  constructor
  · intro hsettled recv found reply hx
    obtain ⟨hinv, hlen, rfl⟩ := tail_of_mem hr hx
    obtain ⟨hfew, hlast⟩ := hsettled recv found _ hx
    exact (hinv.committed_iff hfew hlen).2 hlast
  · intro recv found reply hx hfew hcommitted
    obtain ⟨hinv, hlen, rfl⟩ := tail_of_mem hr hx
    exact ⟨hfew, (hinv.committed_iff hfew hlen).1 hcommitted⟩

/-! ### One append -/

def tailPacket : List Byte := List.replicate 36 0

/-- The append has been acknowledged before the tail is asked for. -/
theorem tails_committed_one : ∃ tr s found reply,
    (machine Unit Unit 1).Run {} tr s ∧ (.tail tailPacket, found, some reply) ∈ tr ∧
      seqNo (TailReq.tailSeqNo reply.2) = 1 ∧ Committed 1 true found reply := by
  have hx : (machine Unit Unit 1).exec {} [.append (), .append (), .receive () (htonl 1),
    .count (), .count (), .count (), .count (), .tail tailPacket] = some (_, _) := rfl
  have hr := Machine.Run.of_exec hx
  refine ⟨_, _, _, _, hr, List.mem_of_getLast? rfl, by decide, ?_⟩
  refine (tails_committed hr true).1 ?_ _ _ _ (List.mem_of_getLast? rfl)
  intro recv found reply hmem
  simp only [List.mem_cons, Prod.mk.injEq, reduceCtorEq, false_or, and_false,
    List.not_mem_nil, or_false] at hmem
  obtain ⟨-, rfl, -⟩ := hmem
  exact ⟨by decide, .inr (by decide)⟩

/-- Nobody has acknowledged it: the tail is 1, and nothing has been counted. -/
theorem tail_not_committed : ∃ tr s found reply,
    (machine Unit Unit 1).Run {} tr s ∧ (.tail tailPacket, found, some reply) ∈ tr ∧
      seqNo (TailReq.tailSeqNo reply.2) = 1 ∧ found.acks.count 1 = 0 ∧
      ¬ Committed 1 true found reply := by
  have hx : (machine Unit Unit 1).exec {} [.append (), .append (), .tail tailPacket] =
    some (_, _) := rfl
  refine ⟨_, _, _, _, .of_exec hx, List.mem_of_getLast? rfl, by decide, by decide, ?_⟩
  rintro ⟨hcounted, -⟩
  revert hcounted
  decide

end SwitchThreads

end Pringles.Software
