import Pringles.Lib.Machine
import Pringles.P4.Pktgen
import Pringles.P4.SequencingStep

/-!
# The programs sequence alike

A pass of `pktgen.p4` without a view change is the sequencing step, too (`Pktgen.observe_apply`). So
over any packets the three programs go through the same sequencing states and write the same numbers,
with tables and clocks of their own (`sequence_alike`).
-/

namespace Pringles.P4

namespace Pktgen

def Registers.sequencing (r : Registers) : SequencingRegs where
  localSeqNo := r.localSeqNo
  cntrlPktIt := r.cntrlPktIt
  mapFromGsn := r.mapFromGsn
  highestReplicatedSeqNo := r.highestReplicatedSeqNo
  ackArray := r.ackArray

def Pipe.observe (s : Pipe) : SequencingRegs × Verdict :=
  (s.regs.sequencing, s.hdr.verdict s.metadata.choice)

variable {t : Tables} {tstamp : BitVec 48} {regs : Registers} {hdr : Headers} {reg : BitVec 32}
  {s s' : Pipe}

/-! ## The branches -/

/-- The batch sizes lie beside the slots, so their cell is there when the slot is. -/
theorem observe_controlBranch : (controlBranch tstamp reg s).map Pipe.observe =
    s.regs.sequencing.control s.hdr reg := by
  unfold controlBranch closeBatch SequencingRegs.control
  simp only [Registers.sequencing, getCntrlPktIt, updateCntrlPktIt]
  by_cases hreg : reg = 0
  · subst hreg
    rw [if_neg (not_not.2 rfl)]
    cases s.regs.mapFromGsn.execute s.regs.cntrlPktIt.toNat (addGsn s.hdr) with
    | none => rfl
    | some q =>
      rw [Option.map_some, if_pos rfl, show s.hdr.cntrl.globalSeqNo + 0 = _ from BitVec.add_zero _]
      rfl
  · rw [if_pos hreg]
    cases hgsn : s.regs.mapFromGsn.execute s.regs.cntrlPktIt.toNat (addGsn s.hdr) with
    | none => rfl
    | some q =>
      have hlt := (RegArray.execute_eq_some.1 hgsn).1
      simp only [RegArray.execute_of_lt _ hlt]
      rw [Option.map_some, if_neg hreg]
      rfl

theorem observe_routeAppend (h : s.metadata.Started)
    (hin : s.hdr.append.cntrlPktIt = s.regs.cntrlPktIt ∨
      s.hdr.append.cntrlPktIt.toNat < maxGsnMapSize) :
    (routeAppend tstamp s).map Pipe.observe =
      some (s.regs.sequencing, s.regs.sequencing.dispatch s.hdr) := by
  unfold routeAppend SequencingRegs.dispatch getCntrlPktIt
  have hit : s.regs.sequencing.cntrlPktIt = s.regs.cntrlPktIt := rfl
  rw [hit]
  split
  · simp [Pipe.observe, P4.Metadata.choice, h.isCntrl]
  · next hne =>
    split
    · have hlt := hin.resolve_left hne
      simp [leaveBatch, RegArray.execute_of_lt _ hlt, Pipe.observe, P4.Metadata.choice, h.isCntrl,
        measure, Headers.verdict, Registers.sequencing]
    · simp [Pipe.observe, P4.Metadata.choice, h.isCntrl, h.circulate, Headers.verdict]

theorem observe_appendBranch (h : s.metadata.Started) : (appendBranch tstamp reg s).map Pipe.observe =
    s.regs.sequencing.append s.hdr reg := by
  unfold appendBranch numberAppend SequencingRegs.append
  simp only [getCntrlPktIt]
  split
  · have hjoin : s.regs.sequencing.mapFromGsn.execute s.regs.sequencing.cntrlPktIt.toNat zeroGsn =
        s.regs.mapFromGsn.execute s.regs.cntrlPktIt.toNat zeroGsn := rfl
    rw [SequencingRegs.join, hjoin]
    cases s.regs.mapFromGsn.execute s.regs.cntrlPktIt.toNat zeroGsn with
    | none => rfl
    | some q => exact observe_routeAppend h (.inl rfl)
  · have hnumber : s.regs.sequencing.mapFromGsn.execute s.hdr.append.cntrlPktIt.toNat getGsn =
        s.regs.mapFromGsn.execute s.hdr.append.cntrlPktIt.toNat getGsn := rfl
    rw [SequencingRegs.number, hnumber]
    cases hgsn : s.regs.mapFromGsn.execute s.hdr.append.cntrlPktIt.toNat getGsn with
    | none => rfl
    | some q =>
      exact observe_routeAppend h (.inr (RegArray.execute_eq_some.1 hgsn).1)

theorem observe_release (h : s.metadata.Started) :
    (release tstamp s).observe = s.regs.sequencing.release s.hdr := by
  unfold release SequencingRegs.release
  cases htimer : s.hdr.timer.isValid with
  | true =>
    simp [Pipe.observe, P4.Metadata.choice, h.isCntrl, h.circulate, h.routeToShard, measure, drop,
      Registers.sequencing]
  | false =>
    cases happend : s.hdr.append.isValid with
    | true =>
      simp [Pipe.observe, P4.Metadata.choice, h.isCntrl, h.circulate, h.routeToShard,
        Registers.sequencing]
    | false =>
      cases hread : s.hdr.read.isValid with
      | true => simp [Pipe.observe, P4.Metadata.choice, h.isCntrl, h.circulate, Headers.verdict]
      | false => simp [Pipe.observe, h.choice]

/-- A response that is ready for its acknowledgement is released, any other one circulates. -/
theorem responseBranch_cases (h : responseBranch tstamp s = some s') :
    (∃ acks, s' = release tstamp { s with regs := { s.regs with ackArray := acks } }) ∨
      s' = { s with metadata := { s.metadata with circulate := true } } := by
  simp only [responseBranch, Option.bind_eq_bind, Option.bind_eq_some_iff, Option.pure_def] at h
  obtain ⟨ready, -, h⟩ := h
  split at h
  · simp only [Option.bind_eq_some_iff, Option.some.injEq] at h
    obtain ⟨⟨acks, ackReady⟩, hacks, rfl⟩ := h
    have hone : ackReady = 1 := (RegArray.execute_eq_some.1 hacks).2.2
    exact .inl ⟨acks, if_pos hone⟩
  · exact .inr (Option.some.inj h).symm

/-- A view change leaves the registers alone. -/
theorem viewBranch_eq_some (h : viewBranch t s = some s') : ∃ startView metadata,
    s' = { s with hdr := { s.hdr with startView := startView }, metadata := metadata } := by
  simp only [viewBranch, Option.bind_eq_bind, Option.bind_eq_some_iff, Option.pure_def,
    Option.some.injEq] at h
  obtain ⟨⟨gsn, highest⟩, hgsn, rfl⟩ := h
  have hsame : gsn = s.regs.mapFromGsn := by
    rw [(RegArray.execute_eq_some.1 hgsn).2.1, getGsn, RegArray.set_get]
  subst hsame
  exact ⟨_, _, rfl⟩

theorem observe_responseBranch (h : s.metadata.Started) :
    (responseBranch tstamp s).map Pipe.observe = s.regs.sequencing.response s.hdr := by
  have hready : s.regs.sequencing.ready s.hdr = readyForAck s := rfl
  have hack : s.regs.sequencing.ackArray.execute (getAckIdx s.hdr).toNat checkAck =
      s.regs.ackArray.execute (getAckIdx s.hdr).toNat checkAck := rfl
  unfold responseBranch SequencingRegs.response
  rw [hready, hack]
  cases readyForAck s with
  | none => rfl
  | some ready =>
    simp only [Option.bind_eq_bind, Option.bind_some]
    split
    · cases hacks : s.regs.ackArray.execute (getAckIdx s.hdr).toNat checkAck with
      | none => rfl
      | some q =>
        have hone : q.2 = 1 := (RegArray.execute_eq_some.1 hacks).2.2
        simp only [Option.bind_some, hone, ↓reduceIte]
        exact congrArg some
          (observe_release (s := { s with regs := { s.regs with ackArray := q.1 } }) h)
    · simp [Pipe.observe, P4.Metadata.choice, h.isCntrl]

theorem observe_tailBranch (h : s.metadata.Started) :
    (tailBranch t s).observe = (s.regs.sequencing, s.regs.sequencing.tail s.hdr) := by
  unfold tailBranch
  simp only
  split
  · rw [Pipe.observe, h.choice]
    rfl
  · exact congrArg (fun c => (s.regs.sequencing, Headers.verdict _ c)) h.choice

/-- Without a view change, the branches are the sequencing step behind the batch counter. -/
theorem observe_process (h : s.metadata.Started) (hview : s.hdr.startView.isValid = false) :
    (process t tstamp reg s).map Pipe.observe = s.regs.sequencing.branch s.hdr reg := by
  unfold process SequencingRegs.branch
  simp only [h.appendProcess, h.readProcess, Bool.and_true, beq_iff_eq, Bool.or_eq_true,
    Bool.and_eq_true, hview, Bool.false_eq_true, ↓reduceIte]
  split
  · exact observe_controlBranch
  split
  · exact observe_appendBranch h
  split
  · exact observe_responseBranch h
  split
  · exact congrArg (fun c => some (s.regs.sequencing, s.hdr.verdict c)) h.choice
  split
  · rw [Option.map_some, observe_tailBranch h]
  · rw [Option.map_some, Pipe.observe, h.choice]

/-! ## The whole pass -/

/-- What the routing leaves as it is: all registers but the turn of the ports, the headers that the
later passes go by, and the decisions. -/
structure Routed (s s' : Pipe) : Prop where
  regs : ∃ idx, s'.regs = { s.regs with recircPortIdx := idx }
  timer : s'.hdr.timer = s.hdr.timer
  cntrl : ∃ pktId, s'.hdr.cntrl = { s.hdr.cntrl with pktId := pktId }
  ringType : s'.hdr.ringType = s.hdr.ringType
  append : s'.hdr.append = s.hdr.append
  tail : s'.hdr.tail = s.hdr.tail
  isCntrl : s'.metadata.isCntrl = s.metadata.isCntrl
  circulate : s'.metadata.circulate = s.metadata.circulate
  routeToShard : s'.metadata.routeToShard = s.metadata.routeToShard

theorem Routed.refl (s : Pipe) : Routed s s :=
  ⟨⟨_, rfl⟩, rfl, ⟨_, rfl⟩, rfl, rfl, rfl, rfl, rfl, rfl⟩

theorem Routed.trans {s s' s'' : Pipe} (h : Routed s s') (h' : Routed s' s'') : Routed s s'' where
  regs := by
    obtain ⟨idx, hregs⟩ := h.regs
    obtain ⟨idx', hregs'⟩ := h'.regs
    exact ⟨idx', hregs'.trans (by rw [hregs])⟩
  timer := h'.timer.trans h.timer
  cntrl := by
    obtain ⟨pktId, hcntrl⟩ := h.cntrl
    obtain ⟨pktId', hcntrl'⟩ := h'.cntrl
    exact ⟨pktId', hcntrl'.trans (by rw [hcntrl])⟩
  ringType := h'.ringType.trans h.ringType
  append := h'.append.trans h.append
  tail := h'.tail.trans h.tail
  isCntrl := h'.isCntrl.trans h.isCntrl
  circulate := h'.circulate.trans h.circulate
  routeToShard := h'.routeToShard.trans h.routeToShard

theorem routed_routeClient (t : Tables) (s : Pipe) : Routed s (routeClient t s) := by
  unfold routeClient ipv4Lpm drop
  split
  · split
    · exact ⟨⟨_, rfl⟩, rfl, ⟨_, rfl⟩, rfl, rfl, rfl, rfl, rfl, rfl⟩
    · exact ⟨⟨_, rfl⟩, rfl, ⟨_, rfl⟩, rfl, rfl, rfl, rfl, rfl, rfl⟩
    · exact .refl s
  · exact .refl s

theorem routed_cntrlIdToIp (t : Tables) (s : Pipe) : Routed s (cntrlIdToIp t s) := by
  unfold cntrlIdToIp drop
  split
  · exact ⟨⟨_, rfl⟩, rfl, ⟨_, rfl⟩, rfl, rfl, rfl, rfl, rfl, rfl⟩
  · exact ⟨⟨_, rfl⟩, rfl, ⟨_, rfl⟩, rfl, rfl, rfl, rfl, rfl, rfl⟩
  · exact .refl s

theorem routed_circulateTable (t : Tables) (s : Pipe) : Routed s (circulateTable t s) := by
  unfold circulateTable drop
  simp only
  split
  · exact ⟨⟨_, rfl⟩, rfl, ⟨_, rfl⟩, rfl, rfl, rfl, rfl, rfl, rfl⟩
  · exact ⟨⟨_, rfl⟩, rfl, ⟨_, rfl⟩, rfl, rfl, rfl, rfl, rfl, rfl⟩

theorem routed_getShardPort (t : Tables) (s : Pipe) : Routed s (getShardPort t s) := by
  unfold getShardPort
  split
  · exact ⟨⟨_, rfl⟩, rfl, ⟨_, rfl⟩, rfl, rfl, rfl, rfl, rfl, rfl⟩
  · exact .refl s

theorem routed_submitSubscription (t : Tables) (s : Pipe) : Routed s (submitSubscription t s) := by
  unfold submitSubscription
  simp only
  split
  · exact ⟨⟨_, rfl⟩, rfl, ⟨_, rfl⟩, rfl, rfl, rfl, rfl, rfl, rfl⟩
  · exact ⟨⟨_, rfl⟩, rfl, ⟨_, rfl⟩, rfl, rfl, rfl, rfl, rfl, rfl⟩
  · exact ⟨⟨_, rfl⟩, rfl, ⟨_, rfl⟩, rfl, rfl, rfl, rfl, rfl, rfl⟩

theorem routed_routeSubscriberAcks (t : Tables) (s : Pipe) :
    Routed s (routeSubscriberAcks t s) := by
  unfold routeSubscriberAcks
  split
  · exact ⟨⟨_, rfl⟩, rfl, ⟨_, rfl⟩, rfl, rfl, rfl, rfl, rfl, rfl⟩
  · exact .refl s

theorem routed_route (t : Tables) (s : Pipe) : Routed s (route t s) := by
  have hclient := routed_routeClient t s
  unfold route
  simp only
  split
  · exact hclient.trans (routed_cntrlIdToIp ..)
  split
  · exact hclient.trans (routed_circulateTable ..)
  split
  · exact hclient.trans (routed_getShardPort ..)
  split
  · exact hclient.trans (routed_submitSubscription ..)
  split
  · exact hclient.trans (routed_routeSubscriberAcks ..)
  · exact hclient

theorem observe_route (t : Tables) (s : Pipe) : (route t s).observe = s.observe := by
  have h := routed_route t s
  obtain ⟨idx, hregs⟩ := h.regs
  obtain ⟨pktId, hcntrl⟩ := h.cntrl
  rw [Pipe.observe, Headers.verdict, P4.Metadata.choice, hregs, hcntrl, h.ringType, h.append, h.tail,
    h.isCntrl, h.circulate, h.routeToShard]
  rfl

/-- The batch counter is the only register that is written in front of the branches. -/
theorem exists_localSeqNoReg (s : Pipe) :
    ∃ n, (localSeqNoReg s).2 = { s with regs := { s.regs with localSeqNo := n } } := by
  unfold localSeqNoReg
  split
  · exact ⟨_, rfl⟩
  split
  · exact ⟨_, rfl⟩
  · exact ⟨_, rfl⟩

theorem observe_localSeqNoReg (s : Pipe) :
    ((localSeqNoReg s).1, (localSeqNoReg s).2.regs.sequencing) =
        s.regs.sequencing.count s.hdr ∧
      (localSeqNoReg s).2.hdr = s.hdr ∧ (localSeqNoReg s).2.metadata = s.metadata := by
  unfold localSeqNoReg SequencingRegs.count
  by_cases hc : s.hdr.cntrl.isValid = true
  · simp only [if_pos hc]
    exact ⟨rfl, trivial, trivial⟩
  · simp only [if_neg hc]
    by_cases ha : (s.hdr.append.isValid && s.hdr.append.gIdx == 0) = true
    · simp only [if_pos ha]
      exact ⟨rfl, trivial, trivial⟩
    · simp only [if_neg ha, and_self]

/-- **A pass of `pktgen.p4` is the sequencing step.** -/
theorem observe_apply (hview : hdr.startView.isValid = false) :
    (apply t tstamp regs hdr).map Pipe.observe = regs.sequencing.sequence hdr := by
  obtain ⟨hcount, hhdr, hmeta⟩ := observe_localSeqNoReg (start { regs := regs, hdr := hdr })
  have hcount' : _ = regs.sequencing.count hdr := hcount
  unfold apply SequencingRegs.sequence
  rw [← hcount']
  generalize localSeqNoReg (start { regs := regs, hdr := hdr }) = ls at hhdr hmeta
  obtain ⟨reg, s⟩ := ls
  have hhdr' : s.hdr = hdr := hhdr
  have hstarted : s.metadata.Started := by
    constructor <;> simp only at hmeta <;> rw [hmeta] <;> rfl
  have hroute : Pipe.observe ∘ route t = Pipe.observe := funext (observe_route t)
  subst hhdr'
  simp only [Option.map_map, hroute]
  exact observe_process hstarted hview

end Pktgen

/-! ## Runs of the programs -/

/-- A switch that runs only one pass after the other: packets with their time of arrival. -/
def MyIngress.machine (p : Program) (t : Tables) :
    Machine Registers (BitVec 48 × Headers) Pipe :=
  ⟨fun regs e => (MyIngress.apply p t e.1 regs e.2).map fun s => (s.regs, s)⟩

def Pktgen.machine (t : Pktgen.Tables) :
    Machine Pktgen.Registers (BitVec 48 × Headers) Pktgen.Pipe :=
  ⟨fun regs e => (Pktgen.apply t e.1 regs e.2).map fun s => (s.regs, s)⟩

def SequencingRegs.machine : Machine SequencingRegs Headers Verdict := ⟨SequencingRegs.sequence⟩

/-- The sequencing state behind some packets, and what was written into each of them. -/
def MyIngress.observed (p : Program) (t : Tables) (es : List (BitVec 48 × Headers)) :
    Option (SequencingRegs × List (Headers × Verdict)) :=
  ((MyIngress.machine p t).exec {} es).map
    (Prod.map Registers.sequencing (List.map (Prod.map Prod.snd fun s => s.observe.2)))

def Pktgen.observed (t : Pktgen.Tables) (es : List (BitVec 48 × Headers)) :
    Option (SequencingRegs × List (Headers × Verdict)) :=
  ((Pktgen.machine t).exec {} es).map
    (Prod.map Pktgen.Registers.sequencing (List.map (Prod.map Prod.snd fun s => s.observe.2)))

variable {es : List (BitVec 48 × Headers)}

theorem MyIngress.observed_eq (p : Program) (t : Tables)
    (hview : ∀ e ∈ es, e.2.startView.isValid = false) :
    MyIngress.observed p t es = SequencingRegs.machine.exec {} (es.map Prod.snd) := by
  refine Machine.exec_map ?_ _
  intro e he regs
  have happly : (MyIngress.apply p t e.1 regs e.2).map Pipe.observe =
      regs.sequencing.sequence e.2 := MyIngress.observe_apply (hview e he)
  exact (Option.map_map ..).trans happly

theorem Pktgen.observed_eq (t : Pktgen.Tables)
    (hview : ∀ e ∈ es, e.2.startView.isValid = false) :
    Pktgen.observed t es = SequencingRegs.machine.exec {} (es.map Prod.snd) := by
  refine Machine.exec_map ?_ _
  intro e he regs
  have happly : (Pktgen.apply t e.1 regs e.2).map Pktgen.Pipe.observe =
      regs.sequencing.sequence e.2 := Pktgen.observe_apply (hview e he)
  exact (Option.map_map ..).trans happly

/-- **The three programs sequence alike.** For the same packets, at whatever times they arrive and
with whatever tables, they have the same sequencing state and write the same into every packet, or
all come to a cell that is not there. -/
theorem sequence_alike {hdrs : List Headers} {es₁ es₂ es₃ : List (BitVec 48 × Headers)}
    (h₁ : es₁.map Prod.snd = hdrs) (h₂ : es₂.map Prod.snd = hdrs) (h₃ : es₃.map Prod.snd = hdrs)
    (hview : ∀ hdr ∈ hdrs, hdr.startView.isValid = false) (t₁ t₂ : Tables) (t₃ : Pktgen.Tables) :
    MyIngress.observed .sequencingOnly t₁ es₁ = MyIngress.observed .failure t₂ es₂ ∧
      MyIngress.observed .sequencingOnly t₁ es₁ = Pktgen.observed t₃ es₃ := by
  have hview' : ∀ es : List (BitVec 48 × Headers), es.map Prod.snd = hdrs →
      ∀ e ∈ es, e.2.startView.isValid = false := by
    rintro es rfl e he
    exact hview _ (List.mem_map_of_mem he)
  rw [MyIngress.observed_eq _ _ (hview' es₁ h₁), MyIngress.observed_eq _ _ (hview' es₂ h₂),
    Pktgen.observed_eq _ (hview' es₃ h₃), h₁, h₂, h₃]
  exact ⟨rfl, rfl⟩

/-- An append, and the control packet that closes its batch. -/
theorem sequence_alike_batch :
    MyIngress.observed .sequencingOnly {} [(1, .appendPkt), (2, .controlPkt 7)] =
        MyIngress.observed .failure {} [(3, .appendPkt), (4, .controlPkt 7)] ∧
      MyIngress.observed .sequencingOnly {} [(1, .appendPkt), (2, .controlPkt 7)] =
        Pktgen.observed {} [(5, .appendPkt), (6, .controlPkt 7)] ∧
      (MyIngress.observed .sequencingOnly {} [(1, .appendPkt), (2, .controlPkt 7)]).isSome := by
  have hview : ∀ hdr ∈ [Headers.appendPkt, .controlPkt 7], hdr.startView.isValid = false := by
    simp [Headers.appendPkt, Headers.controlPkt, Headers.framed]
  have hdrs : ∀ a b : BitVec 48, [(a, Headers.appendPkt), (b, .controlPkt 7)].map Prod.snd =
      [.appendPkt, .controlPkt 7] := fun _ _ => rfl
  obtain ⟨hfailure, hpktgen⟩ :=
    sequence_alike (hdrs 1 2) (hdrs 3 4) (hdrs 5 6) hview {} {} {}
  exact ⟨hfailure, hpktgen, rfl⟩

end Pringles.P4
