import Pringles.P4.IngressSpec

/-!
# The sequencing step

The switch programs are copies of one another with measurements, ports and a view change of their
own. What they have in common is `sequence`: what a pass does to the registers of the sequencing
protocol and to the numbers in the packet, and whether the packet circulates or goes to its shard.
Every pass of `sequencing_only.p4` and of `failure.p4` without a view change is this step, whatever
its tables and its clock (`observe_apply`).
-/

namespace Pringles.P4

/-- The registers of the sequencing protocol. -/
structure SequencingRegs where
  localSeqNo : BitVec 32 := 0
  cntrlPktIt : BitVec 16 := 0
  mapFromGsn : RegArray maxGsnMapSize 32 := .init _ 0
  highestReplicatedSeqNo : BitVec 32 := 0
  ackArray : RegArray maxInflightAcks 32 := .init _ 0

inductive Choice where
  | circulate
  | shard
  | neither
deriving DecidableEq

/-- What a pass writes into the packet, and where it sends it. -/
structure Verdict where
  gIdx : BitVec 32
  cntrlPktIt : BitVec 16
  type : BitVec 16
  shardId : BitVec 32
  tailSeqNo : BitVec 32
  globalSeqNo : BitVec 32
  choice : Choice

/-- The numbers that the headers hold. -/
def Headers.verdict (hdr : Headers) (choice : Choice) : Verdict where
  gIdx := hdr.append.gIdx
  cntrlPktIt := hdr.append.cntrlPktIt
  type := hdr.ringType.type
  shardId := hdr.ringType.shardId
  tailSeqNo := hdr.tail.tailSeqNo
  globalSeqNo := hdr.cntrl.globalSeqNo
  choice := choice

namespace SequencingRegs

/-- The batch counter, and the registers behind it. -/
def count (r : SequencingRegs) (hdr : Headers) : BitVec 32 × SequencingRegs :=
  if hdr.cntrl.isValid then (r.localSeqNo, { r with localSeqNo := 0 })
  else if hdr.append.isValid && hdr.append.gIdx == 0 then
    (r.localSeqNo + 1, { r with localSeqNo := r.localSeqNo + 1 })
  else (0, r)

/-- A control packet closes the batch, if there is anything in it. -/
def control (r : SequencingRegs) (hdr : Headers) (size : BitVec 32) :
    Option (SequencingRegs × Verdict) :=
  (r.mapFromGsn.execute r.cntrlPktIt.toNat (addGsn hdr)).map fun q =>
    ({ r with
      mapFromGsn := q.1
      cntrlPktIt := if size = 0 then r.cntrlPktIt else (updateCntrlPktIt r.cntrlPktIt).1 },
      { hdr.verdict .neither with globalSeqNo := hdr.cntrl.globalSeqNo + size })

/-- A new append joins the open batch. -/
def join (r : SequencingRegs) (hdr : Headers) (offset : BitVec 32) :
    Option (SequencingRegs × Headers) :=
  (r.mapFromGsn.execute r.cntrlPktIt.toNat zeroGsn).map fun q =>
    ({ r with mapFromGsn := q.1 }, { hdr with append := { hdr.append with
      cntrlPktIt := r.cntrlPktIt, gIdx := offset } })

/-- An append that has gone around adds the number of its batch. -/
def number (r : SequencingRegs) (hdr : Headers) : Option (SequencingRegs × Headers) :=
  (r.mapFromGsn.execute hdr.append.cntrlPktIt.toNat getGsn).map fun q =>
    ({ r with mapFromGsn := q.1 }, { hdr with append := { hdr.append with
      gIdx := hdr.append.gIdx + q.2 } })

/-- An append of the open batch circulates, one of a closed batch has its number. -/
def dispatch (r : SequencingRegs) (hdr : Headers) : Verdict :=
  if hdr.append.cntrlPktIt = r.cntrlPktIt then hdr.verdict .circulate
  else if hdr.timer.isValid then { hdr.verdict .circulate with type := typeAppendResp }
  else { hdr.verdict .shard with
    shardId := if hdr.append.streamId = 0 then hdr.append.gIdx else hdr.append.streamId }

def append (r : SequencingRegs) (hdr : Headers) (offset : BitVec 32) :
    Option (SequencingRegs × Verdict) :=
  (if hdr.append.gIdx = 0 then r.join hdr offset else r.number hdr).map fun q =>
    (q.1, q.1.dispatch q.2)

/-- A response of a client's append raises the highest replicated number; a read goes to its
shard. -/
def release (r : SequencingRegs) (hdr : Headers) : SequencingRegs × Verdict :=
  if hdr.timer.isValid then (r, hdr.verdict .neither)
  else if hdr.append.isValid then
    ({ r with highestReplicatedSeqNo := writeReplicatedSeqNo hdr r.highestReplicatedSeqNo },
      hdr.verdict .neither)
  else if hdr.read.isValid then (r, { hdr.verdict .shard with shardId := hdr.read.gIdx })
  else (r, hdr.verdict .neither)

/-- Whether a response has a number that the open slot has reached. -/
def ready (r : SequencingRegs) (hdr : Headers) : Option (BitVec 32) :=
  if hdr.ringType.type = typeAppendResp then
    (r.mapFromGsn.execute r.cntrlPktIt.toNat (compareGsn hdr)).map Prod.snd
  else some 1

/-- A response that is too early circulates. -/
def response (r : SequencingRegs) (hdr : Headers) : Option (SequencingRegs × Verdict) :=
  (r.ready hdr).bind fun ready =>
    if ready = 1 then
      (r.ackArray.execute (getAckIdx hdr).toNat checkAck).map fun q =>
        { r with ackArray := q.1 }.release hdr
    else some (r, hdr.verdict .circulate)

def tail (r : SequencingRegs) (hdr : Headers) : Verdict :=
  let seen := getTail hdr r.highestReplicatedSeqNo
  { hdr.verdict .neither with tailSeqNo := if seen = 0 then hdr.tail.tailSeqNo else seen }

/-- The step behind the batch counter. -/
def branch (r : SequencingRegs) (hdr : Headers) (reg : BitVec 32) :
    Option (SequencingRegs × Verdict) :=
  if hdr.cntrl.isValid then r.control hdr reg
  else if hdr.ringType.type = typeAppend then r.append hdr reg
  else if (hdr.ringType.type = typeAppendResp ∧ hdr.append.isValid) ∨
      hdr.ringType.type = typeRead then r.response hdr
  else if hdr.ringType.type = typeReadResp then some (r, hdr.verdict .neither)
  else if hdr.tail.isValid then some (r, r.tail hdr)
  else some (r, hdr.verdict .neither)

/-- **The sequencing step.** -/
def sequence (r : SequencingRegs) (hdr : Headers) : Option (SequencingRegs × Verdict) :=
  (r.count hdr).2.branch hdr (r.count hdr).1

end SequencingRegs

/-! ## What a pass shows of it -/

def Registers.sequencing (r : Registers) : SequencingRegs where
  localSeqNo := r.localSeqNo
  cntrlPktIt := r.cntrlPktIt
  mapFromGsn := r.mapFromGsn
  highestReplicatedSeqNo := r.highestReplicatedSeqNo
  ackArray := r.ackArray

/-- Where the routing logic sends a packet. -/
def Metadata.choice (m : Metadata) : Choice :=
  if m.isCntrl then .neither else if m.circulate then .circulate
  else if m.routeToShard then .shard else .neither

/-- The head of `apply` has been passed and nothing has been decided. -/
structure Metadata.Started (m : Metadata) : Prop where
  isCntrl : m.isCntrl = false
  circulate : m.circulate = false
  routeToShard : m.routeToShard = false
  appendProcess : m.appendProcess = true
  readProcess : m.readProcess = true

theorem Metadata.Started.choice {m : Metadata} (h : m.Started) : m.choice = .neither := by
  simp [Metadata.choice, h.isCntrl, h.circulate, h.routeToShard]

/-- What is compared after a pass. -/
def Pipe.observe (s : Pipe) : SequencingRegs × Verdict :=
  (s.regs.sequencing, s.hdr.verdict s.metadata.choice)

variable {p : Program} {tstamp : BitVec 48} {regs : Registers} {hdr : Headers} {reg : BitVec 32}

/-! ## The passes -/

namespace MyIngress

variable {t : Tables} {s : Pipe}

theorem observe_controlBranch : (controlBranch tstamp reg s).map Pipe.observe =
    s.regs.sequencing.control s.hdr reg := by
  unfold controlBranch recordGsn SequencingRegs.control
  simp only [Registers.sequencing, getCntrlPktIt, updateCntrlPktIt]
  by_cases hreg : reg = 0
  · subst hreg
    rw [if_neg (not_not.2 rfl)]
    cases s.regs.mapFromGsn.execute s.regs.cntrlPktIt.toNat (addGsn s.hdr) with
    | none => rfl
    | some q =>
      rw [Option.map_some, if_pos rfl, show s.hdr.cntrl.globalSeqNo + 0 = _ from BitVec.add_zero _]
      rfl
  · rw [if_pos hreg]
    cases s.regs.mapFromGsn.execute s.regs.cntrlPktIt.toNat (addGsn s.hdr) with
    | none => rfl
    | some q =>
      rw [Option.map_some, if_neg hreg]
      rfl

theorem observe_routeAppend (h : s.metadata.Started) : (routeAppend tstamp s).observe =
    (s.regs.sequencing, s.regs.sequencing.dispatch s.hdr) := by
  unfold routeAppend SequencingRegs.dispatch getCntrlPktIt
  have hit : s.regs.sequencing.cntrlPktIt = s.regs.cntrlPktIt := rfl
  rw [hit]
  split
  · simp [Pipe.observe, Metadata.choice, h.isCntrl]
  · split
    · simp [Pipe.observe, Metadata.choice, h.isCntrl, measure, Headers.verdict, Registers.sequencing]
    · simp [Pipe.observe, Metadata.choice, h.isCntrl, h.circulate, Headers.verdict]

theorem observe_appendBranch (h : s.metadata.Started) : (appendBranch tstamp reg s).map Pipe.observe =
    s.regs.sequencing.append s.hdr reg := by
  unfold appendBranch numberAppend SequencingRegs.append
  simp only [getCntrlPktIt]
  split
  · have hjoin : s.regs.sequencing.mapFromGsn.execute s.regs.sequencing.cntrlPktIt.toNat zeroGsn =
        s.regs.mapFromGsn.execute s.regs.cntrlPktIt.toNat zeroGsn := rfl
    rw [SequencingRegs.join, hjoin]
    cases s.regs.mapFromGsn.execute s.regs.cntrlPktIt.toNat zeroGsn with
    | none => rfl
    | some q => exact congrArg some (observe_routeAppend h)
  · have hnumber : s.regs.sequencing.mapFromGsn.execute s.hdr.append.cntrlPktIt.toNat getGsn =
        s.regs.mapFromGsn.execute s.hdr.append.cntrlPktIt.toNat getGsn := rfl
    rw [SequencingRegs.number, hnumber]
    cases s.regs.mapFromGsn.execute s.hdr.append.cntrlPktIt.toNat getGsn with
    | none => rfl
    | some q => exact congrArg some (observe_routeAppend h)

theorem observe_release (h : s.metadata.Started) :
    (release tstamp s).observe = s.regs.sequencing.release s.hdr := by
  unfold release SequencingRegs.release
  cases htimer : s.hdr.timer.isValid with
  | true =>
    simp [Pipe.observe, Metadata.choice, h.isCntrl, h.circulate, h.routeToShard, measure,
      Registers.sequencing]
  | false =>
    cases happend : s.hdr.append.isValid with
    | true =>
      simp [Pipe.observe, Metadata.choice, h.isCntrl, h.circulate, h.routeToShard,
        Registers.sequencing]
    | false =>
      cases hread : s.hdr.read.isValid with
      | true => simp [Pipe.observe, Metadata.choice, h.isCntrl, h.circulate, Headers.verdict]
      | false => simp [Pipe.observe, h.choice]

theorem observe_responseBranch (h : s.metadata.Started) :
    (responseBranch tstamp s).map Pipe.observe = s.regs.sequencing.response s.hdr := by
  have hready : s.regs.sequencing.ready s.hdr = readyForAck s := rfl
  have hack : s.regs.sequencing.ackArray.execute (getAckIdx s.hdr).toNat checkAck =
      s.regs.ackArray.execute (getAckIdx s.hdr).toNat checkAck := rfl
  unfold responseBranch SequencingRegs.response
  rw [hready, hack]
  cases readyForAck s with
  | none => rfl
  | some ready =>
    simp only [Option.bind_eq_bind, Option.bind_some]
    split
    · cases hacks : s.regs.ackArray.execute (getAckIdx s.hdr).toNat checkAck with
      | none => rfl
      | some q =>
        have hone : q.2 = 1 := (RegArray.execute_eq_some.1 hacks).2.2
        simp only [Option.bind_some, hone, ↓reduceIte]
        exact congrArg some
          (observe_release (s := { s with regs := { s.regs with ackArray := q.1 } }) h)
    · simp [Pipe.observe, Metadata.choice, h.isCntrl]

theorem observe_tailBranch (h : s.metadata.Started) :
    (tailBranch t s).observe = (s.regs.sequencing, s.regs.sequencing.tail s.hdr) := by
  unfold tailBranch
  simp only
  split
  · rw [Pipe.observe, h.choice]
    rfl
  · exact congrArg (fun c => (s.regs.sequencing, Headers.verdict _ c)) h.choice

/-- Without a view change, the branches are the sequencing step behind the batch counter. -/
theorem observe_process (h : s.metadata.Started) (hview : s.hdr.startView.isValid = false) :
    (process p t tstamp reg s).map Pipe.observe = s.regs.sequencing.branch s.hdr reg := by
  have hans : answersView p s = false := by
    cases p with
    | sequencingOnly => exact hview
    | failure => simp [answersView, hview]
  unfold process SequencingRegs.branch
  simp only [h.appendProcess, h.readProcess, Bool.and_true, beq_iff_eq, Bool.or_eq_true,
    Bool.and_eq_true, hans, Bool.false_eq_true, ↓reduceIte]
  split
  · exact observe_controlBranch
  split
  · exact observe_appendBranch h
  split
  · exact observe_responseBranch h
  split
  · exact congrArg (fun c => some (s.regs.sequencing, s.hdr.verdict c)) h.choice
  split
  · rw [Option.map_some, observe_tailBranch h]
  · rw [Option.map_some, Pipe.observe, h.choice]

theorem observe_routeClient (t : Tables) (s : Pipe) : (routeClient t s).observe = s.observe := by
  unfold routeClient ipv4Lpm drop
  split
  · split <;> rfl
  · rfl

theorem observe_route (t : Tables) (s : Pipe) : (route t s).observe = s.observe := by
  rw [← observe_routeClient t s]
  unfold route
  simp only
  split
  · unfold cntrlIdToIp drop
    split <;> rfl
  split
  · unfold circulateTable drop
    split <;> rfl
  split
  · unfold getShardPort
    split <;> rfl
  split
  · unfold submitSubscription
    simp only
    split <;> rfl
  split
  · unfold routeSubscriberAcks
    split <;> rfl
  · rfl

theorem observe_localSeqNoReg (s : Pipe) :
    ((localSeqNoReg s).1, (localSeqNoReg s).2.regs.sequencing) =
      s.regs.sequencing.count s.hdr := by
  unfold localSeqNoReg SequencingRegs.count
  by_cases hc : s.hdr.cntrl.isValid = true
  · simp only [if_pos hc]
    rfl
  · simp only [if_neg hc]
    by_cases ha : (s.hdr.append.isValid && s.hdr.append.gIdx == 0) = true
    · simp only [if_pos ha]
      rfl
    · simp only [if_neg ha]

/-- **A pass of `sequencing_only.p4` or `failure.p4` is the sequencing step.** -/
theorem observe_apply (hview : hdr.startView.isValid = false) :
    (apply p t tstamp regs hdr).map Pipe.observe = regs.sequencing.sequence hdr := by
  obtain ⟨hhdr, hmeta, -⟩ := localSeqNoReg_frame (start { regs := regs, hdr := hdr })
  have hcount : _ = regs.sequencing.count hdr :=
    observe_localSeqNoReg (start { regs := regs, hdr := hdr })
  unfold apply SequencingRegs.sequence
  rw [← hcount]
  generalize localSeqNoReg (start { regs := regs, hdr := hdr }) = ls at hhdr hmeta
  obtain ⟨reg, s⟩ := ls
  have hhdr' : s.hdr = hdr := hhdr
  have hstarted : s.metadata.Started := by
    constructor <;> simp only at hmeta <;> rw [hmeta] <;> rfl
  have hroute : Pipe.observe ∘ route t = Pipe.observe := funext (observe_route t)
  subst hhdr'
  simp only [Option.map_map, hroute]
  exact observe_process hstarted hview

end MyIngress

end Pringles.P4
