import Pringles.P4.Ingress

/-!
# What one pass can do

One statement per kind of packet says everything that a pass of it does to the sequencing state:
`ControlPass`, `FreshPass`, `CirculatingPass`, `ResponsePass` and `IdlePass`. The proofs above this
file read passes through these statements and never unfold the pipeline. The routing logic at the
end of the pipeline is a frame (`Routed`): it assigns outputs and leaves registers, sequencing
headers and decisions as the branches left them.
-/

namespace Pringles.P4

namespace MyIngress

/-! ## The routing logic is a frame -/

/-- `s'` differs from `s` in outputs, addresses and mirroring only. -/
structure Routed (s s' : Pipe) : Prop where
  regs : s'.regs = s.regs
  cntrlValid : s'.hdr.cntrl.isValid = s.hdr.cntrl.isValid
  globalSeqNo : s'.hdr.cntrl.globalSeqNo = s.hdr.cntrl.globalSeqNo
  timer : s'.hdr.timer = s.hdr.timer
  startView : s'.hdr.startView = s.hdr.startView
  ringType : s'.hdr.ringType = s.hdr.ringType
  append : s'.hdr.append = s.hdr.append
  tail : s'.hdr.tail = s.hdr.tail
  subValid : s'.hdr.sub.isValid = s.hdr.sub.isValid
  circulate : s'.metadata.circulate = s.metadata.circulate
  routeToShard : s'.metadata.routeToShard = s.metadata.routeToShard
  routeToClient : s'.metadata.routeToClient = s.metadata.routeToClient
  sendAcks : s'.metadata.sendAcks = s.metadata.sendAcks

theorem Routed.refl (s : Pipe) : Routed s s := by constructor <;> rfl

theorem Routed.trans {s s' s'' : Pipe} (h : Routed s s') (h' : Routed s' s'') : Routed s s'' := by
  constructor
  · exact h'.regs.trans h.regs
  · exact h'.cntrlValid.trans h.cntrlValid
  · exact h'.globalSeqNo.trans h.globalSeqNo
  · exact h'.timer.trans h.timer
  · exact h'.startView.trans h.startView
  · exact h'.ringType.trans h.ringType
  · exact h'.append.trans h.append
  · exact h'.tail.trans h.tail
  · exact h'.subValid.trans h.subValid
  · exact h'.circulate.trans h.circulate
  · exact h'.routeToShard.trans h.routeToShard
  · exact h'.routeToClient.trans h.routeToClient
  · exact h'.sendAcks.trans h.sendAcks

theorem routed_ipv4Lpm (t : Tables) (s : Pipe) : Routed s (ipv4Lpm t s) := by
  unfold ipv4Lpm drop
  split <;> constructor <;> rfl

theorem routed_cntrlIdToIp (t : Tables) (s : Pipe) : Routed s (cntrlIdToIp t s) := by
  unfold cntrlIdToIp drop
  split <;> constructor <;> rfl

theorem routed_circulateTable (t : Tables) (s : Pipe) : Routed s (circulateTable t s) := by
  unfold circulateTable drop
  split <;> constructor <;> rfl

theorem routed_getShardPort (t : Tables) (s : Pipe) : Routed s (getShardPort t s) := by
  unfold getShardPort
  split <;> constructor <;> rfl

theorem routed_submitSubscription (t : Tables) (s : Pipe) : Routed s (submitSubscription t s) := by
  unfold submitSubscription
  simp only
  split <;> constructor <;> rfl

theorem routed_routeSubscriberAcks (t : Tables) (s : Pipe) :
    Routed s (routeSubscriberAcks t s) := by
  unfold routeSubscriberAcks
  split <;> constructor <;> rfl

theorem routed_routeClient (t : Tables) (s : Pipe) : Routed s (routeClient t s) := by
  unfold routeClient
  split
  · exact routed_ipv4Lpm t s
  · exact .refl s

theorem routed_route (t : Tables) (s : Pipe) : Routed s (route t s) := by
  refine (routed_routeClient t s).trans ?_
  unfold route
  simp only
  split
  · exact routed_cntrlIdToIp t _
  split
  · exact routed_circulateTable t _
  split
  · exact routed_getShardPort t _
  split
  · exact routed_submitSubscription t _
  split
  · exact routed_routeSubscriberAcks t _
  · exact .refl _

/-! ## Control packets -/

/-- A control packet leaves its number in the current slot. It takes the batch counter with it, and
moves the switch to the next slot if the counter was not zero. -/
structure ControlPass (regs : Registers) (hdr : Headers) (out : Pipe) : Prop where
  inRange : regs.cntrlPktIt.toNat < maxGsnMapSize
  localSeqNo : out.regs.localSeqNo = 0
  cntrlPktIt : out.regs.cntrlPktIt =
    if regs.localSeqNo = 0 then regs.cntrlPktIt else regs.cntrlPktIt + 1
  mapFromGsn : out.regs.mapFromGsn =
    regs.mapFromGsn.set regs.cntrlPktIt.toNat hdr.cntrl.globalSeqNo
  highest : out.regs.highestReplicatedSeqNo = regs.highestReplicatedSeqNo
  ackArray : out.regs.ackArray = regs.ackArray
  isControl : out.hdr.cntrl.isValid = true
  globalSeqNo : out.hdr.cntrl.globalSeqNo = hdr.cntrl.globalSeqNo + regs.localSeqNo
  circulate : out.metadata.circulate = false
  routeToShard : out.metadata.routeToShard = false
  routeToClient : out.metadata.routeToClient = false

/-- The slot counter stays below the register size, so the wrap of `update_cntrl_pkt_it` is out of
reach of a pass that has a result. -/
theorem updateCntrlPktIt_of_lt {it : BitVec 16} (h : it.toNat < maxGsnMapSize) :
    (updateCntrlPktIt it).1 = it + 1 := by
  unfold updateCntrlPktIt
  have hne : it ≠ BitVec.ofNat 16 maxGsnMapSize := by
    rintro rfl
    exact absurd h (by decide)
  simp [hne]

variable {p : Program} {t : Tables} {tstamp : BitVec 48} {regs : Registers} {hdr : Headers}
  {out : Pipe}

theorem recordGsn_some {reg : BitVec 32} {s s' : Pipe} (h : recordGsn reg s = some s') :
    s.regs.cntrlPktIt.toNat < maxGsnMapSize ∧
      s'.regs.mapFromGsn = s.regs.mapFromGsn.set s.regs.cntrlPktIt.toNat s.hdr.cntrl.globalSeqNo ∧
      s'.regs.cntrlPktIt = (if reg = 0 then s.regs.cntrlPktIt else s.regs.cntrlPktIt + 1) ∧
      s'.hdr.cntrl.globalSeqNo = s.hdr.cntrl.globalSeqNo + reg ∧
      s'.hdr.cntrl.isValid = s.hdr.cntrl.isValid ∧ s'.regs.localSeqNo = s.regs.localSeqNo ∧
      s'.regs.highestReplicatedSeqNo = s.regs.highestReplicatedSeqNo ∧
      s'.regs.ackArray = s.regs.ackArray ∧ s'.metadata = s.metadata := by
  unfold recordGsn at h
  by_cases hreg : reg = 0
  · simp only [hreg, ne_eq, not_true_eq_false, ↓reduceIte, Option.bind_eq_bind,
      Option.bind_eq_some_iff, Option.pure_def, Option.some.injEq, getCntrlPktIt] at h
    obtain ⟨⟨gsn, u⟩, he, rfl⟩ := h
    obtain ⟨hlt, rfl, -⟩ := RegArray.execute_eq_some.1 he
    exact ⟨hlt, rfl, by simp [hreg], by simp [hreg], rfl, rfl, rfl, rfl, rfl⟩
  · simp only [ne_eq, hreg, not_false_eq_true, ↓reduceIte, Option.bind_eq_bind,
      Option.bind_eq_some_iff, Option.pure_def, Option.some.injEq] at h
    obtain ⟨⟨gsn, u⟩, he, rfl⟩ := h
    obtain ⟨hlt, rfl, -⟩ := RegArray.execute_eq_some.1 he
    refine ⟨hlt, rfl, ?_, rfl, rfl, rfl, rfl, rfl, rfl⟩
    rw [if_neg hreg]
    exact updateCntrlPktIt_of_lt hlt

theorem recordGsn_pktId {reg : BitVec 32} {s s' : Pipe} (h : recordGsn reg s = some s') :
    s'.hdr.cntrl.pktId = s.hdr.cntrl.pktId := by
  unfold recordGsn at h
  split at h
  all_goals
    simp only [Option.bind_eq_bind, Option.bind_eq_some_iff, Option.pure_def,
      Option.some.injEq] at h
    obtain ⟨_, -, rfl⟩ := h
    rfl

theorem apply_control (hc : hdr.IsControl) (h : apply p t tstamp regs hdr = some out) :
    ControlPass regs hdr out := by
  unfold Headers.IsControl at hc
  simp only [apply, localSeqNoReg, start, hc, readLocalSeqNo, process, controlBranch, ↓reduceIte,
    Option.map_eq_some_iff] at h
  obtain ⟨_, ⟨s, hs, rfl⟩, rfl⟩ := h
  obtain ⟨hlt, hmap, hit, hgsn, hval, hlocal, hhigh, hack, hmeta⟩ := recordGsn_some hs
  have hr := routed_route t (measureTrip tstamp s)
  refine ⟨hlt, ?_, ?_, ?_, ?_, ?_, ?_, ?_, ?_, ?_, ?_⟩
  · rw [hr.regs]; exact hlocal
  · rw [hr.regs]; exact hit
  · rw [hr.regs]; exact hmap
  · rw [hr.regs]; exact hhigh
  · rw [hr.regs]; exact hack
  · rw [hr.cntrlValid]; exact hval.trans hc
  · rw [hr.globalSeqNo]; exact hgsn
  · rw [hr.circulate]; simp [measureTrip, measure, hmeta]
  · rw [hr.routeToShard]; simp [measureTrip, measure, hmeta]
  · rw [hr.routeToClient]; simp [measureTrip, measure, hmeta]

/-- A control packet leaves by the port of its entry in the table, with the id of the entry. -/
theorem apply_control_forward (hc : hdr.IsControl) {port : BitVec 9} {pktId : BitVec 16}
    (ht : t.cntrlIdToIp hdr.cntrl.pktId = .cntrlForward port pktId)
    (h : apply p t tstamp regs hdr = some out) :
    out.tm.ucastEgressPort = some port ∧ out.hdr.cntrl.pktId = pktId := by
  unfold Headers.IsControl at hc
  simp only [apply, localSeqNoReg, start, hc, readLocalSeqNo, process, controlBranch, ↓reduceIte,
    Option.map_eq_some_iff] at h
  obtain ⟨_, ⟨s, hs, rfl⟩, rfl⟩ := h
  obtain ⟨-, -, -, -, -, -, -, -, hmeta⟩ := recordGsn_some hs
  have hid : s.hdr.cntrl.pktId = hdr.cntrl.pktId := recordGsn_pktId hs
  have hclient : (measureTrip tstamp s).metadata.routeToClient = false := by
    simp [measureTrip, measure, hmeta]
  have hroute : route t (measureTrip tstamp s) = cntrlIdToIp t (measureTrip tstamp s) := by
    have hcntrl : (measureTrip tstamp s).metadata.isCntrl = true := rfl
    simp [route, routeClient, hclient, hcntrl]
  have hkey : t.cntrlIdToIp (measureTrip tstamp s).hdr.cntrl.pktId = .cntrlForward port pktId :=
    hid ▸ ht
  rw [hroute]
  unfold cntrlIdToIp
  simp only [hkey, and_self]

/-! ## Append requests -/

/-- An append without a number: it takes the next offset of the open batch, clears the slot of the
batch and circulates. -/
structure FreshPass (regs : Registers) (hdr : Headers) (out : Pipe) : Prop where
  inRange : regs.cntrlPktIt.toNat < maxGsnMapSize
  localSeqNo : out.regs.localSeqNo = regs.localSeqNo + 1
  cntrlPktIt : out.regs.cntrlPktIt = regs.cntrlPktIt
  mapFromGsn : out.regs.mapFromGsn = regs.mapFromGsn.set regs.cntrlPktIt.toNat 0
  highest : out.regs.highestReplicatedSeqNo = regs.highestReplicatedSeqNo
  ackArray : out.regs.ackArray = regs.ackArray
  notControl : out.hdr.cntrl.isValid = false
  ringType : out.hdr.ringType = hdr.ringType
  timer : out.hdr.timer = hdr.timer
  appendValid : out.hdr.append.isValid = true
  stored : out.hdr.append.cntrlPktIt = regs.cntrlPktIt
  gIdx : out.hdr.append.gIdx = regs.localSeqNo + 1
  circulate : out.metadata.circulate = true
  routeToShard : out.metadata.routeToShard = false
  routeToClient : out.metadata.routeToClient = false

/-- An append that already has a number: it adds what the slot of its batch holds. It circulates
on while its batch is open, and leaves for its shard when the batch is closed (one that the packet
generator made turns into a response instead). -/
structure CirculatingPass (regs : Registers) (hdr : Headers) (out : Pipe) : Prop where
  inRange : hdr.append.cntrlPktIt.toNat < maxGsnMapSize
  localSeqNo : out.regs.localSeqNo = regs.localSeqNo
  cntrlPktIt : out.regs.cntrlPktIt = regs.cntrlPktIt
  mapFromGsn : out.regs.mapFromGsn = regs.mapFromGsn
  highest : out.regs.highestReplicatedSeqNo = regs.highestReplicatedSeqNo
  ackArray : out.regs.ackArray = regs.ackArray
  notControl : out.hdr.cntrl.isValid = false
  timer : out.hdr.timer = hdr.timer
  appendValid : out.hdr.append.isValid = hdr.append.isValid
  stored : out.hdr.append.cntrlPktIt = hdr.append.cntrlPktIt
  gIdx : out.hdr.append.gIdx =
    hdr.append.gIdx + regs.mapFromGsn.get hdr.append.cntrlPktIt.toNat
  routeToClient : out.metadata.routeToClient = false
  openBatch : hdr.append.cntrlPktIt = regs.cntrlPktIt →
    out.metadata.circulate = true ∧ out.metadata.routeToShard = false ∧
      out.hdr.ringType.type = typeAppend
  closedBatch : hdr.append.cntrlPktIt ≠ regs.cntrlPktIt → hdr.timer.isValid = false →
    out.metadata.circulate = false ∧ out.metadata.routeToShard = true ∧
      out.hdr.ringType.type = typeAppend
  generated : hdr.append.cntrlPktIt ≠ regs.cntrlPktIt → hdr.timer.isValid = true →
    out.metadata.circulate = true ∧ out.metadata.routeToShard = false ∧
      out.hdr.ringType.type = typeAppendResp

theorem apply_fresh (ha : hdr.IsAppend) (hv : hdr.append.isValid = true)
    (h0 : hdr.append.gIdx = 0) (h : apply p t tstamp regs hdr = some out) :
    FreshPass regs hdr out := by
  obtain ⟨hc, ha⟩ := ha
  simp only [apply, localSeqNoReg, start, hc, hv, h0, ha, writeLocalSeqNo, process, appendBranch,
    numberAppend, getCntrlPktIt, BEq.rfl, Bool.and_self, Bool.false_eq_true, ↓reduceIte,
    Option.map_eq_some_iff, Option.bind_eq_bind, Option.bind_eq_some_iff, Option.pure_def,
    Option.some.injEq] at h
  obtain ⟨_, ⟨_, ⟨⟨gsn, u⟩, he, rfl⟩, rfl⟩, rfl⟩ := h
  obtain ⟨hlt, rfl, -⟩ := RegArray.execute_eq_some.1 he
  simp only [routeAppend, getCntrlPktIt, ↓reduceIte]
  have hr := routed_route t
  constructor
  · exact hlt
  · rw [(hr _).regs]
  · rw [(hr _).regs]
  · rw [(hr _).regs]; rfl
  · rw [(hr _).regs]
  · rw [(hr _).regs]
  · rw [(hr _).cntrlValid]; exact hc
  · rw [(hr _).ringType]
  · rw [(hr _).timer]
  · rw [(hr _).append]
  · rw [(hr _).append]
  · rw [(hr _).append]
  · rw [(hr _).circulate]
  · rw [(hr _).routeToShard]
  · rw [(hr _).routeToClient]

/-- The three ways an append leaves the branch. -/
theorem routeAppend_routes (tstamp : BitVec 48) (s : Pipe) :
    (routeAppend tstamp s).hdr.cntrl = s.hdr.cntrl ∧
      (routeAppend tstamp s).hdr.timer = s.hdr.timer ∧
      (routeAppend tstamp s).hdr.append = s.hdr.append ∧
      (routeAppend tstamp s).regs.localSeqNo = s.regs.localSeqNo ∧
      (routeAppend tstamp s).regs.cntrlPktIt = s.regs.cntrlPktIt ∧
      (routeAppend tstamp s).regs.mapFromGsn = s.regs.mapFromGsn ∧
      (routeAppend tstamp s).regs.highestReplicatedSeqNo = s.regs.highestReplicatedSeqNo ∧
      (routeAppend tstamp s).regs.ackArray = s.regs.ackArray ∧
      (routeAppend tstamp s).metadata.routeToClient = s.metadata.routeToClient := by
  unfold routeAppend
  split
  · exact ⟨rfl, rfl, rfl, rfl, rfl, rfl, rfl, rfl, rfl⟩
  split
  · exact ⟨rfl, rfl, rfl, rfl, rfl, rfl, rfl, rfl, rfl⟩
  · exact ⟨rfl, rfl, rfl, rfl, rfl, rfl, rfl, rfl, rfl⟩

theorem apply_circulating (ha : hdr.IsAppend) (h0 : hdr.append.gIdx ≠ 0)
    (h : apply p t tstamp regs hdr = some out) : CirculatingPass regs hdr out := by
  obtain ⟨hc, ha⟩ := ha
  have hb : (hdr.append.gIdx == 0) = false := by simpa using h0
  simp only [apply, localSeqNoReg, start, hc, hb, h0, ha, process, appendBranch, numberAppend,
    Bool.and_false, BEq.rfl, Bool.and_self, Bool.false_eq_true, ↓reduceIte,
    Option.map_eq_some_iff, Option.bind_eq_bind, Option.bind_eq_some_iff, Option.pure_def,
    Option.some.injEq] at h
  obtain ⟨_, ⟨_, ⟨⟨gsn, u⟩, he, rfl⟩, rfl⟩, rfl⟩ := h
  obtain ⟨hlt, rfl, rfl⟩ := RegArray.execute_eq_some.1 he
  generalize hs : ({ regs := _, hdr := _, metadata := _ } : Pipe) = s
  obtain ⟨hcn, htm, happ, hloc, hit, hmap, hhigh, hack, hcl⟩ := routeAppend_routes tstamp s
  have hr := routed_route t (routeAppend tstamp s)
  constructor
  · exact hlt
  · rw [hr.regs, hloc, ← hs]
  · rw [hr.regs, hit, ← hs]
  · rw [hr.regs, hmap, ← hs]; exact RegArray.set_get
  · rw [hr.regs, hhigh, ← hs]
  · rw [hr.regs, hack, ← hs]
  · rw [hr.cntrlValid, hcn, ← hs]; exact hc
  · rw [hr.timer, htm, ← hs]
  · rw [hr.append, happ, ← hs]
  · rw [hr.append, happ, ← hs]
  · rw [hr.append, happ, ← hs]; rfl
  · rw [hr.routeToClient, hcl, ← hs]
  · intro hopen
    rw [hr.circulate, hr.routeToShard, hr.ringType, ← hs]
    simp [routeAppend, getCntrlPktIt, hopen, ha]
  · intro hclosed htimer
    rw [hr.circulate, hr.routeToShard, hr.ringType, ← hs]
    simp [routeAppend, getCntrlPktIt, hclosed, htimer, ha]
  · intro hclosed htimer
    rw [hr.circulate, hr.routeToShard, hr.ringType, ← hs]
    simp [routeAppend, getCntrlPktIt, hclosed, htimer, measure]

/-! ## Append responses -/

/-- The readiness test of a response: its number is at most what the current slot holds. -/
def Ready (regs : Registers) (hdr : Headers) : Prop :=
  hdr.append.gIdx ≤ regs.mapFromGsn.get regs.cntrlPktIt.toNat

instance (regs : Registers) (hdr : Headers) : Decidable (Ready regs hdr) :=
  inferInstanceAs (Decidable (_ ≤ _))

/-- A response that is ready is released to the client, and recorded unless the packet generator
made it; one that is not ready circulates. A response without a number takes one from the batch
counter, as every append header without a number does. -/
structure ResponsePass (regs : Registers) (hdr : Headers) (out : Pipe) : Prop where
  inRange : regs.cntrlPktIt.toNat < maxGsnMapSize
  localSeqNo : out.regs.localSeqNo =
    if hdr.append.gIdx = 0 then regs.localSeqNo + 1 else regs.localSeqNo
  cntrlPktIt : out.regs.cntrlPktIt = regs.cntrlPktIt
  mapFromGsn : out.regs.mapFromGsn = regs.mapFromGsn
  notControl : out.hdr.cntrl.isValid = false
  ringType : out.hdr.ringType = hdr.ringType
  timer : out.hdr.timer = hdr.timer
  append : out.hdr.append = hdr.append
  routeToShard : out.metadata.routeToShard = false
  held : ¬ Ready regs hdr → out.metadata.circulate = true ∧ out.metadata.routeToClient = false ∧
    out.metadata.sendAcks = false ∧
    out.regs.highestReplicatedSeqNo = regs.highestReplicatedSeqNo ∧
    out.regs.ackArray = regs.ackArray
  released : Ready regs hdr → out.metadata.circulate = false ∧ out.metadata.routeToClient = true ∧
    out.metadata.sendAcks = !hdr.timer.isValid ∧
    out.regs.highestReplicatedSeqNo = (if hdr.timer.isValid then regs.highestReplicatedSeqNo
      else writeReplicatedSeqNo hdr regs.highestReplicatedSeqNo) ∧
    out.regs.ackArray = regs.ackArray.set (getAckIdx hdr).toNat
      (regs.ackArray.get (getAckIdx hdr).toNat + 1)

theorem getAckIdx_lt (hdr : Headers) : (getAckIdx hdr).toNat < maxInflightAcks := by
  unfold getAckIdx maxInflightAcks
  rw [BitVec.toNat_and]
  exact Nat.lt_of_le_of_lt Nat.and_le_right (by decide)

/-- The acknowledgement slot is always in range and the check always says yes. -/
theorem responseBranch_ready {s : Pipe} (h : readyForAck s = some 1) :
    responseBranch tstamp s = some (release tstamp { s with regs := { s.regs with
      ackArray := s.regs.ackArray.set (getAckIdx s.hdr).toNat
        (s.regs.ackArray.get (getAckIdx s.hdr).toNat + 1) } }) := by
  simp only [responseBranch, h, Option.bind_eq_bind, Option.bind_some, ↓reduceIte, checkAck,
    RegArray.execute_of_lt _ (getAckIdx_lt s.hdr), Option.pure_def]

/-- The batch counter of a packet that is not a control packet. -/
theorem localSeqNoReg_data {s : Pipe} (hc : s.hdr.cntrl.isValid = false) :
    (localSeqNoReg s).2 = { s with regs := { s.regs with localSeqNo :=
      if s.hdr.append.isValid && s.hdr.append.gIdx == 0 then s.regs.localSeqNo + 1
      else s.regs.localSeqNo } } := by
  simp only [localSeqNoReg, hc, Bool.false_eq_true, ↓reduceIte, writeLocalSeqNo]
  split <;> rfl

/-- Whatever the batch counter does, a data packet goes through its branch with the headers and the
metadata that it came with. -/
theorem apply_data (hc : hdr.cntrl.isValid = false) (p : Program) (t : Tables)
    (tstamp : BitVec 48) (regs : Registers) : ∃ reg localSeqNo, apply p t tstamp regs hdr =
      (process p t tstamp reg (start
        { regs := { regs with localSeqNo := localSeqNo }, hdr := hdr })).map (route t) := by
  have hdata := localSeqNoReg_data (s := start { regs := regs, hdr := hdr }) hc
  unfold apply
  generalize localSeqNoReg (start { regs := regs, hdr := hdr }) = ls at hdata
  obtain ⟨reg, s⟩ := ls
  simp only at hdata
  rw [hdata]
  exact ⟨reg, _, rfl⟩

/-- The routing logic behind the branch keeps the pass of a response. -/
theorem ResponsePass.routed {s s' : Pipe} (h : ResponsePass regs hdr s) (hr : Routed s s') :
    ResponsePass regs hdr s' where
  inRange := h.inRange
  localSeqNo := by rw [hr.regs]; exact h.localSeqNo
  cntrlPktIt := by rw [hr.regs]; exact h.cntrlPktIt
  mapFromGsn := by rw [hr.regs]; exact h.mapFromGsn
  notControl := by rw [hr.cntrlValid]; exact h.notControl
  ringType := by rw [hr.ringType]; exact h.ringType
  timer := by rw [hr.timer]; exact h.timer
  append := by rw [hr.append]; exact h.append
  routeToShard := by rw [hr.routeToShard]; exact h.routeToShard
  held := by
    rw [hr.circulate, hr.routeToClient, hr.sendAcks, hr.regs]
    exact h.held
  released := by
    rw [hr.circulate, hr.routeToClient, hr.sendAcks, hr.regs]
    exact h.released

theorem apply_response (ha : hdr.IsAppendResp) (hv : hdr.append.isValid = true)
    (h : apply p t tstamp regs hdr = some out) : ResponsePass regs hdr out := by
  obtain ⟨hc, ha⟩ := ha
  unfold apply at h
  have hdata := localSeqNoReg_data (s := start { regs := regs, hdr := hdr }) hc
  generalize localSeqNoReg (start { regs := regs, hdr := hdr }) = ls at h hdata
  obtain ⟨reg, s⟩ := ls
  simp only [start, hv, Bool.true_and, beq_iff_eq] at hdata
  simp only [process, hdata, hc, ha, hv, Bool.false_eq_true, ↓reduceIte, Option.map_eq_some_iff,
    beq_iff_eq, typeResp_ne_append, Bool.and_true, BEq.rfl, Bool.true_or] at h
  obtain ⟨s', hs', rfl⟩ := h
  refine ResponsePass.routed ?_ (routed_route t s')
  generalize hs₀ : ({ regs := _, hdr := _, metadata := _ } : Pipe) = s₀ at hs'
  have hlt : regs.cntrlPktIt.toNat < maxGsnMapSize := by
    by_contra hge
    have hnone : readyForAck s₀ = none := by
      subst hs₀
      simp only [readyForAck, ha, ↓reduceIte, getCntrlPktIt, Option.map_eq_none_iff]
      exact RegArray.execute_eq_none.2 (Nat.le_of_not_lt hge)
    simp [responseBranch, hnone] at hs'
  have hready : readyForAck s₀ = some (if Ready regs hdr then 1 else 0) := by
    subst hs₀
    simp only [readyForAck, ha, ↓reduceIte, getCntrlPktIt, RegArray.execute_of_lt _ hlt,
      compareGsn, Option.map_some, Ready, gt_iff_lt, ← BitVec.not_lt, ite_not]
  by_cases hr : Ready regs hdr
  · rw [if_pos hr] at hready
    rw [responseBranch_ready hready, Option.some.injEq] at hs'
    subst hs'
    subst hs₀
    simp only [release, hv, Bool.true_and]
    cases htimer : hdr.timer.isValid with
    | true =>
      exact ⟨hlt, rfl, rfl, rfl, hc, rfl, rfl, rfl, rfl, fun hn => absurd hr hn,
        fun _ => ⟨rfl, rfl, by simp [measure, htimer], by simp [htimer], rfl⟩⟩
    | false =>
      exact ⟨hlt, rfl, rfl, rfl, hc, rfl, rfl, rfl, rfl, fun hn => absurd hr hn,
        fun _ => ⟨rfl, rfl, by simp [htimer], by simp [htimer], rfl⟩⟩
  · rw [if_neg hr] at hready
    have hheld : s' = { s₀ with metadata := { s₀.metadata with circulate := true } } := by
      simpa [responseBranch, hready, eq_comm] using hs'
    subst hheld
    subst hs₀
    exact ⟨hlt, rfl, rfl, rfl, hc, rfl, rfl, rfl, rfl, fun _ => ⟨rfl, rfl, rfl, rfl, rfl⟩,
      fun hn => absurd hn hr⟩

/-- The response goes to the client on this pass, and not back into circulation. -/
def Released (out : Pipe) : Prop :=
  out.metadata.routeToClient = true ∧ out.metadata.circulate = false

instance (out : Pipe) : Decidable (Released out) := inferInstanceAs (Decidable (_ ∧ _))

theorem ResponsePass.released_iff (h : ResponsePass regs hdr out) :
    Released out ↔ Ready regs hdr := by
  by_cases hr : Ready regs hdr
  · exact iff_of_true ⟨(h.released hr).2.1, (h.released hr).1⟩ hr
  · refine iff_of_false ?_ hr
    intro hrel
    rw [Released, (h.held hr).1] at hrel
    cases hrel.2

/-! ## Packets without an append header -/

/-- A data packet that is no append and carries no append header: a read, a tail request, a
subscription, a view change or an unknown type. It leaves the sequencing state alone; a read
request goes through the acknowledgement counters, as a response does. -/
structure IdlePass (regs : Registers) (hdr : Headers) (out : Pipe) : Prop where
  localSeqNo : out.regs.localSeqNo = regs.localSeqNo
  cntrlPktIt : out.regs.cntrlPktIt = regs.cntrlPktIt
  mapFromGsn : out.regs.mapFromGsn = regs.mapFromGsn
  highest : out.regs.highestReplicatedSeqNo = regs.highestReplicatedSeqNo
  ackArray : out.regs.ackArray = if hdr.ringType.type = typeRead then
    regs.ackArray.set (getAckIdx hdr).toNat (regs.ackArray.get (getAckIdx hdr).toNat + 1)
    else regs.ackArray
  notControl : out.hdr.cntrl.isValid = false
  type : out.hdr.ringType.type = hdr.ringType.type
  append : out.hdr.append = hdr.append
  circulate : out.metadata.circulate = false

theorem IdlePass.routed {s s' : Pipe} (h : IdlePass regs hdr s) (hr : Routed s s') :
    IdlePass regs hdr s' where
  localSeqNo := by rw [hr.regs]; exact h.localSeqNo
  cntrlPktIt := by rw [hr.regs]; exact h.cntrlPktIt
  mapFromGsn := by rw [hr.regs]; exact h.mapFromGsn
  highest := by rw [hr.regs]; exact h.highest
  ackArray := by rw [hr.regs]; exact h.ackArray
  notControl := by rw [hr.cntrlValid]; exact h.notControl
  type := by rw [hr.ringType]; exact h.type
  append := by rw [hr.append]; exact h.append
  circulate := by rw [hr.circulate]; exact h.circulate

/-- A branch that keeps the registers and these headers makes an idle pass, unless the packet is a
read request. -/
theorem idlePass_of_frame {s s' : Pipe} (hc : s.hdr.cntrl.isValid = false)
    (hcirc : s.metadata.circulate = false) (hread : s.hdr.ringType.type ≠ typeRead)
    (hregs : s'.regs = s.regs) (hcntrl : s'.hdr.cntrl = s.hdr.cntrl)
    (hring : s'.hdr.ringType = s.hdr.ringType) (happ : s'.hdr.append = s.hdr.append)
    (hcirc' : s'.metadata.circulate = s.metadata.circulate) : IdlePass s.regs s.hdr s' where
  localSeqNo := by rw [hregs]
  cntrlPktIt := by rw [hregs]
  mapFromGsn := by rw [hregs]
  highest := by rw [hregs]
  ackArray := by rw [hregs, if_neg hread]
  notControl := by rw [hcntrl, hc]
  type := by rw [hring]
  append := happ
  circulate := by rw [hcirc', hcirc]

theorem viewBranch_some {s s' : Pipe} (h : viewBranch p t s = some s') :
    (latestCompleteCntrlPktIt s.regs.cntrlPktIt).toNat < maxGsnMapSize ∧
      s'.regs = s.regs ∧ s'.hdr.cntrl = s.hdr.cntrl ∧ s'.hdr.ringType = s.hdr.ringType ∧
      s'.hdr.append = s.hdr.append ∧ s'.metadata.circulate = s.metadata.circulate ∧
      s'.hdr.startView.highestSeenSeqNo =
        s.regs.mapFromGsn.get (latestCompleteCntrlPktIt s.regs.cntrlPktIt).toNat := by
  simp only [viewBranch, Option.bind_eq_bind, Option.bind_eq_some_iff, Option.pure_def,
    Option.some.injEq] at h
  obtain ⟨⟨gsn, hi⟩, he, rfl⟩ := h
  obtain ⟨hlt, rfl, rfl⟩ := RegArray.execute_eq_some.1 he
  exact ⟨hlt, by simp [getGsn], rfl, rfl, rfl, rfl, rfl⟩

/-- A tail request leaves with its headers; only its number, its hops and its way are new. -/
theorem tailBranch_frame (t : Tables) (s : Pipe) :
    (tailBranch t s).regs = s.regs ∧ (tailBranch t s).hdr.cntrl = s.hdr.cntrl ∧
      (tailBranch t s).hdr.ringType = s.hdr.ringType ∧
      (tailBranch t s).hdr.append = s.hdr.append ∧
      (tailBranch t s).metadata.circulate = s.metadata.circulate ∧
      (tailBranch t s).hdr.sub = s.hdr.sub ∧
      (tailBranch t s).hdr.tail.isValid = s.hdr.tail.isValid ∧
      (tailBranch t s).metadata.routeToShard = s.metadata.routeToShard := by
  unfold tailBranch
  simp only
  split <;> exact ⟨rfl, rfl, rfl, rfl, rfl, rfl, rfl, rfl⟩

/-- Without an append header the batch counter is not touched. -/
theorem localSeqNoReg_idle {s : Pipe} (hc : s.hdr.cntrl.isValid = false)
    (hv : s.hdr.append.isValid = false) : localSeqNoReg s = (0, s) := by
  simp [localSeqNoReg, hc, hv]

theorem apply_idle (hc : hdr.cntrl.isValid = false) (ha : hdr.ringType.type ≠ typeAppend)
    (hv : hdr.append.isValid = false) (h : apply p t tstamp regs hdr = some out) :
    IdlePass regs hdr out := by
  have hb : (hdr.ringType.type == typeAppend) = false := by simpa using ha
  rw [apply, localSeqNoReg_idle (by exact hc) (by exact hv)] at h
  generalize hs₀ : start { regs := regs, hdr := hdr } = s₀ at h
  have hregs : s₀.regs = regs := by rw [← hs₀]; rfl
  have hhdr : s₀.hdr = hdr := by rw [← hs₀]; rfl
  have hcirc : s₀.metadata.circulate = false := by rw [← hs₀]; rfl
  simp only [process, hhdr, hc, hb, hv, Bool.false_and, Bool.false_eq_true, ↓reduceIte,
    Bool.and_false, Bool.false_or, Option.map_eq_some_iff] at h
  obtain ⟨s', hs', rfl⟩ := h
  refine IdlePass.routed ?_ (routed_route t s')
  rw [← hregs, ← hhdr]
  rw [← hhdr] at hv hc
  by_cases hread : (hdr.ringType.type == typeRead && s₀.metadata.readProcess) = true
  · -- a read request is always ready
    rw [if_pos hread] at hs'
    have htype : hdr.ringType.type = typeRead := by
      simp only [Bool.and_eq_true, beq_iff_eq] at hread
      exact hread.1
    have hready : readyForAck s₀ = some 1 := by simp [readyForAck, hhdr, htype]
    rw [responseBranch_ready hready, Option.some.injEq] at hs'
    subst hs'
    rw [← hhdr] at htype
    simp only [release, hv, Bool.false_and, Bool.false_eq_true, ↓reduceIte]
    split
    · exact ⟨rfl, rfl, rfl, rfl, (if_pos htype).symm, hc, rfl, rfl, hcirc⟩
    split
    · exact ⟨rfl, rfl, rfl, rfl, (if_pos htype).symm, hc, rfl, rfl, hcirc⟩
    · exact ⟨rfl, rfl, rfl, rfl, (if_pos htype).symm, hc, rfl, rfl, hcirc⟩
  rw [if_neg hread] at hs'
  have htype : s₀.hdr.ringType.type ≠ typeRead := by
    intro htype
    refine hread ?_
    have hproc : s₀.metadata.readProcess = true := by rw [← hs₀]; rfl
    rw [hhdr] at htype
    simp [htype, hproc]
  split at hs'
  · simp only [Option.some.injEq] at hs'
    subst hs'
    exact idlePass_of_frame hc hcirc htype rfl (by rw [hhdr]) (by rw [hhdr]) (by rw [hhdr]) rfl
  split at hs'
  · simp only [Option.some.injEq] at hs'
    subst hs'
    obtain ⟨hregs', hcntrl, hring, happ, hcirc', -⟩ := tailBranch_frame t s₀
    exact idlePass_of_frame hc hcirc htype hregs' hcntrl hring happ hcirc'
  split at hs'
  · obtain ⟨-, hregs', hcntrl, hring, happ, hcirc', -⟩ := viewBranch_some hs'
    exact idlePass_of_frame hc hcirc htype hregs' hcntrl hring happ hcirc'
  · simp only [Option.some.injEq] at hs'
    subst hs'
    exact idlePass_of_frame hc hcirc htype rfl rfl rfl rfl rfl

/-! ## The cases -/

/-- What a pass can be. -/
inductive PassKind (regs : Registers) (hdr : Headers) (out : Pipe) : Prop
  | control (kind : hdr.IsControl) (pass : ControlPass regs hdr out)
  | fresh (kind : hdr.IsAppend) (draws : hdr.Draws) (pass : FreshPass regs hdr out)
  | circulating (kind : hdr.IsAppend) (numbered : hdr.append.gIdx ≠ 0)
      (pass : CirculatingPass regs hdr out)
  | response (kind : hdr.IsAppendResp) (valid : hdr.append.isValid = true)
      (pass : ResponsePass regs hdr out)
  | idle (notControl : hdr.cntrl.isValid = false) (invalid : hdr.append.isValid = false)
      (notAppend : hdr.ringType.type ≠ typeAppend) (notResp : hdr.ringType.type ≠ typeAppendResp)
      (pass : IdlePass regs hdr out)

/-- **Everything a pass of a well-formed packet can do.** -/
theorem passKind (hw : hdr.WellFormed) (h : apply p t tstamp regs hdr = some out) :
    PassKind regs hdr out := by
  by_cases hc : hdr.cntrl.isValid = true
  · exact .control hc (apply_control hc h)
  simp only [Bool.not_eq_true] at hc
  by_cases ha : hdr.ringType.type = typeAppend
  · have hv : hdr.append.isValid = true := (hw hc).2 (.inl ha)
    by_cases h0 : hdr.append.gIdx = 0
    · exact .fresh ⟨hc, ha⟩ ⟨hc, hv, h0⟩ (apply_fresh ⟨hc, ha⟩ hv h0 h)
    · exact .circulating ⟨hc, ha⟩ h0 (apply_circulating ⟨hc, ha⟩ h0 h)
  by_cases hr : hdr.ringType.type = typeAppendResp
  · have hv : hdr.append.isValid = true := (hw hc).2 (.inr hr)
    exact .response ⟨hc, hr⟩ hv (apply_response ⟨hc, hr⟩ hv h)
  · have hv : hdr.append.isValid = false := by
      cases hv : hdr.append.isValid
      · rfl
      · exact absurd ((hw hc).1 hv) (by simp [ha, hr])
    exact .idle hc hv ha hr (apply_idle hc ha hv h)

/-- What a pass writes into a slot: nothing, zero, or the number of a control packet. -/
theorem PassKind.mapFromGsn (hk : PassKind regs hdr out) (k : Nat) :
    out.regs.mapFromGsn.get k = regs.mapFromGsn.get k ∨ out.regs.mapFromGsn.get k = 0 ∨
      hdr.IsControl ∧ out.regs.mapFromGsn.get k = hdr.cntrl.globalSeqNo := by
  cases hk with
  | control kind pass =>
    rw [pass.mapFromGsn, RegArray.get_set pass.inRange]
    split
    · exact .inr (.inr ⟨kind, rfl⟩)
    · exact .inl rfl
  | fresh kind draws pass =>
    rw [pass.mapFromGsn, RegArray.get_set pass.inRange]
    split
    · exact .inr (.inl rfl)
    · exact .inl rfl
  | circulating kind numbered pass => exact .inl (by rw [pass.mapFromGsn])
  | response kind valid pass => exact .inl (by rw [pass.mapFromGsn])
  | idle _ _ _ _ pass => exact .inl (by rw [pass.mapFromGsn])

/-- What a pass writes into `highest_replicated_seq_no`: nothing, or the number of a response that
is ready and beyond what the switch has recorded. -/
theorem PassKind.highest (hk : PassKind regs hdr out) :
    out.regs.highestReplicatedSeqNo = regs.highestReplicatedSeqNo ∨
      hdr.IsAppendResp ∧ Ready regs hdr ∧ regs.highestReplicatedSeqNo < hdr.append.gIdx ∧
        out.regs.highestReplicatedSeqNo = hdr.append.gIdx := by
  cases hk with
  | control kind pass => exact .inl pass.highest
  | fresh kind draws pass => exact .inl pass.highest
  | circulating kind numbered pass => exact .inl pass.highest
  | response kind valid pass =>
    by_cases hr : Ready regs hdr
    · have hhigh := (pass.released hr).2.2.2.1
      split at hhigh
      · exact .inl hhigh
      unfold writeReplicatedSeqNo at hhigh
      split at hhigh
      · exact .inr ⟨kind, hr, ‹_›, hhigh⟩
      · exact .inl hhigh
    · exact .inl (pass.held hr).2.2.2.1
  | idle _ _ _ _ pass => exact .inl pass.highest

theorem PassKind.highest_le (hk : PassKind regs hdr out) :
    regs.highestReplicatedSeqNo ≤ out.regs.highestReplicatedSeqNo := by
  rcases hk.highest with heq | ⟨-, -, hlt, heq⟩
  · exact heq ▸ BitVec.le_refl _
  · exact heq ▸ BitVec.le_of_lt hlt

/-- A released response is recorded unless it carries a timer header. -/
theorem ResponsePass.recorded (h : ResponsePass regs hdr out) (hrel : Released out)
    (htimer : hdr.timer.isValid = false) :
    hdr.append.gIdx ≤ out.regs.highestReplicatedSeqNo := by
  rw [(h.released (h.released_iff.1 hrel)).2.2.2.1, htimer, if_neg (by decide),
    writeReplicatedSeqNo]
  split
  · exact BitVec.le_refl _
  · exact BitVec.not_lt.1 ‹_›

/-- Control packets and tail requests never go to the loopback port. -/
theorem PassKind.not_circulate (hk : PassKind regs hdr out) (h : hdr.IsControl ∨ hdr.IsTail) :
    out.metadata.circulate = false := by
  have hnot : ¬ hdr.IsAppend ∧ ¬ hdr.IsAppendResp := by
    rcases h with hc | ht
    · exact ⟨hc.not_append, fun hr => hc.not_data hr.1⟩
    · exact ⟨ht.not_append, ht.not_resp⟩
  cases hk with
  | control _ pass => exact pass.circulate
  | fresh kind => exact absurd kind hnot.1
  | circulating kind => exact absurd kind hnot.1
  | response kind => exact absurd kind hnot.2
  | idle _ _ _ _ pass => exact pass.circulate

/-! ## Tail requests -/

/-- The headers of a tail request. -/
structure TailHeaders (hdr : Headers) : Prop where
  notControl : hdr.cntrl.isValid = false
  type : hdr.ringType.type = typeTail
  tailValid : hdr.tail.isValid = true
  appendInvalid : hdr.append.isValid = false
  subInvalid : hdr.sub.isValid = false

/-- A tail request takes the larger number, and `process_tail` decides on its hops whether it goes
on around the ring or back to the client. -/
structure TailPass (t : Tables) (regs : Registers) (hdr : Headers) (out : Pipe) : Prop where
  unchanged : out.regs = regs
  headers : TailHeaders out.hdr
  tailSeqNo : out.hdr.tail.tailSeqNo.toNat =
    max hdr.tail.tailSeqNo.toNat regs.highestReplicatedSeqNo.toNat
  circulate : out.metadata.circulate = false
  routeToShard : out.metadata.routeToShard = false
  forwarded : ∀ port, t.processTail hdr.tail.hops = .forwardTail port →
    out.metadata.routeToClient = false ∧ out.tm.ucastEgressPort = some port ∧
      out.hdr.tail.hops = hdr.tail.hops + 1
  returned : t.processTail hdr.tail.hops = .returnTail →
    out.metadata.routeToClient = true ∧ out.hdr.tail.hops = hdr.tail.hops

/-- With no decision and no subscription the routing logic does nothing. -/
theorem route_of_none {s : Pipe} (h1 : s.metadata.routeToClient = false)
    (h2 : s.metadata.isCntrl = false) (h3 : s.metadata.circulate = false)
    (h4 : s.metadata.routeToShard = false) (h5 : s.hdr.sub.isValid = false)
    (h6 : s.metadata.sendAcks = false) : route t s = s := by
  simp [route, routeClient, h1, h2, h3, h4, h5, h6]

/-- `get_tail` and the test behind it compute a maximum. -/
theorem tailSeqNo_max (hdr : Headers) (cur : BitVec 32) :
    (if getTail hdr cur = 0 then hdr.tail.tailSeqNo else getTail hdr cur).toNat =
      max hdr.tail.tailSeqNo.toNat cur.toNat := by
  unfold getTail
  by_cases hlt : hdr.tail.tailSeqNo < cur
  · have hlt' := BitVec.lt_def.1 hlt
    have hne : cur ≠ 0 := by
      rintro rfl
      simp at hlt'
    simp only [hlt, ↓reduceIte, hne]
    omega
  · have hle : cur.toNat ≤ hdr.tail.tailSeqNo.toNat := by
      rw [BitVec.lt_def] at hlt; omega
    simp only [hlt, ↓reduceIte]
    omega

/-- A tail request reads no register array, so its pass always has a result. -/
theorem apply_tail_eq (hh : TailHeaders hdr) (p : Program) (t : Tables) (tstamp : BitVec 48)
    (regs : Registers) :
    apply p t tstamp regs hdr =
      some (route t (tailBranch t (start { regs := regs, hdr := hdr }))) := by
  obtain ⟨hc, hty, hv, ha, -⟩ := hh
  have hb : ∀ x, typeTail ≠ x → (hdr.ringType.type == x) = false := by
    intro x hx
    rw [hty]
    exact beq_eq_false_iff_ne.2 hx
  rw [apply, localSeqNoReg_idle (by exact hc) (by exact ha)]
  simp only [process, start, hc, hb _ typeTail_ne_append, hb _ typeTail_ne_resp,
    hb _ typeTail_ne_read, hb _ typeTail_ne_readResp, hv, Bool.false_eq_true, ↓reduceIte,
    Bool.false_and, Bool.or_self, Option.map_some]

theorem tailBranch_tailSeqNo (t : Tables) (s : Pipe) :
    (tailBranch t s).hdr.tail.tailSeqNo.toNat =
      max s.hdr.tail.tailSeqNo.toNat s.regs.highestReplicatedSeqNo.toNat := by
  rw [← tailSeqNo_max]
  unfold tailBranch
  simp only
  split <;> rfl

theorem apply_tail (hh : TailHeaders hdr) (h : apply p t tstamp regs hdr = some out) :
    TailPass t regs hdr out := by
  rw [apply_tail_eq hh, Option.some.injEq] at h
  subst h
  obtain ⟨hc, hty, hv, ha, hsub⟩ := hh
  generalize hs : start { regs := regs, hdr := hdr } = s
  obtain ⟨hregs, hcntrl, hring, happ, hcirc, hsub', hvalid, hshard⟩ := tailBranch_frame t s
  have hnum := tailBranch_tailSeqNo t s
  have hr := routed_route t (tailBranch t s)
  subst hs
  constructor
  · rw [hr.regs, hregs]
    rfl
  · constructor
    · rw [hr.cntrlValid, hcntrl]
      exact hc
    · rw [hr.ringType, hring]
      exact hty
    · rw [hr.tail, hvalid]
      exact hv
    · rw [hr.append, happ]
      exact ha
    · rw [hr.subValid, hsub']
      exact hsub
  · rw [hr.tail, hnum]
    rfl
  · rw [hr.circulate, hcirc]
    rfl
  · rw [hr.routeToShard, hshard]
    rfl
  · intro port hact
    simp only [tailBranch, start, hact]
    rw [route_of_none rfl rfl rfl rfl hsub rfl]
    exact ⟨rfl, rfl, rfl⟩
  · intro hact
    rw [hr.routeToClient, hr.tail]
    simp [tailBranch, start, hact]

/-! ## View changes -/

/-- The request is one that the program answers: `failure.p4` leaves alone the ones that carry the
identity `meta` starts out with. -/
def Answered (p : Program) (hdr : Headers) : Prop :=
  hdr.IsView ∧ hdr.startView.isValid = true ∧ hdr.append.isValid = false ∧
    hdr.tail.isValid = false ∧ (p = .failure → hdr.startView.switchId ≠ 0)

instance (p : Program) (hdr : Headers) : Decidable (Answered p hdr) :=
  inferInstanceAs (Decidable (_ ∧ _ ∧ _ ∧ _ ∧ (_ → _)))

theorem apply_view_eq (hh : Answered p hdr) (t : Tables) (tstamp : BitVec 48) (regs : Registers) :
    apply p t tstamp regs hdr =
      (viewBranch p t (start { regs := regs, hdr := hdr })).map (route t) := by
  obtain ⟨⟨hc, hty⟩, hv, ha, htl, hid⟩ := hh
  have hb : ∀ x, typeView ≠ x → (hdr.ringType.type == x) = false := by
    intro x hx
    rw [hty]
    exact beq_eq_false_iff_ne.2 hx
  have hans : answersView p (start { regs := regs, hdr := hdr }) = true := by
    cases p with
    | sequencingOnly => simpa [answersView, start] using hv
    | failure => simpa [answersView, start, hv] using hid rfl
  rw [apply, localSeqNoReg_idle (by exact hc) (by exact ha)]
  simp only [process]
  rw [hans]
  simp only [start, hc, hb _ typeView_ne_append, hb _ typeView_ne_resp, hb _ typeView_ne_read,
    hb _ typeView_ne_readResp, htl, Bool.false_eq_true, ↓reduceIte, Bool.false_and, Bool.or_self]

/-- The answer reports what the slot before the current one holds. -/
theorem apply_view (hh : Answered p hdr) (h : apply p t tstamp regs hdr = some out) :
    (regs.cntrlPktIt - 1).toNat < maxGsnMapSize ∧ out.hdr.startView.highestSeenSeqNo =
      regs.mapFromGsn.get (regs.cntrlPktIt - 1).toNat := by
  rw [apply_view_eq hh, Option.map_eq_some_iff] at h
  obtain ⟨s, hs, rfl⟩ := h
  obtain ⟨hlt, -, -, -, -, -, hhi⟩ := viewBranch_some hs
  exact ⟨hlt, by rw [(routed_route t s).startView, hhi]; rfl⟩

/-! ## Which slot a pass addresses -/

/-- How a packet addresses `map_from_gsn`: the slot of the open batch, the slot that an append
carries, or the slot before the open batch. -/
inductive GsnSlot where
  | current
  | stored
  | previous
deriving DecidableEq

def GsnSlot.index (regs : Registers) (hdr : Headers) : GsnSlot → Nat
  | current => regs.cntrlPktIt.toNat
  | stored => hdr.append.cntrlPktIt.toNat
  | previous => (latestCompleteCntrlPktIt regs.cntrlPktIt).toNat

/-- The slot that a pass of the packet accesses, if it accesses one. -/
def gsnSlot (p : Program) (hdr : Headers) : Option GsnSlot :=
  if hdr.cntrl.isValid then some .current
  else if hdr.ringType.type = typeAppend then
    if hdr.append.gIdx = 0 then some .current else some .stored
  else if hdr.ringType.type = typeAppendResp ∧ hdr.append.isValid then some .current
  else if hdr.ringType.type = typeRead ∨ hdr.ringType.type = typeReadResp ∨ hdr.tail.isValid then
    none
  else if answersView p { regs := {}, hdr := hdr } then some .previous
  else none

/-- Only an append that already has a number uses the slot that it carries. -/
theorem gsnSlot_stored (h : gsnSlot p hdr = some .stored) :
    hdr.IsAppend ∧ hdr.append.gIdx ≠ 0 := by
  unfold gsnSlot at h
  by_cases hc : hdr.cntrl.isValid = true
  · simp [hc] at h
  by_cases ha : hdr.ringType.type = typeAppend
  · by_cases h0 : hdr.append.gIdx = 0
    · simp [hc, ha, h0] at h
    · exact ⟨⟨by simpa using hc, ha⟩, h0⟩
  · rw [if_neg hc, if_neg ha] at h
    split at h
    · cases h
    split at h
    · cases h
    split at h <;> cases h

theorem recordGsn_eq_none {reg : BitVec 32} {s : Pipe} :
    recordGsn reg s = none ↔ maxGsnMapSize ≤ s.regs.cntrlPktIt.toNat := by
  unfold recordGsn
  split <;> exact RegArray.execute_bind_eq_none (by simp)

theorem numberAppend_eq_none {reg : BitVec 32} {s : Pipe} :
    numberAppend tstamp reg s = none ↔ maxGsnMapSize ≤
      (if s.hdr.append.gIdx = 0 then s.regs.cntrlPktIt else s.hdr.append.cntrlPktIt).toNat := by
  unfold numberAppend
  simp only
  split <;> exact RegArray.execute_bind_eq_none (by simp)

theorem responseBranch_eq_none {s : Pipe} : responseBranch tstamp s = none ↔
    s.hdr.ringType.type = typeAppendResp ∧ maxGsnMapSize ≤ s.regs.cntrlPktIt.toNat := by
  have hack : ∀ ready : BitVec 32, readyForAck s = some ready → responseBranch tstamp s ≠ none := by
    intro ready hready
    by_cases h1 : ready = 1
    · rw [responseBranch_ready (h1 ▸ hready)]; simp
    · simp only [responseBranch, hready, Option.bind_eq_bind, Option.bind_some, if_neg h1]
      exact Option.some_ne_none _
  have hnone : responseBranch tstamp s = none ↔ readyForAck s = none := by
    cases hready : readyForAck s with
    | none => simp [responseBranch, hready]
    | some ready => simpa using hack ready hready
  rw [hnone]
  unfold readyForAck
  split
  · rename_i hty
    simp [hty, RegArray.execute_eq_none, getCntrlPktIt]
  · rename_i hty
    simp [hty]

theorem viewBranch_eq_none {s : Pipe} : viewBranch p t s = none ↔
    maxGsnMapSize ≤ (latestCompleteCntrlPktIt s.regs.cntrlPktIt).toNat := by
  unfold viewBranch
  exact RegArray.execute_bind_eq_none (by simp)

/-- The batch counter is the only thing that `process` finds changed. -/
theorem localSeqNoReg_frame (s : Pipe) : (localSeqNoReg s).2.hdr = s.hdr ∧
    (localSeqNoReg s).2.metadata = s.metadata ∧
    (localSeqNoReg s).2.regs.cntrlPktIt = s.regs.cntrlPktIt := by
  unfold localSeqNoReg
  split
  · exact ⟨rfl, rfl, rfl⟩
  split <;> exact ⟨rfl, rfl, rfl⟩

/-- **A pass fails exactly when it indexes `map_from_gsn` out of range.** -/
theorem apply_eq_none_iff : apply p t tstamp regs hdr = none ↔
    ∃ k, gsnSlot p hdr = some k ∧ maxGsnMapSize ≤ k.index regs hdr := by
  obtain ⟨hhdr, hmeta, hit⟩ := localSeqNoReg_frame (start { regs := regs, hdr := hdr })
  unfold apply
  generalize localSeqNoReg (start { regs := regs, hdr := hdr }) = ls at hhdr hmeta hit
  obtain ⟨reg, s⟩ := ls
  simp only at hhdr hmeta hit
  have hhdr' : s.hdr = hdr := hhdr
  have hit' : s.regs.cntrlPktIt = regs.cntrlPktIt := hit
  have happ : s.metadata.appendProcess = true := by rw [hmeta]; rfl
  have hread : s.metadata.readProcess = true := by rw [hmeta]; rfl
  have hans : answersView p s = answersView p { regs := {}, hdr := hdr } := by
    unfold answersView
    rw [hhdr', hmeta]
    rfl
  simp only [Option.map_eq_none_iff, process, gsnSlot, hhdr', happ, hread, Bool.and_true,
    beq_iff_eq, Bool.or_eq_true, Bool.and_eq_true]
  generalize answersView p { regs := {}, hdr := hdr } = answered at hans
  by_cases hc : hdr.cntrl.isValid = true
  · simp [hc, controlBranch, recordGsn_eq_none, hit', GsnSlot.index]
  by_cases ha : hdr.ringType.type = typeAppend
  · simp only [hc, Bool.false_eq_true, ↓reduceIte, ha, appendBranch, Option.map_eq_none_iff,
      numberAppend_eq_none, hhdr', hit']
    split <;> simp [GsnSlot.index]
  by_cases hr : hdr.ringType.type = typeAppendResp ∧ hdr.append.isValid = true
  · simp [hc, hr, responseBranch_eq_none, hhdr', hit', GsnSlot.index]
  by_cases hrd : hdr.ringType.type = typeRead
  · simp [hc, hrd, responseBranch_eq_none, hhdr']
  simp only [if_neg hc, if_neg ha, hr, hrd, or_self, false_or, ↓reduceIte]
  by_cases hrr : hdr.ringType.type = typeReadResp
  · simp [hrr]
  by_cases htl : hdr.tail.isValid = true
  · simp [hrr, htl]
  cases answered with
  | true => simp [hrr, htl, hans, viewBranch_eq_none, hit', GsnSlot.index]
  | false => simp [hrr, htl, hans]

/-- A pass has a result exactly when the slot that it accesses, if any, is in range. -/
theorem apply_isSome_iff : (∃ out, apply p t tstamp regs hdr = some out) ↔
    ∀ k, gsnSlot p hdr = some k → k.index regs hdr < maxGsnMapSize := by
  rw [← Option.ne_none_iff_exists', ne_eq, apply_eq_none_iff]
  simp only [not_exists, not_and, Nat.not_le]

end MyIngress

end Pringles.P4
