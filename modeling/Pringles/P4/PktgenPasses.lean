import Pringles.P4.SameSequencing

/-!
# What a pass does to the batches of the packet generator tests

`pktgen.p4` keeps the number of active batches and the size of each batch beside the registers that
number the appends. For each kind of packet, one lemma says what its pass does to these registers and
to the part of the packet that its later passes go by.
-/

namespace Pringles.P4.Pktgen

/-- The registers that number and count the appends. -/
structure BatchRegs where
  localSeqNo : BitVec 32
  cntrlPktIt : BitVec 16
  mapFromGsn : RegArray maxGsnMapSize 32
  activeBatches : BitVec 16
  mapFromBatchSz : RegArray maxGsnMapSize 32

def Registers.batches (r : Registers) : BatchRegs where
  localSeqNo := r.localSeqNo
  cntrlPktIt := r.cntrlPktIt
  mapFromGsn := r.mapFromGsn
  activeBatches := r.activeBatches
  mapFromBatchSz := r.mapFromBatchSz

/-- What a circulating packet is recognised by. -/
structure Tag where
  cntrl : Bool
  timer : PktgenTimer
  type : BitVec 16
  append : AppendEntry

end Pringles.P4.Pktgen

namespace Pringles.P4

def Headers.tag (hdr : Headers) : Pktgen.Tag where
  cntrl := hdr.cntrl.isValid
  timer := hdr.timer
  type := hdr.ringType.type
  append := hdr.append

namespace Pktgen

def Pipe.counted (s : Pipe) : BatchRegs × Tag := (s.regs.batches, s.hdr.tag)

variable {t : Tables} {tstamp : BitVec 48} {regs : Registers} {hdr : Headers} {reg : BitVec 32}
  {s s' : Pipe}

/-! ## The routing -/

theorem counted_route (t : Tables) (s : Pipe) : (route t s).counted = s.counted := by
  have h := routed_route t s
  obtain ⟨idx, hregs⟩ := h.regs
  obtain ⟨pktId, hcntrl⟩ := h.cntrl
  rw [Pipe.counted, Headers.tag, hregs, hcntrl, h.timer, h.ringType, h.append]
  rfl

/-! ## The batch counter -/

theorem localSeqNoReg_control (hcntrl : s.hdr.cntrl.isValid = true) :
    localSeqNoReg s = (s.regs.localSeqNo, { s with regs := { s.regs with localSeqNo := 0 } }) := by
  rw [localSeqNoReg, if_pos hcntrl]
  rfl

theorem localSeqNoReg_draws (hdraws : s.hdr.Draws) : localSeqNoReg s =
    (s.regs.localSeqNo + 1, { s with regs := { s.regs with
      localSeqNo := s.regs.localSeqNo + 1 } }) := by
  obtain ⟨hcntrl, hvalid, hgIdx⟩ := hdraws
  rw [localSeqNoReg, hcntrl, hvalid, hgIdx]
  rfl

theorem localSeqNoReg_other (hcntrl : s.hdr.cntrl.isValid = false) (hdraws : ¬ s.hdr.Draws) :
    localSeqNoReg s = (0, s) := by
  have hnone : (s.hdr.append.isValid && s.hdr.append.gIdx == 0) = false := by
    rw [Bool.eq_false_iff, Ne, Bool.and_eq_true, beq_iff_eq]
    exact fun h => hdraws ⟨hcntrl, h⟩
  rw [localSeqNoReg, hcntrl, hnone]
  rfl

/-- A pass is its branch and the routing, which leaves everything here alone. -/
theorem exists_apply {m : Pipe} {c : BatchRegs × Tag}
    (hreg : localSeqNoReg (start { regs := regs, hdr := hdr }) = (reg, m))
    (hbranch : ∃ s, process t tstamp reg m = some s ∧ s.counted = c) :
    ∃ s, apply t tstamp regs hdr = some s ∧ s.counted = c := by
  obtain ⟨s, hs, hc⟩ := hbranch
  refine ⟨route t s, ?_, (counted_route t s).trans hc⟩
  rw [apply, hreg]
  exact congrArg (Option.map (route t)) hs

/-! ## Control packets -/

theorem closeBatch_eq_some (tstamp : BitVec 48) (reg : BitVec 32)
    (hslot : s.regs.cntrlPktIt.toNat < maxGsnMapSize) :
    ∃ s', closeBatch tstamp reg s = some s' ∧ s'.counted = ({ s.regs.batches with
      cntrlPktIt := (updateCntrlPktIt s.regs.cntrlPktIt).1
      mapFromGsn := s.regs.mapFromGsn.set s.regs.cntrlPktIt.toNat s.hdr.cntrl.globalSeqNo
      activeBatches := s.regs.activeBatches + 1
      mapFromBatchSz := s.regs.mapFromBatchSz.set s.regs.cntrlPktIt.toNat reg }, s.hdr.tag) := by
  have hout : (updateCntrlPktIt s.regs.cntrlPktIt).2.toNat < maxGsnMapSize := hslot
  unfold closeBatch
  simp only [RegArray.execute_of_lt _ hout, Option.bind_eq_bind, Option.bind_some]
  exact ⟨_, rfl, rfl⟩

theorem process_close (hcntrl : s.hdr.cntrl.isValid = true) (hreg : reg ≠ 0)
    (hslot : s.regs.cntrlPktIt.toNat < maxGsnMapSize) :
    ∃ s', process t tstamp reg s = some s' ∧ s'.counted = ({ s.regs.batches with
      cntrlPktIt := (updateCntrlPktIt s.regs.cntrlPktIt).1
      mapFromGsn := s.regs.mapFromGsn.set s.regs.cntrlPktIt.toNat s.hdr.cntrl.globalSeqNo
      activeBatches := s.regs.activeBatches + 1
      mapFromBatchSz := s.regs.mapFromBatchSz.set s.regs.cntrlPktIt.toNat reg }, s.hdr.tag) := by
  obtain ⟨m, hm, hc⟩ := closeBatch_eq_some tstamp reg hslot
  refine ⟨{ m with metadata := { m.metadata with isCntrl := true } }, ?_, hc⟩
  rw [process, if_pos hcntrl, controlBranch, if_pos hreg, hm]
  rfl

theorem process_empty (hcntrl : s.hdr.cntrl.isValid = true)
    (hslot : s.regs.cntrlPktIt.toNat < maxGsnMapSize) :
    ∃ s', process t tstamp 0 s = some s' ∧ s'.counted = ({ s.regs.batches with
      mapFromGsn := s.regs.mapFromGsn.set s.regs.cntrlPktIt.toNat s.hdr.cntrl.globalSeqNo },
      s.hdr.tag) := by
  have hout : (getCntrlPktIt s.regs.cntrlPktIt).toNat < maxGsnMapSize := hslot
  rw [process, if_pos hcntrl, controlBranch, if_neg (not_not.2 rfl)]
  simp only [RegArray.execute_of_lt _ hout, Option.bind_eq_bind, Option.bind_some]
  exact ⟨_, rfl, rfl⟩

/-- A control packet at an open batch with appends closes it. -/
theorem apply_close (t : Tables) (tstamp : BitVec 48) (hcntrl : hdr.cntrl.isValid = true)
    (hlocal : regs.localSeqNo ≠ 0) (hslot : regs.cntrlPktIt.toNat < maxGsnMapSize) :
    ∃ s, apply t tstamp regs hdr = some s ∧ s.counted = ({
      localSeqNo := 0
      cntrlPktIt := (updateCntrlPktIt regs.cntrlPktIt).1
      mapFromGsn := regs.mapFromGsn.set regs.cntrlPktIt.toNat hdr.cntrl.globalSeqNo
      activeBatches := regs.activeBatches + 1
      mapFromBatchSz := regs.mapFromBatchSz.set regs.cntrlPktIt.toNat regs.localSeqNo },
      hdr.tag) :=
  exists_apply (localSeqNoReg_control hcntrl) (process_close hcntrl hlocal hslot)

/-- A control packet at an open batch without appends leaves its number in the slot. -/
theorem apply_empty (t : Tables) (tstamp : BitVec 48) (hcntrl : hdr.cntrl.isValid = true)
    (hlocal : regs.localSeqNo = 0) (hslot : regs.cntrlPktIt.toNat < maxGsnMapSize) :
    ∃ s, apply t tstamp regs hdr = some s ∧ s.counted = ({ regs.batches with
      localSeqNo := 0
      mapFromGsn := regs.mapFromGsn.set regs.cntrlPktIt.toNat hdr.cntrl.globalSeqNo },
      hdr.tag) := by
  have hreg := localSeqNoReg_control (s := start { regs := regs, hdr := hdr }) hcntrl
  rw [show (start { regs := regs, hdr := hdr }).regs.localSeqNo = 0 from hlocal] at hreg
  exact exists_apply hreg (process_empty hcntrl hslot)

/-! ## Appends -/

theorem process_append (happend : s.hdr.IsAppend) (hstarted : s.metadata.Started) :
    process t tstamp reg s = appendBranch tstamp reg s := by
  rw [process, happend.1, if_neg Bool.false_ne_true, happend.2, hstarted.appendProcess]
  rfl

/-- A new append joins the open batch. -/
theorem process_join (happend : s.hdr.IsAppend) (hstarted : s.metadata.Started)
    (hgIdx : s.hdr.append.gIdx = 0) (hslot : s.regs.cntrlPktIt.toNat < maxGsnMapSize) :
    ∃ s', process t tstamp reg s = some s' ∧ s'.counted = ({ s.regs.batches with
      mapFromGsn := s.regs.mapFromGsn.set s.regs.cntrlPktIt.toNat 0 },
      { s.hdr.tag with append := { s.hdr.append with
        cntrlPktIt := s.regs.cntrlPktIt, startTs := tstamp, gIdx := reg } }) := by
  have hout : (getCntrlPktIt s.regs.cntrlPktIt).toNat < maxGsnMapSize := hslot
  rw [process_append happend hstarted, appendBranch, numberAppend, if_pos hgIdx]
  simp only [RegArray.execute_of_lt _ hout, Option.bind_eq_bind, Option.bind_some]
  refine ⟨_, if_pos rfl, rfl⟩

/-- An append that has been here before adds the number of its batch. -/
theorem numberAppend_of_ne (hgIdx : s.hdr.append.gIdx ≠ 0)
    (hslot : s.hdr.append.cntrlPktIt.toNat < maxGsnMapSize) :
    numberAppend tstamp reg s = some { s with hdr := { s.hdr with append := { s.hdr.append with
      gIdx := s.hdr.append.gIdx +
        s.regs.mapFromGsn.get s.hdr.append.cntrlPktIt.toNat } } } := by
  rw [numberAppend, if_neg hgIdx, RegArray.execute_of_lt _ hslot, getGsn, RegArray.set_get]
  rfl

/-- An append of the open batch circulates, with the number of the slot added. -/
theorem process_stay (happend : s.hdr.IsAppend) (hstarted : s.metadata.Started)
    (hgIdx : s.hdr.append.gIdx ≠ 0) (hit : s.hdr.append.cntrlPktIt = s.regs.cntrlPktIt)
    (hslot : s.hdr.append.cntrlPktIt.toNat < maxGsnMapSize) :
    ∃ s', process t tstamp reg s = some s' ∧ s'.counted = (s.regs.batches,
      { s.hdr.tag with append := { s.hdr.append with
        gIdx := s.hdr.append.gIdx +
          s.regs.mapFromGsn.get s.hdr.append.cntrlPktIt.toNat } }) := by
  rw [process_append happend hstarted, appendBranch, numberAppend_of_ne hgIdx hslot,
    Option.bind_some]
  exact ⟨_, if_pos hit, rfl⟩

theorem routeAppend_leave (hit : s.hdr.append.cntrlPktIt ≠ s.regs.cntrlPktIt)
    (hslot : s.hdr.append.cntrlPktIt.toNat < maxGsnMapSize)
    (htimer : s.hdr.timer.isValid = true) :
    ∃ s', routeAppend tstamp s = some s' ∧ s'.counted = ({ s.regs.batches with
      activeBatches :=
        if s.regs.mapFromBatchSz.get s.hdr.append.cntrlPktIt.toNat - 1 = 0 then
          s.regs.activeBatches - 1
        else s.regs.activeBatches
      mapFromBatchSz := s.regs.mapFromBatchSz.set s.hdr.append.cntrlPktIt.toNat
        (s.regs.mapFromBatchSz.get s.hdr.append.cntrlPktIt.toNat - 1) },
      { s.hdr.tag with type := typeAppendResp }) := by
  rw [routeAppend, getCntrlPktIt, if_neg hit, if_pos htimer, leaveBatch]
  simp only [RegArray.execute_of_lt _ hslot, updateBatchSz, subBatch, Option.bind_eq_bind,
    Option.bind_some]
  exact ⟨_, rfl, rfl⟩

/-- A generated append of a closed batch gets its number and leaves. -/
theorem process_leave (happend : s.hdr.IsAppend) (hstarted : s.metadata.Started)
    (hgIdx : s.hdr.append.gIdx ≠ 0) (hit : s.hdr.append.cntrlPktIt ≠ s.regs.cntrlPktIt)
    (hslot : s.hdr.append.cntrlPktIt.toNat < maxGsnMapSize)
    (htimer : s.hdr.timer.isValid = true) :
    ∃ s', process t tstamp reg s = some s' ∧ s'.counted = ({ s.regs.batches with
      activeBatches :=
        if s.regs.mapFromBatchSz.get s.hdr.append.cntrlPktIt.toNat - 1 = 0 then
          s.regs.activeBatches - 1
        else s.regs.activeBatches
      mapFromBatchSz := s.regs.mapFromBatchSz.set s.hdr.append.cntrlPktIt.toNat
        (s.regs.mapFromBatchSz.get s.hdr.append.cntrlPktIt.toNat - 1) },
      { s.hdr.tag with
        type := typeAppendResp
        append := { s.hdr.append with
          gIdx := s.hdr.append.gIdx +
            s.regs.mapFromGsn.get s.hdr.append.cntrlPktIt.toNat } }) := by
  rw [process_append happend hstarted, appendBranch, numberAppend_of_ne hgIdx hslot,
    Option.bind_some]
  exact routeAppend_leave hit hslot htimer

theorem started_start (s : Pipe) : (start s).metadata.Started := ⟨rfl, rfl, rfl, rfl, rfl⟩

theorem apply_join (t : Tables) (tstamp : BitVec 48) (happend : hdr.IsAppend) (hdraws : hdr.Draws)
    (hslot : regs.cntrlPktIt.toNat < maxGsnMapSize) :
    ∃ s, apply t tstamp regs hdr = some s ∧ s.counted = ({ regs.batches with
      localSeqNo := regs.localSeqNo + 1
      mapFromGsn := regs.mapFromGsn.set regs.cntrlPktIt.toNat 0 },
      { hdr.tag with append := { hdr.append with
        cntrlPktIt := regs.cntrlPktIt, startTs := tstamp, gIdx := regs.localSeqNo + 1 } }) :=
  exists_apply (localSeqNoReg_draws hdraws)
    (process_join happend (started_start _) hdraws.2.2 hslot)

theorem apply_stay (t : Tables) (tstamp : BitVec 48) (hdr : Headers) (happend : hdr.IsAppend)
    (hgIdx : hdr.append.gIdx ≠ 0) (hit : hdr.append.cntrlPktIt = regs.cntrlPktIt)
    (hslot : hdr.append.cntrlPktIt.toNat < maxGsnMapSize) :
    ∃ s, apply t tstamp regs hdr = some s ∧ s.counted = (regs.batches,
      { hdr.tag with append := { hdr.append with
        gIdx := hdr.append.gIdx + regs.mapFromGsn.get hdr.append.cntrlPktIt.toNat } }) :=
  exists_apply (localSeqNoReg_other happend.1 fun h => hgIdx h.2.2)
    (process_stay happend (started_start _) hgIdx hit hslot)

theorem apply_leave (t : Tables) (tstamp : BitVec 48) (hdr : Headers) (happend : hdr.IsAppend)
    (hgIdx : hdr.append.gIdx ≠ 0) (hit : hdr.append.cntrlPktIt ≠ regs.cntrlPktIt)
    (hslot : hdr.append.cntrlPktIt.toNat < maxGsnMapSize) (htimer : hdr.timer.isValid = true) :
    ∃ s, apply t tstamp regs hdr = some s ∧ s.counted = ({ regs.batches with
      activeBatches :=
        if regs.mapFromBatchSz.get hdr.append.cntrlPktIt.toNat - 1 = 0 then
          regs.activeBatches - 1
        else regs.activeBatches
      mapFromBatchSz := regs.mapFromBatchSz.set hdr.append.cntrlPktIt.toNat
        (regs.mapFromBatchSz.get hdr.append.cntrlPktIt.toNat - 1) },
      { hdr.tag with
        type := typeAppendResp
        append := { hdr.append with
          gIdx := hdr.append.gIdx + regs.mapFromGsn.get hdr.append.cntrlPktIt.toNat } }) :=
  exists_apply (localSeqNoReg_other happend.1 fun h => hgIdx h.2.2)
    (process_leave happend (started_start _) hgIdx hit hslot htimer)

/-! ## Other packets -/

theorem counted_release (tstamp : BitVec 48) (s : Pipe) :
    (release tstamp s).counted = s.counted := by
  unfold release drop
  split
  · rfl
  split
  · rfl
  split <;> rfl

theorem counted_responseBranch (h : responseBranch tstamp s = some s') :
    s'.counted = s.counted := by
  rcases responseBranch_cases h with ⟨acks, rfl⟩ | rfl
  · exact (counted_release ..).trans rfl
  · rfl

theorem counted_tailBranch (t : Tables) (s : Pipe) : (tailBranch t s).counted = s.counted := by
  unfold tailBranch
  simp only
  split <;> rfl

theorem counted_viewBranch (h : viewBranch t s = some s') : s'.counted = s.counted := by
  obtain ⟨_, _, rfl⟩ := viewBranch_eq_some h
  rfl

theorem process_not_append (hcntrl : s.hdr.cntrl.isValid = false) (happend : ¬ s.hdr.IsAppend) :
    process t tstamp reg s =
      if (s.hdr.ringType.type == typeAppendResp && s.hdr.append.isValid) ||
          (s.hdr.ringType.type == typeRead && s.metadata.readProcess) then responseBranch tstamp s
      else if s.hdr.ringType.type == typeReadResp then
        some { s with metadata := { s.metadata with routeToClient := true } }
      else if s.hdr.tail.isValid then some (tailBranch t s)
      else if s.hdr.startView.isValid then viewBranch t s
      else some s := by
  have htype : (s.hdr.ringType.type == typeAppend && s.metadata.appendProcess) = false := by
    rw [beq_eq_false_iff_ne.2 fun htype => happend ⟨hcntrl, htype⟩]
    rfl
  rw [process, hcntrl, if_neg Bool.false_ne_true, htype, if_neg Bool.false_ne_true]

/-- A packet that is no append and no control packet leaves the batches alone. -/
theorem process_other (hcntrl : s.hdr.cntrl.isValid = false) (happend : ¬ s.hdr.IsAppend)
    (h : process t tstamp reg s = some s') : s'.counted = s.counted := by
  rw [process_not_append hcntrl happend] at h
  split at h
  · exact counted_responseBranch h
  split at h
  · cases h
    rfl
  split at h
  · cases h
    exact counted_tailBranch t s
  split at h
  · exact counted_viewBranch h
  · cases h
    rfl

theorem apply_other (hcntrl : hdr.cntrl.isValid = false) (happend : ¬ hdr.IsAppend)
    (hdraws : ¬ hdr.Draws) (h : apply t tstamp regs hdr = some s) :
    s.counted = (regs.batches, hdr.tag) := by
  rw [apply, localSeqNoReg_other (s := start { regs := regs, hdr := hdr }) hcntrl hdraws] at h
  obtain ⟨m, hm, rfl⟩ := Option.map_eq_some_iff.1 h
  have hsame := process_other (s := start { regs := regs, hdr := hdr }) hcntrl happend hm
  exact (counted_route t m).trans hsame

theorem exists_responseBranch (tstamp : BitVec 48)
    (hslot : s.regs.cntrlPktIt.toNat < maxGsnMapSize) :
    ∃ s', responseBranch tstamp s = some s' := by
  have hout : (getCntrlPktIt s.regs.cntrlPktIt).toNat < maxGsnMapSize := hslot
  obtain ⟨ready, hready⟩ : ∃ ready, readyForAck s = some ready := by
    unfold readyForAck
    split
    · rw [RegArray.execute_of_lt _ hout]
      exact ⟨_, rfl⟩
    · exact ⟨_, rfl⟩
  unfold responseBranch
  simp only [hready, RegArray.execute_of_lt _ (MyIngress.getAckIdx_lt s.hdr), Option.bind_eq_bind,
    Option.bind_some]
  split
  · exact ⟨_, rfl⟩
  · exact ⟨_, rfl⟩

theorem exists_process_other (t : Tables) (tstamp : BitVec 48) (reg : BitVec 32)
    (hcntrl : s.hdr.cntrl.isValid = false) (happend : ¬ s.hdr.IsAppend)
    (hslot : s.regs.cntrlPktIt.toNat < maxGsnMapSize)
    (hview : s.hdr.startView.isValid = false ∨
      s.hdr.IsAppendResp ∧ s.hdr.append.isValid = true) :
    ∃ s', process t tstamp reg s = some s' := by
  rw [process_not_append hcntrl happend]
  split
  · exact exists_responseBranch tstamp hslot
  next hresponse =>
    have hview' : s.hdr.startView.isValid = false := by
      refine hview.resolve_right fun h => hresponse ?_
      rw [h.1.2, h.2]
      rfl
    rw [hview']
    split
    · exact ⟨_, rfl⟩
    split
    · exact ⟨_, rfl⟩
    · exact ⟨_, rfl⟩

/-- The pass of a response, or of a packet without a view change, has a result. -/
theorem exists_apply_other (t : Tables) (tstamp : BitVec 48) (hdr : Headers)
    (hcntrl : hdr.cntrl.isValid = false) (happend : ¬ hdr.IsAppend) (hdraws : ¬ hdr.Draws)
    (hslot : regs.cntrlPktIt.toNat < maxGsnMapSize)
    (hview : hdr.startView.isValid = false ∨ hdr.IsAppendResp ∧ hdr.append.isValid = true) :
    ∃ s, apply t tstamp regs hdr = some s ∧ s.counted = (regs.batches, hdr.tag) := by
  obtain ⟨s, hs⟩ := exists_process_other t tstamp 0 (s := start { regs := regs, hdr := hdr })
    hcntrl happend hslot hview
  exact exists_apply (localSeqNoReg_other hcntrl hdraws) ⟨s, hs, process_other hcntrl happend hs⟩

/-! ## Where `sub_batch` is executed -/

/-- The pass executes `sub_batch`, on a counter that holds `numBatches`. -/
def SubBatchOn (tstamp : BitVec 48) (regs : Registers) (hdr : Headers)
    (numBatches : BitVec 16) : Prop :=
  ∃ reg m s sz, localSeqNoReg (start { regs := regs, hdr := hdr }) = (reg, m) ∧
    m.hdr.IsAppend ∧ numberAppend tstamp reg m = some s ∧
    s.hdr.append.cntrlPktIt ≠ getCntrlPktIt s.regs.cntrlPktIt ∧ s.hdr.timer.isValid = true ∧
    s.regs.mapFromBatchSz.execute s.hdr.append.cntrlPktIt.toNat updateBatchSz = some (sz, 0) ∧
    s.regs.activeBatches = numBatches

/-- That is in the pass of the last append of another batch than the open one. -/
theorem subBatchOn_iff {numBatches : BitVec 16} : SubBatchOn tstamp regs hdr numBatches ↔
    hdr.IsAppend ∧ hdr.append.gIdx ≠ 0 ∧ hdr.append.cntrlPktIt ≠ regs.cntrlPktIt ∧
      hdr.timer.isValid = true ∧ hdr.append.cntrlPktIt.toNat < maxGsnMapSize ∧
      regs.mapFromBatchSz.get hdr.append.cntrlPktIt.toNat - 1 = 0 ∧
      regs.activeBatches = numBatches := by
  constructor
  · rintro ⟨reg, m, s, sz, hreg, happend, hnumber, hother, htimer, hlast, rfl⟩
    obtain ⟨n, hn⟩ := exists_localSeqNoReg (start { regs := regs, hdr := hdr })
    rw [hreg] at hn
    have hhdr : m.hdr = hdr := congrArg Pipe.hdr hn
    have hit : m.regs.cntrlPktIt = regs.cntrlPktIt := congrArg (fun s => s.regs.cntrlPktIt) hn
    have hactive : m.regs.activeBatches = regs.activeBatches :=
      congrArg (fun s => s.regs.activeBatches) hn
    have hsize : m.regs.mapFromBatchSz = regs.mapFromBatchSz :=
      congrArg (fun s => s.regs.mapFromBatchSz) hn
    rw [← hhdr, ← hit, ← hactive, ← hsize]
    unfold numberAppend at hnumber
    by_cases hgIdx : m.hdr.append.gIdx = 0
    · -- a new append is one of the open batch
      rw [if_pos hgIdx] at hnumber
      simp only [Option.bind_eq_bind, Option.bind_eq_some_iff, Option.pure_def,
        Option.some.injEq] at hnumber
      obtain ⟨_, -, rfl⟩ := hnumber
      exact absurd rfl hother
    · rw [if_neg hgIdx] at hnumber
      simp only [Option.bind_eq_bind, Option.bind_eq_some_iff, Option.pure_def,
        Option.some.injEq] at hnumber
      obtain ⟨_, -, rfl⟩ := hnumber
      obtain ⟨hslot, -, hzero⟩ := RegArray.execute_eq_some.1 hlast
      exact ⟨happend, hgIdx, hother, htimer, hslot, hzero.symm, rfl⟩
  · rintro ⟨happend, hgIdx, hother, htimer, hslot, hzero, rfl⟩
    let m := start { regs := regs, hdr := hdr }
    exact ⟨0, m, _, _, localSeqNoReg_other happend.1 fun h => hgIdx h.2.2, happend,
      numberAppend_of_ne (s := m) hgIdx hslot, hother, htimer,
      RegArray.execute_eq_some.2 ⟨hslot, rfl, hzero.symm⟩, rfl⟩

end Pktgen

end Pringles.P4
