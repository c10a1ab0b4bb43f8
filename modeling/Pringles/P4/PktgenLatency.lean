import Pringles.Lib.Carry
import Pringles.P4.SameSequencing

/-!
# The latency accumulator of the packet generator tests

`pktgen.p4` adds the time that every released response of the packet generator was on its way to
`latency_lower`, and a carry to `latency_higher`. Between them the two registers hold the sum of all
these durations (`accumulated_run`), as long as it fits 64 bits.
-/

namespace Pringles.P4.Pktgen

/-- The registers of the accumulated latency. -/
def Registers.latency (r : Registers) : TwoWords 32 := ⟨r.latencyLower, r.latencyHigher⟩

/-- The packets that ask for a release, append responses and read requests. -/
def AwaitsAck (hdr : Headers) : Bool :=
  !hdr.cntrl.isValid && hdr.ringType.type != typeAppend &&
    (hdr.ringType.type == typeAppendResp && hdr.append.isValid || hdr.ringType.type == typeRead)

/-- The duration that a pass measures: of a generated packet that is released, and not put back into
circulation. -/
def released (x : (BitVec 48 × Headers) × Pipe) : Option (BitVec 32) :=
  if AwaitsAck x.1.2 && x.1.2.timer.isValid && !x.2.metadata.circulate then
    some ((x.1.1 - x.1.2.append.startTs).truncate 32)
  else none

/-- The durations measured in a run. -/
def durations (tr : List ((BitVec 48 × Headers) × Pipe)) : List (BitVec 32) := tr.filterMap released

/-! ## One pass -/

variable {t : Tables} {tstamp : BitVec 48} {regs regs' : Registers} {hdr : Headers}
  {reg : BitVec 32} {s s' : Pipe}

/-- The routing measures nothing. -/
theorem latency_route (t : Tables) (s : Pipe) :
    (route t s).regs.latency = s.regs.latency ∧
      (route t s).metadata.circulate = s.metadata.circulate := by
  obtain ⟨idx, hregs⟩ := (routed_route t s).regs
  exact ⟨(congrArg Registers.latency hregs).trans rfl, (routed_route t s).circulate⟩

theorem latency_localSeqNoReg (s : Pipe) :
    (localSeqNoReg s).2.regs.latency = s.regs.latency := by
  obtain ⟨n, hn⟩ := exists_localSeqNoReg s
  rw [hn]
  rfl

theorem latency_closeBatch (h : closeBatch tstamp reg s = some s') :
    s'.regs.latency = s.regs.latency := by
  unfold closeBatch at h
  simp only [Option.bind_eq_bind, Option.bind_eq_some_iff, Option.pure_def, Option.some.injEq] at h
  obtain ⟨_, -, _, -, rfl⟩ := h
  rfl

theorem latency_controlBranch (h : controlBranch tstamp reg s = some s') :
    s'.regs.latency = s.regs.latency := by
  unfold controlBranch at h
  by_cases hreg : reg = 0
  · rw [if_neg (not_not.2 hreg)] at h
    simp only [Option.bind_eq_bind, Option.bind_eq_some_iff, Option.pure_def,
      Option.some.injEq] at h
    obtain ⟨_, -, _, rfl, rfl⟩ := h
    rfl
  · rw [if_pos hreg] at h
    simp only [Option.bind_eq_bind, Option.bind_eq_some_iff, Option.pure_def,
      Option.some.injEq] at h
    obtain ⟨m, hm, rfl⟩ := h
    exact (latency_closeBatch hm :)

theorem latency_appendBranch (h : appendBranch tstamp reg s = some s') :
    s'.regs.latency = s.regs.latency := by
  unfold appendBranch numberAppend at h
  simp only [Option.bind_eq_bind, Option.bind_eq_some_iff, Option.pure_def] at h
  obtain ⟨m, hm, h⟩ := h
  have hnumber : m.regs.latency = s.regs.latency := by
    split at hm
    all_goals
      simp only [Option.bind_eq_some_iff, Option.some.injEq] at hm
      obtain ⟨_, -, rfl⟩ := hm
      rfl
  rw [← hnumber]
  unfold routeAppend leaveBatch at h
  split at h
  · cases h
    rfl
  · split at h
    · simp only [Option.bind_eq_bind, Option.bind_eq_some_iff, Option.pure_def,
        Option.some.injEq] at h
      obtain ⟨_, -, rfl⟩ := h
      rfl
    · cases h
      rfl

/-- A generated packet is released with its duration added, any other one without. -/
theorem latency_release (tstamp : BitVec 48) (s : Pipe) :
    (release tstamp s).regs.latency = (if s.hdr.timer.isValid then
        s.regs.latency.add ((tstamp - s.hdr.append.startTs).truncate 32) else s.regs.latency) ∧
      (release tstamp s).metadata.circulate = s.metadata.circulate := by
  unfold release
  cases s.hdr.timer.isValid with
  | true =>
    refine ⟨?_, rfl⟩
    simp only [Registers.latency, TwoWords.add, updateLowLatCntr, updateHighLatCntr, measure, drop,
      ↓reduceIte]
    by_cases hwrap : s.regs.latencyLower + BitVec.truncate 32 (tstamp - s.hdr.append.startTs) <
        BitVec.truncate 32 (tstamp - s.hdr.append.startTs)
    · simp [hwrap]
    · simp [hwrap]
  | false =>
    simp only [Bool.false_eq_true, ↓reduceIte]
    split
    · exact ⟨rfl, rfl⟩
    · split <;> exact ⟨rfl, rfl⟩

/-- A response that is not ready circulates, any other one is released. -/
theorem latency_responseBranch (h : responseBranch tstamp s = some s')
    (hstart : s.metadata.circulate = false) :
    s'.regs.latency = if s.hdr.timer.isValid && !s'.metadata.circulate then
        s.regs.latency.add ((tstamp - s.hdr.append.startTs).truncate 32) else s.regs.latency := by
  rcases responseBranch_cases h with ⟨acks, rfl⟩ | rfl
  · obtain ⟨hlatency, hcirculate⟩ :=
      latency_release tstamp { s with regs := { s.regs with ackArray := acks } }
    rw [hlatency, hcirculate, hstart, Bool.not_false, Bool.and_true]
    rfl
  · simp

/-- Only the branch of the responses measures a duration. -/
theorem latency_process (h : process t tstamp reg s = some s') (hstarted : s.metadata.Started) :
    s'.regs.latency =
      if AwaitsAck s.hdr && s.hdr.timer.isValid && !s'.metadata.circulate then
        s.regs.latency.add ((tstamp - s.hdr.append.startTs).truncate 32) else s.regs.latency := by
  unfold process at h
  simp only [hstarted.appendProcess, hstarted.readProcess, Bool.and_true, beq_iff_eq,
    Bool.or_eq_true, Bool.and_eq_true] at h
  by_cases hcntrl : s.hdr.cntrl.isValid = true
  · rw [if_pos hcntrl] at h
    simp [AwaitsAck, hcntrl, latency_controlBranch h]
  rw [if_neg hcntrl] at h
  by_cases happend : s.hdr.ringType.type = typeAppend
  · rw [if_pos happend] at h
    simp [AwaitsAck, happend, latency_appendBranch h]
  rw [if_neg happend] at h
  by_cases hawaits : s.hdr.ringType.type = typeAppendResp ∧ s.hdr.append.isValid = true ∨
      s.hdr.ringType.type = typeRead
  · rw [if_pos hawaits] at h
    have hready : AwaitsAck s.hdr = true := by
      simpa [AwaitsAck, hcntrl, happend] using hawaits
    rw [hready, Bool.true_and]
    exact latency_responseBranch h hstarted.circulate
  rw [if_neg hawaits] at h
  have hother : AwaitsAck s.hdr = false := by
    simpa [AwaitsAck, hcntrl, happend] using hawaits
  rw [hother]
  simp only [Bool.false_and, Bool.false_eq_true, ↓reduceIte]
  split at h
  · cases h
    rfl
  split at h
  · cases h
    unfold tailBranch
    simp only
    split <;> rfl
  split at h
  · obtain ⟨_, _, rfl⟩ := viewBranch_eq_some h
    rfl
  · cases h
    rfl

/-- **A pass adds the duration that it measures.** -/
theorem latency_apply (h : apply t tstamp regs hdr = some s) :
    s.regs.latency = match released ((tstamp, hdr), s) with
      | some d => regs.latency.add d
      | none => regs.latency := by
  unfold apply at h
  simp only [Option.map_eq_some_iff] at h
  obtain ⟨m, hm, rfl⟩ := h
  obtain ⟨-, hhdr, hmeta⟩ := observe_localSeqNoReg (start { regs := regs, hdr := hdr })
  have hstarted : (localSeqNoReg (start { regs := regs, hdr := hdr })).2.metadata.Started := by
    constructor <;> rw [hmeta] <;> rfl
  have hpass := latency_process hm hstarted
  rw [hhdr, latency_localSeqNoReg, show (start { regs := regs, hdr := hdr }).hdr = hdr from rfl,
    show (start { regs := regs, hdr := hdr }).regs = regs from rfl] at hpass
  obtain ⟨hlatency, hcirculate⟩ := latency_route t m
  rw [hlatency, hpass]
  unfold released
  rw [hcirculate]
  by_cases hreleased : (AwaitsAck hdr && hdr.timer.isValid && !m.metadata.circulate) = true
  · rw [if_pos hreleased, if_pos hreleased]
  · rw [if_neg hreleased, if_neg hreleased]

/-! ## Runs -/

variable {tr : List ((BitVec 48 × Headers) × Pipe)}

/-- The registers accumulate the durations of a run one by one. -/
theorem latency_run (h : (machine t).Run regs tr regs') :
    regs'.latency = (durations tr).foldl TwoWords.add regs.latency := by
  induction h with
  | nil => rfl
  | @snoc m regs' tr e s _ hstep ih =>
    simp only [machine, Option.map_eq_some_iff, Prod.mk.injEq] at hstep
    obtain ⟨s, hpass, rfl, rfl⟩ := hstep
    have hadd := latency_apply hpass
    unfold durations at ih ⊢
    rw [List.filterMap_append, List.foldl_append, ← ih, hadd]
    cases hreleased : released (e, s) with
    | none => simp [hreleased]
    | some d => simp [hreleased]

/-- A generated response with a given latency. -/
def generatedPkt (d : BitVec 32) : BitVec 48 × Headers :=
  (d.setWidth 48, { Headers.responsePkt 1 with timer := { isValid := true } })

/-- The open slot has reached the number of these responses. -/
def Registers.Open (regs : Registers) : Prop :=
  regs.cntrlPktIt = 0 ∧ regs.mapFromGsn.get 0 = 1

theorem Registers.Open.ready (h : regs.Open) (tstamp : BitVec 48) (hs : s.regs = regs)
    (hgIdx : s.hdr.append.gIdx = 1) : ∃ acks, responseBranch tstamp s =
      some (release tstamp { s with regs := { s.regs with ackArray := acks } }) := by
  subst hs
  have hslot : (getCntrlPktIt s.regs.cntrlPktIt).toNat < maxGsnMapSize := by
    rw [getCntrlPktIt, h.1]
    decide
  have hready : readyForAck s = some 1 := by
    unfold readyForAck
    split
    · rw [RegArray.execute_of_lt _ hslot]
      simp [compareGsn, getCntrlPktIt, h.1, h.2, hgIdx]
    · rfl
  unfold responseBranch
  simp only [hready, Option.bind_eq_bind, Option.bind_some, ↓reduceIte,
    RegArray.execute_of_lt _ (MyIngress.getAckIdx_lt s.hdr)]
  exact ⟨_, rfl⟩

/-- The routing leaves the slots alone. -/
theorem open_route (t : Tables) (s : Pipe) : (route t s).regs.Open ↔ s.regs.Open := by
  have hregs : (route t s).regs.sequencing = s.regs.sequencing :=
    congrArg Prod.fst (observe_route t s)
  have hit : (route t s).regs.cntrlPktIt = s.regs.cntrlPktIt :=
    congrArg SequencingRegs.cntrlPktIt hregs
  have hgsn : (route t s).regs.mapFromGsn = s.regs.mapFromGsn :=
    congrArg SequencingRegs.mapFromGsn hregs
  rw [Registers.Open, hit, hgsn, Registers.Open]

/-- A switch with such a slot releases every generated response. -/
theorem Registers.Open.release (h : regs.Open) (t : Tables) (d : BitVec 32) :
    ∃ s, (machine t).step regs (generatedPkt d) = some (s.regs, s) ∧ s.regs.Open ∧
      released (generatedPkt d, s) = some d := by
  let m := start { regs := regs, hdr := (generatedPkt d).2 }
  obtain ⟨acks, hready⟩ := h.ready (d.setWidth 48) (s := m) rfl rfl
  let m' := Pktgen.release (d.setWidth 48) { m with regs := { m.regs with ackArray := acks } }
  have happly : apply t (d.setWidth 48) regs (generatedPkt d).2 = some (route t m') := by
    have hprocess : process t (d.setWidth 48) 0 m = some m' := hready
    have hcount : localSeqNoReg m = (0, m) := rfl
    unfold apply
    rw [show localSeqNoReg (start { regs := regs, hdr := (generatedPkt d).2 }) = _ from hcount]
    exact congrArg (Option.map (route t)) hprocess
  refine ⟨route t m', ?_, (open_route t m').2 h, ?_⟩
  · simp only [machine]
    rw [show apply t (generatedPkt d).1 regs (generatedPkt d).2 = _ from happly]
    rfl
  · have hcirculate : (route t m').metadata.circulate = false := (latency_route t m').2
    unfold released
    rw [hcirculate]
    simp [AwaitsAck, generatedPkt, Headers.responsePkt, Headers.framed, typeAppendResp, typeAppend]

/-- The control packet that brings the number of the responses. -/
theorem open_step (t : Tables) : ∃ s, (machine t).step {} (0, .controlPkt 1) = some (s.regs, s) ∧
    s.regs.Open ∧ released ((0, .controlPkt 1), s) = none := by
  obtain ⟨m, happly, hit, hgsn⟩ : ∃ m, apply t 0 {} (.controlPkt 1) = some (route t m) ∧
      m.regs.cntrlPktIt = 0 ∧ m.regs.mapFromGsn.get 0 = 1 := ⟨_, rfl, rfl, rfl⟩
  refine ⟨route t m, ?_, (open_route t m).2 ⟨hit, hgsn⟩, rfl⟩
  simp only [machine, happly]
  rfl

/-- Every sequence of durations is the one of a run. -/
theorem exists_run_durations (t : Tables) (ds : List (BitVec 32)) :
    ∃ tr regs', (machine t).Run {} tr regs' ∧ durations tr = ds := by
  have hopen : ∀ regs : Registers, regs.Open →
      ∃ tr regs', (machine t).Run regs tr regs' ∧ durations tr = ds := by
    induction ds with
    | nil => exact fun regs _ => ⟨[], regs, .nil _, rfl⟩
    | cons d ds ih =>
      intro regs h
      obtain ⟨s, hstep, hopen, hreleased⟩ := h.release t d
      obtain ⟨tr, regs', hrun, hds⟩ := ih s.regs hopen
      refine ⟨(generatedPkt d, s) :: tr, regs', (Machine.Run.single hstep).append hrun, ?_⟩
      rw [durations, List.filterMap_cons_some hreleased, ← durations, hds]
  obtain ⟨s, hstep, hs, hreleased⟩ := open_step t
  obtain ⟨tr, regs', hrun, hds⟩ := hopen s.regs hs
  refine ⟨((0, .controlPkt 1), s) :: tr, regs', (Machine.Run.single hstep).append hrun, ?_⟩
  rw [durations, List.filterMap_cons_none hreleased, ← durations, hds]

/-- **The accumulator is exact.** After any packets, the two registers hold the sum of the durations
of the released responses, if it is below 2^64; and there are packets for every such durations. -/
theorem accumulated_run (t : Tables) (ds : List (BitVec 32))
    (hsum : (ds.map BitVec.toNat).sum < 2 ^ 64) :
    (∃ tr regs, (machine t).Run {} tr regs ∧ durations tr = ds) ∧
      ∀ tr regs, (machine t).Run {} tr regs → durations tr = ds →
        regs.latencyHigher.toNat * 2 ^ 32 + regs.latencyLower.toNat =
          (ds.map BitVec.toNat).sum := by
  refine ⟨exists_run_durations t ds, ?_⟩
  rintro tr regs hrun rfl
  have hzero : (({} : Registers).latency).value = 0 := TwoWords.value_zero 32
  have hexact : ((durations tr).foldl TwoWords.add ({} : Registers).latency).value =
      ({} : Registers).latency.value + ((durations tr).map BitVec.toNat).sum :=
    TwoWords.value_foldl_add (by rw [hzero, Nat.zero_add]; exact hsum)
  rw [← latency_run hrun, hzero, Nat.zero_add] at hexact
  exact hexact

/-- Two durations whose sum is exactly 2^32, and one behind them. -/
theorem accumulated_run_carry : ∃ tr regs, (machine {}).Run {} tr regs ∧
    durations tr = [0xffffffff, 1, 7] ∧
    regs.latencyHigher.toNat * 2 ^ 32 + regs.latencyLower.toNat = 2 ^ 32 + 7 := by
  have hsum : (([0xffffffff, 1, 7] : List (BitVec 32)).map BitVec.toNat).sum < 2 ^ 64 := by decide
  obtain ⟨⟨tr, regs, hrun, hds⟩, hexact⟩ := accumulated_run {} _ hsum
  exact ⟨tr, regs, hrun, hds, hexact tr regs hrun hds⟩

end Pringles.P4.Pktgen
