import Pringles.P4.IngressSpec

/-!
# The way to a shard

An append that leaves circulation and a read both look their shard up in `get_shard_port`, under a
key that the pass writes into `ring_type.shard_id`. The append's key is its stream, or its number
when it belongs to no stream; the read's key is its number in either case.
-/

namespace Pringles.P4

/-- The multicast group that `get_shard_port` selects for a key, if it has an entry. -/
def Tables.shardGroup (t : Tables) (shardId : BitVec 32) : Option (BitVec 16) :=
  match t.getShardPort shardId with
  | .shardPort groupId => some groupId
  | .noAction => none

namespace MyIngress

variable {p : Program} {t : Tables} {tstamp tstamp' : BitVec 48} {regs regs' : Registers}
  {hdr hdr' : Headers} {out out' : Pipe} {s : Pipe}

/-! ## Branches that do not route to a shard -/

/-- A packet that goes to a shard and nowhere else is looked up in `get_shard_port` alone. -/
theorem route_toShard (hclient : s.metadata.routeToClient = false)
    (hcntrl : s.metadata.isCntrl = false) (hcirc : s.metadata.circulate = false)
    (hshard : s.metadata.routeToShard = true) : route t s = getShardPort t s := by
  simp [route, routeClient, hclient, hcntrl, hcirc, hshard]

/-- The group of a packet that had none before the lookup. -/
theorem getShardPort_group (h : s.tm.mcastGrpA = none) :
    (getShardPort t s).tm.mcastGrpA = t.shardGroup s.hdr.ringType.shardId := by
  unfold getShardPort Tables.shardGroup
  cases t.getShardPort s.hdr.ringType.shardId with
  | shardPort groupId => rfl
  | noAction => exact h

/-! ## Appends -/

theorem numberAppend_frame {reg : BitVec 32} {s' : Pipe}
    (h : numberAppend tstamp reg s = some s') :
    s'.metadata = s.metadata ∧ s'.tm = s.tm ∧
      s'.hdr.append.streamId = s.hdr.append.streamId := by
  simp only [numberAppend] at h
  split at h
  · simp only [Option.bind_eq_bind, Option.bind_eq_some_iff, Option.pure_def,
      Option.some.injEq] at h
    obtain ⟨_, -, rfl⟩ := h
    exact ⟨rfl, rfl, rfl⟩
  · simp only [Option.bind_eq_bind, Option.bind_eq_some_iff, Option.pure_def,
      Option.some.injEq] at h
    obtain ⟨_, -, rfl⟩ := h
    exact ⟨rfl, rfl, rfl⟩

/-- Of the three ways out of `routeAppend` one leads to a shard. -/
theorem routeAppend_toShard (h0 : s.metadata.routeToShard = false)
    (h : (routeAppend tstamp s).metadata.routeToShard = true) :
    routeAppend tstamp s = { s with
      hdr := { s.hdr with ringType := { s.hdr.ringType with
        shardId := if s.hdr.append.streamId = 0 then s.hdr.append.gIdx
          else s.hdr.append.streamId } }
      metadata := { s.metadata with routeToShard := true } } := by
  unfold routeAppend at h ⊢
  split at h
  · exact absurd (h0.symm.trans h) Bool.false_ne_true
  split at h
  · exact absurd (h0.symm.trans h) Bool.false_ne_true
  · rename_i hopen htimer
    rw [if_neg hopen, if_neg htimer]

/-- An append on its way to a shard: the group is the one of its stream, or of its number. -/
theorem apply_append_toShard (ha : hdr.IsAppend) (h : apply p t tstamp regs hdr = some out)
    (hshard : out.metadata.routeToShard = true) :
    out.hdr.append.streamId = hdr.append.streamId ∧
      out.tm.mcastGrpA = t.shardGroup (if hdr.append.streamId = 0 then out.hdr.append.gIdx
        else hdr.append.streamId) := by
  obtain ⟨hc, ha⟩ := ha
  obtain ⟨reg, n, heq⟩ := apply_data hc p t tstamp regs
  rw [heq] at h
  generalize hs : start { regs := { regs with localSeqNo := n }, hdr := hdr } = s at h
  have hhdr : s.hdr = hdr := by rw [← hs]; rfl
  have hmeta : s.metadata.appendProcess = true := by rw [← hs]; rfl
  simp only [process, hhdr, hmeta, hc, ha, BEq.rfl, Bool.and_self, Bool.false_eq_true, ↓reduceIte,
    appendBranch, Option.map_eq_some_iff] at h
  obtain ⟨_, ⟨s', hs', rfl⟩, rfl⟩ := h
  obtain ⟨hmeta', htm', hstream⟩ := numberAppend_frame hs'
  rw [← hs] at hmeta' htm' hstream
  rw [(routed_route t _).routeToShard] at hshard
  have hs'0 : s'.metadata.routeToShard = false := by rw [hmeta']; rfl
  rw [routeAppend_toShard hs'0 hshard]
  rw [route_toShard (by rw [hmeta']; rfl) (by rw [hmeta']; rfl) (by rw [hmeta']; rfl) rfl]
  have hgroup : s'.tm.mcastGrpA = none := by rw [htm']; rfl
  rw [getShardPort_group (by exact hgroup), (routed_getShardPort t _).append]
  have hstream' : s'.hdr.append.streamId = hdr.append.streamId := hstream
  exact ⟨hstream', by rw [← hstream']⟩

/-! ## Reads -/

/-- Of the branches behind the acknowledgement check one leads to a shard. -/
theorem release_toShard (h0 : s.metadata.routeToShard = false)
    (h : (release tstamp s).metadata.routeToShard = true) :
    release tstamp s = { s with
      hdr := { s.hdr with ringType := { s.hdr.ringType with shardId := s.hdr.read.gIdx } }
      metadata := { s.metadata with routeToShard := true } } := by
  unfold release at h ⊢
  split at h
  · exact absurd (h0.symm.trans h) Bool.false_ne_true
  split at h
  · exact absurd (h0.symm.trans h) Bool.false_ne_true
  split at h
  · rename_i htimer happend hread
    rw [if_neg htimer, if_neg happend, if_pos hread]
  · exact absurd (h0.symm.trans h) Bool.false_ne_true

/-- A read on its way to a shard: the group is the one of its number. -/
theorem apply_read_toShard (hr : hdr.IsRead) (h : apply p t tstamp regs hdr = some out)
    (hshard : out.metadata.routeToShard = true) :
    out.tm.mcastGrpA = t.shardGroup hdr.read.gIdx := by
  obtain ⟨hc, hr⟩ := hr
  obtain ⟨reg, n, heq⟩ := apply_data hc p t tstamp regs
  rw [heq] at h
  generalize hs : start { regs := { regs with localSeqNo := n }, hdr := hdr } = s at h
  have hhdr : s.hdr = hdr := by rw [← hs]; rfl
  have hmeta : s.metadata.readProcess = true := by rw [← hs]; rfl
  have hready : readyForAck s = some 1 := by simp [readyForAck, hhdr, hr]
  simp only [process, hhdr, hmeta, hc, hr, typeRead_ne_append, beq_eq_false_iff_ne.2, ne_eq,
    not_false_eq_true, Bool.false_and, Bool.false_eq_true, ↓reduceIte, BEq.rfl, Bool.and_self,
    Bool.or_true, responseBranch_ready hready, Option.map_some, Option.some.injEq] at h
  subst h
  rw [(routed_route t _).routeToShard] at hshard
  generalize hs' : ({ regs := _, hdr := _, metadata := _, dprsr := _, tm := _ } : Pipe) = s'
    at hshard ⊢
  have hmeta' : s'.metadata.routeToShard = false := by rw [← hs', ← hs]; rfl
  have hgroup : s'.tm.mcastGrpA = none := by rw [← hs', ← hs]; rfl
  have hkey : s'.hdr.read = hdr.read := by rw [← hs']
  rw [release_toShard hmeta' hshard, ← hkey]
  rw [route_toShard (by rw [← hs', ← hs]; rfl) (by rw [← hs', ← hs]; rfl)
    (by rw [← hs', ← hs]; rfl) rfl]
  exact getShardPort_group hgroup

/-! ## Where a read looks for an append -/

/-- **A read follows the append of its number to its shard exactly when the append belonged to no
stream, or the shard of the number happens to be the shard of the stream.** -/
theorem read_follows_append_iff {groupId : BitVec 16} (ha : hdr.IsAppend)
    (h : apply p t tstamp regs hdr = some out) (hshard : out.metadata.routeToShard = true)
    (hgroup : out.tm.mcastGrpA = some groupId)
    (hr : hdr'.IsRead) (h' : apply p t tstamp' regs' hdr' = some out')
    (hshard' : out'.metadata.routeToShard = true)
    (hgIdx : hdr'.read.gIdx = out.hdr.append.gIdx)
    (hstream : hdr'.read.streamId = out.hdr.append.streamId) :
    out'.tm.mcastGrpA = some groupId ↔ hdr'.read.streamId = 0 ∨
      t.shardGroup hdr'.read.gIdx = t.shardGroup hdr'.read.streamId := by
  obtain ⟨hs, hgroupA⟩ := apply_append_toShard ha h hshard
  rw [hgroup] at hgroupA
  rw [apply_read_toShard hr h' hshard', hgroupA, hstream, hs, hgIdx]
  by_cases h0 : hdr.append.streamId = 0
  · rw [if_pos h0]
    exact iff_of_true rfl (.inl h0)
  · rw [if_neg h0, or_iff_right h0]

/-- The group of a shard has the number of the shard. -/
def sampleShards : Tables := { getShardPort := fun shardId => .shardPort (shardId.truncate 16) }

/-- The first slot is taken, as behind one append and a control visit. -/
def sampleRegs : Registers := { cntrlPktIt := 1 }

/-- An append that has the number 1. -/
def numberedPkt (streamId : BitVec 32) : Headers :=
  { Headers.framed typeAppend with append := { isValid := true, gIdx := 1, streamId := streamId } }

/-- Whatever the tables hold, the append goes to a shard with its number. -/
theorem numberedPkt_toShard (t : Tables) :
    ∃ out, apply .sequencingOnly t 0 sampleRegs (numberedPkt 0) = some out ∧
      out.metadata.routeToShard = true ∧ out.hdr.append.gIdx = 1 := by
  have h : apply .sequencingOnly t 0 sampleRegs (numberedPkt 0) = some (route t _) := rfl
  refine ⟨_, h, ?_, ?_⟩
  · rw [(routed_route t _).routeToShard]
    rfl
  · rw [(routed_route t _).append]
    rfl

/-- The read of number 1. -/
def readOf (streamId : BitVec 32) : Headers :=
  { Headers.framed typeRead with read := { isValid := true, gIdx := 1, streamId := streamId } }

/-- An append without a stream. -/
theorem read_follows_append_iff_general : ∃ out out',
    apply .sequencingOnly sampleShards 0 sampleRegs (numberedPkt 0) = some out ∧
    apply .sequencingOnly sampleShards 0 sampleRegs (readOf 0) = some out' ∧
    (out'.tm.mcastGrpA = some 1 ↔ (0 : BitVec 32) = 0 ∨
      sampleShards.shardGroup 1 = sampleShards.shardGroup 0) := by
  have ha : (numberedPkt 0).IsAppend := by decide
  have hr : (readOf 0).IsRead := by decide
  have h : apply .sequencingOnly sampleShards 0 sampleRegs (numberedPkt 0) = some _ := rfl
  have h' : apply .sequencingOnly sampleShards 0 sampleRegs (readOf 0) = some _ := rfl
  exact ⟨_, _, h, h', read_follows_append_iff ha h rfl rfl hr h' rfl rfl rfl⟩

/-- An append of stream 2 goes to shard 2, the read of it to the shard of its number. -/
theorem read_misses_stream : ¬ ∀ (groupId : BitVec 16) (hdr hdr' : Headers) (out out' : Pipe),
    hdr.IsAppend → apply .sequencingOnly sampleShards 0 sampleRegs hdr = some out →
    out.metadata.routeToShard = true → out.tm.mcastGrpA = some groupId → hdr'.IsRead →
    apply .sequencingOnly sampleShards 0 sampleRegs hdr' = some out' →
    out'.metadata.routeToShard = true → hdr'.read.gIdx = out.hdr.append.gIdx →
    hdr'.read.streamId = out.hdr.append.streamId → out'.tm.mcastGrpA = some groupId := by
  intro hall
  have ha : (numberedPkt 2).IsAppend := by decide
  have hr : (readOf 2).IsRead := by decide
  have h : apply .sequencingOnly sampleShards 0 sampleRegs (numberedPkt 2) = some _ := rfl
  have h' : apply .sequencingOnly sampleShards 0 sampleRegs (readOf 2) = some _ := rfl
  have hgroup := hall 2 (numberedPkt 2) (readOf 2) _ _ ha h rfl rfl hr h' rfl rfl rfl
  exact absurd hgroup (by decide)

end MyIngress

end Pringles.P4
