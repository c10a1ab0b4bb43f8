import Pringles.Lib.Tally
import Pringles.P4.PktgenPasses

/-!
# The active batches of the packet generator tests

A switch that runs `pktgen.p4` on appends of its packet generator. The appends go around until a
control packet has closed their batch; each then leaves it and becomes a response, in whatever order
they come back. The register `active_batches` is the number of closed batches that some append has
not left, and the sizes in `map_from_batch_sz` are what is left of them (`batches_counted`).
-/

namespace Pringles.P4

/-- An append of the packet generator, as it enters. -/
def Headers.IsGenerated (hdr : Headers) : Prop :=
  hdr.IsAppend ∧ hdr.append.isValid = true ∧ hdr.timer.isValid = true ∧ hdr.append.gIdx = 0

/-- A packet beside them: no control packet, no append, and no response without a number. -/
def Headers.IsOther (hdr : Headers) : Prop :=
  hdr.cntrl.isValid = false ∧ ¬ hdr.IsAppend ∧ ¬ hdr.Draws

instance (hdr : Headers) : Decidable hdr.IsGenerated := inferInstanceAs (Decidable (_ ∧ _ ∧ _ ∧ _))
instance (hdr : Headers) : Decidable hdr.IsOther := inferInstanceAs (Decidable (_ ∧ _ ∧ _))

/-- A circulating packet as it comes back, with its timer header: what the ingress has written into
it is still there, and the rest is as in `env`. -/
def Headers.reenter (hdr env : Headers) : Headers :=
  { env with
    timer := hdr.timer, cntrl := hdr.cntrl, append := hdr.append
    ringType := { env.ringType with type := hdr.ringType.type } }

namespace Pktgen

/-! ## The switch and its appends -/

/-- An append of the packet generator: the batch that it joined, and its headers behind its last
pass. -/
structure Generated where
  batch : Nat
  hdr : Headers

/-- The append has not become a response. -/
def Generated.pending (a : Generated) : Bool := a.hdr.ringType.type != typeAppendResp

/-- The switch with all appends so far. The batches before `closed` are closed, `opened` appends have
joined the open one, and `highest` is the highest sequence number that any of them has come to. -/
structure Bench where
  regs : Registers := {}
  appends : List Generated := []
  closed : Nat := 0
  opened : Nat := 0
  highest : Nat := 0

/-- The `k`-th append may come back at any time, as an append or as a response. -/
inductive Event where
  | generate (tstamp : BitVec 48) (hdr : Headers)
  | control (tstamp : BitVec 48) (hdr : Headers)
  | recirculate (tstamp : BitVec 48) (k : Nat) (env : Headers)
  | other (tstamp : BitVec 48) (hdr : Headers)

/-- The packet that comes in, and when. -/
def Event.packet (s : Bench) : Event → Option (BitVec 48 × Headers)
  | .generate tstamp hdr => if hdr.IsGenerated then some (tstamp, hdr) else none
  | .control tstamp hdr => if hdr.IsControl then some (tstamp, hdr) else none
  | .recirculate tstamp k env => s.appends[k]?.map fun a => (tstamp, a.hdr.reenter env)
  | .other tstamp hdr => if hdr.IsOther then some (tstamp, hdr) else none

/-- The switch behind the pass that ends with `p`. -/
def Bench.after (s : Bench) (p : Pipe) : Event → Bench
  | .generate _ _ => { s with
      regs := p.regs
      appends := s.appends ++ [⟨s.closed, p.hdr⟩]
      opened := s.opened + 1
      highest := max s.highest (s.opened + 1) }
  | .control _ hdr =>
    if s.opened = 0 then { s with regs := p.regs }
    else { s with
      regs := p.regs
      closed := s.closed + 1
      opened := 0
      highest := max s.highest (hdr.cntrl.globalSeqNo.toNat + s.opened) }
  | .recirculate _ k _ => { s with
      regs := p.regs
      appends := s.appends.modify k fun a => { a with hdr := p.hdr } }
  | .other _ _ => { s with regs := p.regs }

def bench (t : Tables) : Machine Bench Event Pipe :=
  ⟨fun s e => (e.packet s).bind fun x => (apply t x.1 s.regs x.2).map fun p => (s.after p e, p)⟩

/-- The appends of a batch that have not become a response. -/
def Bench.pendingIn (s : Bench) (i : Nat) : Nat :=
  s.appends.countP fun a => a.batch == i && a.pending

def Bench.tally (s : Bench) : Tally := ⟨s.pendingIn, s.closed⟩

/-- No batch number and no sequence number has wrapped. -/
structure Bench.Bounded (s : Bench) : Prop where
  closed : s.closed < maxGsnMapSize
  highest : s.highest < 2 ^ 32

/-! ## The invariant -/

/-- What holds of an append that has joined, by the number of closed batches, the appends of the open
one and the slots: its packet leads it to the slot of its batch, with an offset in the batch that
does not wrap with the number in the slot. -/
structure Generated.Joined (closed opened : Nat) (gsn : RegArray maxGsnMapSize 32)
    (a : Generated) : Prop where
  cntrl : a.hdr.cntrl.isValid = false
  append : a.hdr.append.isValid = true
  timer : a.hdr.timer.isValid = true
  gIdx : a.hdr.append.gIdx ≠ 0
  batch : a.batch ≤ closed
  type : a.hdr.ringType.type = typeAppend ∨
    a.hdr.ringType.type = typeAppendResp ∧ a.batch < closed
  slot : a.hdr.append.cntrlPktIt.toNat = a.batch
  offset : a.pending → a.batch = closed → a.hdr.append.gIdx.toNat ≤ opened
  number : a.pending → a.batch < closed →
    a.hdr.append.gIdx.toNat + (gsn.get a.batch).toNat < 2 ^ 32

structure Bench.Inv (s : Bench) : Prop where
  cntrlPktIt : s.regs.cntrlPktIt.toNat = s.closed
  localSeqNo : s.regs.localSeqNo.toNat = s.opened
  opened : s.pendingIn s.closed = s.opened
  slot : 0 < s.opened → s.regs.mapFromGsn.get s.closed = 0
  joined : ∀ a ∈ s.appends, a.Joined s.closed s.opened s.regs.mapFromGsn
  sizes : ∀ i < s.closed, (s.regs.mapFromBatchSz.get i).toNat = s.pendingIn i
  active : s.regs.activeBatches.toNat = s.tally.active

theorem Bench.inv_init : ({} : Bench).Inv where
  cntrlPktIt := rfl
  localSeqNo := rfl
  opened := rfl
  slot h := absurd h (Nat.lt_irrefl 0)
  joined _ ha := absurd ha List.not_mem_nil
  sizes i hi := absurd hi (Nat.not_lt_zero i)
  active := (Tally.active_eq_zero.2 fun i hi => absurd hi (Nat.not_lt_zero i)).symm

variable {t : Tables} {s s' : Bench} {p : Pipe} {tstamp : BitVec 48} {hdr env : Headers} {k : Nat}
  {e : Event} {a : Generated}

theorem Bench.Inv.slot_lt (h : s.Inv) (hclosed : s.closed < maxGsnMapSize) :
    s.regs.cntrlPktIt.toNat < maxGsnMapSize := by
  rw [h.cntrlPktIt]
  exact hclosed

theorem toNat_incr {w n : Nat} {v : BitVec w} (hv : v.toNat = n) (hn : n + 1 < 2 ^ w) :
    (v + 1).toNat = n + 1 := by
  have hone : (1 : BitVec w).toNat = 1 :=
    (BitVec.toNat_ofNat 1 w).trans
      (Nat.mod_eq_of_lt (Nat.lt_of_le_of_lt (Nat.le_add_left 1 n) hn))
  rw [BitVec.toNat_add_of_lt, hv, hone]
  rwa [hv, hone]

theorem toNat_decr {w n : Nat} {v : BitVec w} (hv : v.toNat = n) (hn : 0 < n) :
    (v - 1).toNat = n - 1 := by
  have hone : (1 : BitVec w).toNat = 1 :=
    (BitVec.toNat_ofNat 1 w).trans (Nat.mod_eq_of_lt (by have := v.isLt; omega))
  rw [BitVec.toNat_sub_of_le, hv, hone]
  rw [BitVec.le_def, hv, hone]
  exact hn

/-! ### A new append -/

theorem Bench.tally_generate (hp : p.hdr.ringType.type = typeAppend) :
    (s.after p (.generate tstamp hdr)).tally = s.tally.join := by
  refine Tally.ext (funext fun i => ?_) rfl
  have hpending : (⟨s.closed, p.hdr⟩ : Generated).pending = true := by
    rw [Generated.pending, hp]
    rfl
  change List.countP _ (s.appends ++ [⟨s.closed, p.hdr⟩]) =
    Function.update s.pendingIn s.closed (s.pendingIn s.closed + 1) i
  rw [List.countP_append, List.countP_singleton, hpending, Function.update_apply, Bool.and_true]
  by_cases hi : i = s.closed
  · rw [if_pos hi, hi, if_pos (beq_self_eq_true _)]
    rfl
  · rw [if_neg hi, if_neg fun h => hi (beq_iff_eq.1 h).symm]
    rfl

/-- An append that is there already, when another one joins. -/
theorem Generated.Joined.generate {closed opened : Nat} {gsn : RegArray maxGsnMapSize 32}
    (ha : a.Joined closed opened gsn) : a.Joined closed (opened + 1) (gsn.set closed 0) where
  cntrl := ha.cntrl
  append := ha.append
  timer := ha.timer
  gIdx := ha.gIdx
  batch := ha.batch
  type := ha.type
  slot := ha.slot
  offset hpending hopen := Nat.le_succ_of_le (ha.offset hpending hopen)
  number hpending hclosed := by
    rw [RegArray.get_set_ne (Nat.ne_of_lt hclosed)]
    exact ha.number hpending hclosed

theorem Bench.Inv.generate (h : s.Inv) (hgen : hdr.IsGenerated) (hclosed : s.closed < maxGsnMapSize)
    (hopened : s.opened + 1 < 2 ^ 32) :
    ∃ p, apply t tstamp s.regs hdr = some p ∧ (s.after p (.generate tstamp hdr)).Inv := by
  obtain ⟨happend, hvalid, htimer, hgIdx⟩ := hgen
  have hslot := h.slot_lt hclosed
  obtain ⟨p, hp, hcounted⟩ := apply_join t tstamp happend ⟨happend.1, hvalid, hgIdx⟩ hslot
  obtain ⟨hregs, htag⟩ := Prod.mk.inj hcounted
  have htype : p.hdr.ringType.type = typeAppend := (congrArg Tag.type htag).trans happend.2
  have happend' := congrArg Tag.append htag
  have htally : (s.after p (.generate tstamp hdr)).tally = s.tally.join := tally_generate htype
  have hpend : ∀ i, (s.after p (.generate tstamp hdr)).pendingIn i =
      Function.update s.pendingIn s.closed (s.pendingIn s.closed + 1) i :=
    fun i => congrFun (congrArg Tally.pending htally) i
  have hnew : (s.regs.localSeqNo + 1).toNat = s.opened + 1 := toNat_incr h.localSeqNo hopened
  have hgsn : p.regs.mapFromGsn = s.regs.mapFromGsn.set s.closed 0 := by
    rw [← h.cntrlPktIt]
    exact congrArg BatchRegs.mapFromGsn hregs
  have hnumber : p.hdr.append.gIdx.toNat = s.opened + 1 :=
    (congrArg (BitVec.toNat ∘ AppendEntry.gIdx) happend').trans hnew
  refine ⟨p, hp, ?_⟩
  constructor
  · exact (congrArg (BitVec.toNat ∘ BatchRegs.cntrlPktIt) hregs).trans h.cntrlPktIt
  · exact (congrArg (BitVec.toNat ∘ BatchRegs.localSeqNo) hregs).trans hnew
  · refine (hpend s.closed).trans ?_
    rw [Function.update_self, h.opened]
    rfl
  · intro _
    change p.regs.mapFromGsn.get s.closed = 0
    rw [hgsn, RegArray.get_set_self hclosed]
  · intro a ha
    change a.Joined s.closed (s.opened + 1) p.regs.mapFromGsn
    rw [hgsn]
    rcases List.mem_append.1 ha with ha | ha
    · exact (h.joined a ha).generate
    · obtain rfl := List.mem_singleton.1 ha
      constructor
      · exact (congrArg Tag.cntrl htag).trans happend.1
      · exact (congrArg AppendEntry.isValid happend').trans hvalid
      · exact (congrArg (PktgenTimer.isValid ∘ Tag.timer) htag).trans htimer
      · intro hzero
        have hgIdx' : p.hdr.append.gIdx.toNat = s.opened + 1 := hnumber
        rw [show p.hdr.append.gIdx = 0 from hzero] at hgIdx'
        exact absurd hgIdx' (Nat.succ_ne_zero _).symm
      · exact Nat.le_refl _
      · exact .inl htype
      · exact (congrArg (BitVec.toNat ∘ AppendEntry.cntrlPktIt) happend').trans h.cntrlPktIt
      · exact fun _ _ => Nat.le_of_eq hnumber
      · exact fun _ hlt => absurd hlt (Nat.lt_irrefl _)
  · intro i hi
    have hi' : i < s.closed := hi
    rw [hpend, Function.update_of_ne (Nat.ne_of_lt hi'), ← h.sizes i hi']
    exact congrArg (fun r => (r.mapFromBatchSz.get i).toNat) hregs
  · rw [htally, Tally.active_join, ← h.active]
    exact congrArg (BitVec.toNat ∘ BatchRegs.activeBatches) hregs

/-! ### A control packet -/

/-- An append, when its batch is closed with the number `globalSeqNo` in its slot. -/
theorem Generated.Joined.close {closed opened : Nat} {gsn : RegArray maxGsnMapSize 32}
    {globalSeqNo : BitVec 32} (ha : a.Joined closed opened gsn) (hclosed : closed < maxGsnMapSize)
    (hnumber : globalSeqNo.toNat + opened < 2 ^ 32) :
    a.Joined (closed + 1) 0 (gsn.set closed globalSeqNo) where
  cntrl := ha.cntrl
  append := ha.append
  timer := ha.timer
  gIdx := ha.gIdx
  batch := Nat.le_succ_of_le ha.batch
  type := ha.type.imp_right fun h => ⟨h.1, Nat.lt_succ_of_lt h.2⟩
  slot := ha.slot
  offset _ hopen := absurd ha.batch (hopen ▸ Nat.not_succ_le_self closed)
  number hpending _ := by
    rcases Nat.lt_or_eq_of_le ha.batch with hlt | heq
    · rw [RegArray.get_set_ne (Nat.ne_of_lt hlt)]
      exact ha.number hpending hlt
    · rw [heq, RegArray.get_set_self hclosed]
      have hoffset := ha.offset hpending heq
      omega

/-- An append, when a control packet comes by an empty batch. -/
theorem Generated.Joined.empty {closed : Nat} {gsn : RegArray maxGsnMapSize 32}
    {globalSeqNo : BitVec 32} (ha : a.Joined closed 0 gsn) :
    a.Joined closed 0 (gsn.set closed globalSeqNo) where
  cntrl := ha.cntrl
  append := ha.append
  timer := ha.timer
  gIdx := ha.gIdx
  batch := ha.batch
  type := ha.type
  slot := ha.slot
  offset := ha.offset
  number hpending hlt := by
    rw [RegArray.get_set_ne (Nat.ne_of_lt hlt)]
    exact ha.number hpending hlt

theorem Bench.Inv.empty (h : s.Inv) (hcntrl : hdr.IsControl) (hopened : s.opened = 0)
    (hclosed : s.closed < maxGsnMapSize) :
    ∃ p, apply t tstamp s.regs hdr = some p ∧ (s.after p (.control tstamp hdr)).Inv := by
  have hlocal : s.regs.localSeqNo = 0 := BitVec.eq_of_toNat_eq (h.localSeqNo.trans hopened)
  obtain ⟨p, hp, hcounted⟩ := apply_empty t tstamp hcntrl hlocal (h.slot_lt hclosed)
  obtain ⟨hregs, -⟩ := Prod.mk.inj hcounted
  have hgsn : p.regs.mapFromGsn = s.regs.mapFromGsn.set s.closed hdr.cntrl.globalSeqNo := by
    rw [← h.cntrlPktIt]
    exact congrArg BatchRegs.mapFromGsn hregs
  have hafter : s.after p (.control tstamp hdr) = { s with regs := p.regs } := if_pos hopened
  refine ⟨p, hp, hafter ▸ ?_⟩
  constructor
  · exact (congrArg (BitVec.toNat ∘ BatchRegs.cntrlPktIt) hregs).trans h.cntrlPktIt
  · exact (congrArg (BitVec.toNat ∘ BatchRegs.localSeqNo) hregs).trans hopened.symm
  · exact h.opened
  · exact fun hpos => absurd hopened (Nat.ne_of_gt hpos)
  · intro a ha
    change a.Joined s.closed s.opened p.regs.mapFromGsn
    rw [hgsn, hopened]
    exact (hopened ▸ h.joined a ha).empty
  · intro i hi
    exact (congrArg (fun r => (r.mapFromBatchSz.get i).toNat) hregs).trans (h.sizes i hi)
  · exact (congrArg (BitVec.toNat ∘ BatchRegs.activeBatches) hregs).trans h.active

theorem Bench.Inv.close (h : s.Inv) (hcntrl : hdr.IsControl) (hopened : s.opened ≠ 0)
    (hclosed : s.closed + 1 < maxGsnMapSize)
    (hnumber : hdr.cntrl.globalSeqNo.toNat + s.opened < 2 ^ 32) :
    ∃ p, apply t tstamp s.regs hdr = some p ∧ (s.after p (.control tstamp hdr)).Inv := by
  have hlt : s.closed < maxGsnMapSize := Nat.lt_of_succ_lt hclosed
  have hlocal : s.regs.localSeqNo ≠ 0 := by
    intro hzero
    have hopened' := h.localSeqNo
    rw [hzero] at hopened'
    exact hopened hopened'.symm
  obtain ⟨p, hp, hcounted⟩ := apply_close t tstamp hcntrl hlocal (h.slot_lt hlt)
  obtain ⟨hregs, -⟩ := Prod.mk.inj hcounted
  have hgsn : p.regs.mapFromGsn = s.regs.mapFromGsn.set s.closed hdr.cntrl.globalSeqNo := by
    rw [← h.cntrlPktIt]
    exact congrArg BatchRegs.mapFromGsn hregs
  have hsz : p.regs.mapFromBatchSz = s.regs.mapFromBatchSz.set s.closed s.regs.localSeqNo := by
    rw [← h.cntrlPktIt]
    exact congrArg BatchRegs.mapFromBatchSz hregs
  have hit : (updateCntrlPktIt s.regs.cntrlPktIt).1.toNat = s.closed + 1 := by
    rw [MyIngress.updateCntrlPktIt_of_lt (h.slot_lt hlt)]
    exact toNat_incr h.cntrlPktIt (Nat.lt_trans hclosed (by decide))
  have hactive : (s.regs.activeBatches + 1).toNat = s.tally.active + 1 := by
    have hle : s.tally.active + 1 ≤ s.closed + 1 := Nat.succ_le_succ Tally.active_le
    exact toNat_incr h.active (Nat.lt_of_le_of_lt hle (Nat.lt_trans hclosed (by decide)))
  have hafter : s.after p (.control tstamp hdr) = { s with
      regs := p.regs
      closed := s.closed + 1
      opened := 0
      highest := max s.highest (hdr.cntrl.globalSeqNo.toNat + s.opened) } := if_neg hopened
  refine ⟨p, hp, hafter ▸ ?_⟩
  constructor
  · exact (congrArg (BitVec.toNat ∘ BatchRegs.cntrlPktIt) hregs).trans hit
  · exact congrArg (BitVec.toNat ∘ BatchRegs.localSeqNo) hregs
  · -- nobody has joined the batch that opens
    refine List.countP_eq_zero.2 fun a ha hin => ?_
    have hbatch : a.batch = s.closed + 1 := beq_iff_eq.1 (Bool.and_eq_true_iff.1 hin).1
    exact absurd (h.joined a ha).batch (hbatch ▸ Nat.not_succ_le_self _)
  · exact fun hpos => absurd hpos (Nat.lt_irrefl 0)
  · intro a ha
    change a.Joined (s.closed + 1) 0 p.regs.mapFromGsn
    rw [hgsn]
    exact (h.joined a ha).close hlt hnumber
  · intro i hi
    change (p.regs.mapFromBatchSz.get i).toNat = s.pendingIn i
    rw [hsz]
    rcases Nat.lt_succ_iff_lt_or_eq.1 hi with hi | rfl
    · rw [RegArray.get_set_ne (Nat.ne_of_lt hi)]
      exact h.sizes i hi
    · rw [RegArray.get_set_self hlt, h.localSeqNo, h.opened]
  · have hpos : 0 < s.tally.pending s.tally.closed :=
      (Nat.pos_of_ne_zero hopened).trans_eq h.opened.symm
    exact (congrArg (BitVec.toNat ∘ BatchRegs.activeBatches) hregs).trans
      (hactive.trans (Tally.active_close hpos).symm)

/-! ### A packet that changes nothing -/

/-- The invariant reads the registers of the batches alone. -/
theorem Bench.Inv.of_batches {regs : Registers} (h : s.Inv)
    (hregs : regs.batches = s.regs.batches) : ({ s with regs := regs } : Bench).Inv := by
  constructor
  · exact (congrArg (BitVec.toNat ∘ BatchRegs.cntrlPktIt) hregs).trans h.cntrlPktIt
  · exact (congrArg (BitVec.toNat ∘ BatchRegs.localSeqNo) hregs).trans h.localSeqNo
  · exact h.opened
  · exact fun hpos => (congrArg (fun r => r.mapFromGsn.get s.closed) hregs).trans (h.slot hpos)
  · intro a ha
    have hgsn : regs.mapFromGsn = s.regs.mapFromGsn := congrArg BatchRegs.mapFromGsn hregs
    change a.Joined s.closed s.opened regs.mapFromGsn
    rw [hgsn]
    exact h.joined a ha
  · intro i hi
    exact (congrArg (fun r => (r.mapFromBatchSz.get i).toNat) hregs).trans (h.sizes i hi)
  · exact (congrArg (BitVec.toNat ∘ BatchRegs.activeBatches) hregs).trans h.active

theorem Bench.Inv.other (h : s.Inv) (hother : hdr.IsOther)
    (hp : apply t tstamp s.regs hdr = some p) : (s.after p (.other tstamp hdr)).Inv := by
  obtain ⟨hcntrl, happend, hdraws⟩ := hother
  exact h.of_batches (congrArg Prod.fst (apply_other hcntrl happend hdraws hp))

/-! ### An append that comes back -/

theorem modify_of_getElem? {α : Type} {l : List α} {x : α} (hx : l[k]? = some x) (f : α → α) :
    ∃ l₁ l₂, l = l₁ ++ x :: l₂ ∧ l.modify k f = l₁ ++ f x :: l₂ := by
  obtain ⟨hk, rfl⟩ := List.getElem?_eq_some_iff.1 hx
  obtain ⟨l₁, y, l₂, hl, hlen, hmodify⟩ := List.exists_of_modify f hk
  subst hlen
  have hy : l[l₁.length] = y := by
    rw [List.getElem_of_eq hl, List.getElem_append_right (Nat.le_refl _)]
    simp only [Nat.sub_self, List.getElem_cons_zero]
  exact ⟨l₁, l₂, hy ▸ hl, hy ▸ hmodify⟩

/-- The append behind its pass. -/
def Generated.behind (a : Generated) (p : Pipe) : Generated := { a with hdr := p.hdr }

theorem Bench.pendingIn_recirculate (p : Pipe) (tstamp : BitVec 48) (env : Headers)
    (ha : s.appends[k]? = some a) (i : Nat) :
    (s.after p (.recirculate tstamp k env)).pendingIn i +
        (if a.batch == i && a.pending then 1 else 0) =
      s.pendingIn i + if a.batch == i && (a.behind p).pending then 1 else 0 := by
  obtain ⟨l₁, l₂, hl, hmodify⟩ := modify_of_getElem? ha (Generated.behind · p)
  have hafter : (s.after p (.recirculate tstamp k env)).appends = l₁ ++ a.behind p :: l₂ := hmodify
  rw [pendingIn, pendingIn, hafter, hl]
  simp only [List.countP_append, List.countP_cons]
  change _ + (_ + if a.batch == i && (a.behind p).pending then 1 else 0) + _ = _
  omega

theorem Bench.mem_recirculate {x : Generated} (ha : s.appends[k]? = some a)
    (hx : x ∈ (s.after p (.recirculate tstamp k env)).appends) :
    x ∈ s.appends ∨ x = a.behind p := by
  obtain ⟨l₁, l₂, hl, hmodify⟩ := modify_of_getElem? ha (Generated.behind · p)
  have hafter : (s.after p (.recirculate tstamp k env)).appends = l₁ ++ a.behind p :: l₂ := hmodify
  rw [hafter, List.mem_append, List.mem_cons] at hx
  rw [hl, List.mem_append, List.mem_cons]
  rcases hx with hx | rfl | hx
  · exact .inl (.inl hx)
  · exact .inr rfl
  · exact .inl (.inr (.inr hx))

theorem Generated.Joined.behind {closed opened : Nat} {gsn : RegArray maxGsnMapSize 32}
    (ha : a.Joined closed opened gsn) (htag : p.hdr.tag = a.hdr.tag) :
    (a.behind p).Joined closed opened gsn := by
  have htype : p.hdr.ringType.type = a.hdr.ringType.type := congrArg Tag.type htag
  have happend : p.hdr.append = a.hdr.append := congrArg Tag.append htag
  have hpending : (a.behind p).pending = a.pending :=
    congrArg (fun type => type != typeAppendResp) htype
  constructor
  · exact (congrArg Tag.cntrl htag).trans ha.cntrl
  · exact (congrArg AppendEntry.isValid happend).trans ha.append
  · exact (congrArg (PktgenTimer.isValid ∘ Tag.timer) htag).trans ha.timer
  · exact (congrArg AppendEntry.gIdx happend).trans_ne ha.gIdx
  · exact ha.batch
  · exact htype ▸ ha.type
  · exact (congrArg (BitVec.toNat ∘ AppendEntry.cntrlPktIt) happend).trans ha.slot
  · intro hp hopen
    exact (congrArg (BitVec.toNat ∘ AppendEntry.gIdx) happend).trans_le
      (ha.offset (hpending ▸ hp) hopen)
  · intro hp hclosed
    change p.hdr.append.gIdx.toNat + _ < _
    rw [happend]
    exact ha.number (hpending ▸ hp) hclosed

/-- The pass has no effect on the batches, and the append comes out as it was. -/
theorem Bench.Inv.again (h : s.Inv) (ha : s.appends[k]? = some a)
    (hp : p.counted = (s.regs.batches, a.hdr.tag)) :
    (s.after p (.recirculate tstamp k env)).Inv := by
  obtain ⟨hregs, htag⟩ := Prod.mk.inj hp
  have hpending : (a.behind p).pending = a.pending :=
    congrArg (fun type => type != typeAppendResp) (congrArg Tag.type htag)
  have hpend : (s.after p (.recirculate tstamp k env)).pendingIn = s.pendingIn := by
    funext i
    have hcount := pendingIn_recirculate p tstamp env ha i
    rw [hpending] at hcount
    exact Nat.add_right_cancel hcount
  have hsame := h.of_batches hregs
  constructor
  · exact hsame.cntrlPktIt
  · exact hsame.localSeqNo
  · exact hpend ▸ hsame.opened
  · exact hsame.slot
  · intro x hx
    rcases mem_recirculate ha hx with hx | rfl
    · exact hsame.joined x hx
    · exact (hsame.joined a (List.mem_of_getElem? ha)).behind htag
  · exact fun i hi => (hsame.sizes i hi).trans (congrFun hpend i).symm
  · refine hsame.active.trans (congrArg Tally.active ?_)
    exact Tally.ext hpend.symm rfl

/-! ### An append that leaves its batch -/

theorem Generated.Joined.isAppend {closed opened : Nat} {gsn : RegArray maxGsnMapSize 32}
    (ha : a.Joined closed opened gsn) (hpending : a.pending = true) : a.hdr.IsAppend := by
  refine ⟨ha.cntrl, ha.type.resolve_right fun h => ?_⟩
  rw [Generated.pending, h.1] at hpending
  exact absurd hpending (by decide)

theorem Bench.pendingIn_pos (ha : s.appends[k]? = some a) (hpending : a.pending = true) :
    0 < s.pendingIn a.batch := by
  refine List.countP_pos_iff.2 ⟨a, List.mem_of_getElem? ha, ?_⟩
  rw [hpending, Bool.and_true]
  exact beq_self_eq_true _

theorem Bench.tally_leave (ha : s.appends[k]? = some a) (hpending : a.pending = true)
    (hp : p.hdr.ringType.type = typeAppendResp) :
    (s.after p (.recirculate tstamp k env)).tally = s.tally.leave a.batch := by
  have hgone : (a.behind p).pending = false := by
    change (p.hdr.ringType.type != typeAppendResp) = false
    rw [hp]
    exact bne_self_eq_false _
  refine Tally.ext (funext fun i => ?_) rfl
  have hcount := pendingIn_recirculate p tstamp env ha i
  rw [hpending, hgone, Bool.and_true, Bool.and_false, if_neg Bool.false_ne_true] at hcount
  change (s.after p (.recirculate tstamp k env)).pendingIn i =
    Function.update s.pendingIn a.batch (s.pendingIn a.batch - 1) i
  rw [Function.update_apply]
  by_cases hi : i = a.batch
  · rw [if_pos hi, ← hi]
    rw [hi, if_pos (beq_self_eq_true _)] at hcount
    rw [hi]
    omega
  · rw [if_neg hi]
    rwa [if_neg fun h => hi (beq_iff_eq.1 h).symm] at hcount

/-- The number of the batch is added to the offset, without a wrap. -/
theorem Generated.Joined.number_ne {closed opened : Nat} {gsn : RegArray maxGsnMapSize 32}
    (ha : a.Joined closed opened gsn) (hpending : a.pending = true) (hclosed : a.batch < closed) :
    a.hdr.append.gIdx + gsn.get a.hdr.append.cntrlPktIt.toNat ≠ 0 := by
  intro hzero
  have hsum : (a.hdr.append.gIdx + gsn.get a.hdr.append.cntrlPktIt.toNat).toNat =
      a.hdr.append.gIdx.toNat + (gsn.get a.batch).toNat := by
    rw [ha.slot]
    exact BitVec.toNat_add_of_lt (ha.number hpending hclosed)
  rw [hzero] at hsum
  have hoffset : a.hdr.append.gIdx.toNat = 0 := (Nat.add_eq_zero_iff.1 hsum.symm).1
  exact ha.gIdx (BitVec.eq_of_toNat_eq hoffset)

/-- An append that has become a response. -/
theorem Generated.Joined.leave {closed opened : Nat} {gsn : RegArray maxGsnMapSize 32}
    (ha : a.Joined closed opened gsn) (hpending : a.pending = true) (hclosed : a.batch < closed)
    (htag : p.hdr.tag = { a.hdr.tag with
      type := typeAppendResp
      append := { a.hdr.append with
        gIdx := a.hdr.append.gIdx + gsn.get a.hdr.append.cntrlPktIt.toNat } }) :
    (a.behind p).Joined closed opened gsn := by
  have htype : p.hdr.ringType.type = typeAppendResp := congrArg Tag.type htag
  have happend := congrArg Tag.append htag
  have hgone : (a.behind p).pending ≠ true := by
    change ¬ (p.hdr.ringType.type != typeAppendResp) = true
    rw [htype, bne_self_eq_false]
    exact Bool.false_ne_true
  constructor
  · exact (congrArg Tag.cntrl htag).trans ha.cntrl
  · exact (congrArg AppendEntry.isValid happend).trans ha.append
  · exact (congrArg (PktgenTimer.isValid ∘ Tag.timer) htag).trans ha.timer
  · exact (congrArg AppendEntry.gIdx happend).trans_ne (ha.number_ne hpending hclosed)
  · exact ha.batch
  · exact .inr ⟨htype, hclosed⟩
  · exact (congrArg (BitVec.toNat ∘ AppendEntry.cntrlPktIt) happend).trans ha.slot
  · exact fun h => absurd h hgone
  · exact fun h => absurd h hgone

theorem Bench.Inv.leave (h : s.Inv) (ha : s.appends[k]? = some a) (hpending : a.pending = true)
    (hbatch : a.batch < s.closed) (hclosed : s.closed < maxGsnMapSize) :
    ∃ p, apply t tstamp s.regs (a.hdr.reenter env) = some p ∧
      (s.after p (.recirculate tstamp k env)).Inv := by
  have hjoined := h.joined a (List.mem_of_getElem? ha)
  have hit : a.hdr.append.cntrlPktIt ≠ s.regs.cntrlPktIt := by
    intro heq
    have hnat := congrArg BitVec.toNat heq
    rw [hjoined.slot, h.cntrlPktIt] at hnat
    exact absurd hnat (Nat.ne_of_lt hbatch)
  have hslot : a.hdr.append.cntrlPktIt.toNat < maxGsnMapSize := by
    rw [hjoined.slot]
    exact Nat.lt_trans hbatch hclosed
  obtain ⟨p, hp, hcounted⟩ := apply_leave t tstamp (a.hdr.reenter env)
    (hjoined.isAppend hpending) hjoined.gIdx hit hslot hjoined.timer
  obtain ⟨hregs, htag⟩ := Prod.mk.inj hcounted
  have htally : (s.after p (.recirculate tstamp k env)).tally = s.tally.leave a.batch :=
    tally_leave ha hpending (congrArg Tag.type htag)
  have hpend : ∀ i, (s.after p (.recirculate tstamp k env)).pendingIn i =
      Function.update s.pendingIn a.batch (s.pendingIn a.batch - 1) i :=
    fun i => congrFun (congrArg Tally.pending htally) i
  have hpos : 0 < s.pendingIn a.batch := pendingIn_pos ha hpending
  have hsize : (s.regs.mapFromBatchSz.get a.batch).toNat = s.pendingIn a.batch :=
    h.sizes _ hbatch
  have hless : (s.regs.mapFromBatchSz.get a.batch - 1).toNat = s.pendingIn a.batch - 1 :=
    toNat_decr hsize hpos
  have hsz : p.regs.mapFromBatchSz =
      s.regs.mapFromBatchSz.set a.batch (s.regs.mapFromBatchSz.get a.batch - 1) := by
    rw [← hjoined.slot]
    exact congrArg BatchRegs.mapFromBatchSz hregs
  have hgsn : p.regs.mapFromGsn = s.regs.mapFromGsn := congrArg BatchRegs.mapFromGsn hregs
  have hactive : p.regs.activeBatches =
      if s.regs.mapFromBatchSz.get a.batch - 1 = 0 then s.regs.activeBatches - 1
      else s.regs.activeBatches := by
    rw [← hjoined.slot]
    exact congrArg BatchRegs.activeBatches hregs
  refine ⟨p, hp, ?_⟩
  constructor
  · exact (congrArg (BitVec.toNat ∘ BatchRegs.cntrlPktIt) hregs).trans h.cntrlPktIt
  · exact (congrArg (BitVec.toNat ∘ BatchRegs.localSeqNo) hregs).trans h.localSeqNo
  · refine (hpend s.closed).trans ?_
    rw [Function.update_of_ne (Nat.ne_of_gt hbatch)]
    exact h.opened
  · exact fun hopened => (congrArg (RegArray.get · s.closed) hgsn).trans (h.slot hopened)
  · intro x hx
    change x.Joined s.closed s.opened p.regs.mapFromGsn
    rw [hgsn]
    rcases mem_recirculate ha hx with hx | rfl
    · exact h.joined x hx
    · exact hjoined.leave hpending hbatch htag
  · intro i hi
    change (p.regs.mapFromBatchSz.get i).toNat = _
    rw [hpend, hsz, Function.update_apply, RegArray.get_set (Nat.lt_trans hbatch hclosed)]
    by_cases hib : i = a.batch
    · rw [if_pos hib, if_pos hib, hless]
    · rw [if_neg hib, if_neg hib]
      exact h.sizes i hi
  · change p.regs.activeBatches.toNat = _
    rw [htally, hactive]
    by_cases hlast : s.regs.mapFromBatchSz.get a.batch - 1 = 0
    · -- the last append takes the batch along
      have hone : s.tally.pending a.batch = 1 := by
        rw [hlast] at hless
        change s.pendingIn a.batch = 1
        have hzero : s.pendingIn a.batch - 1 = 0 := hless.symm
        omega
      rw [if_pos hlast, Tally.active_leave_last hbatch hone]
      exact toNat_decr h.active (Tally.active_pos hbatch hpos)
    · have hmore : 1 < s.tally.pending a.batch := by
        refine Nat.lt_of_not_le fun hle => hlast (BitVec.eq_of_toNat_eq ?_)
        have hle' : s.pendingIn a.batch ≤ 1 := hle
        rw [hless, Nat.sub_eq_zero_of_le hle']
        rfl
      rw [if_neg hlast, Tally.active_leave hmore]
      exact h.active

/-! ### Whatever comes back -/

/-- An append of the open batch goes around. -/
theorem Bench.Inv.stay (h : s.Inv) (ha : s.appends[k]? = some a) (hpending : a.pending = true)
    (hopen : a.batch = s.closed) (hclosed : s.closed < maxGsnMapSize) :
    ∃ p, apply t tstamp s.regs (a.hdr.reenter env) = some p ∧
      (s.after p (.recirculate tstamp k env)).Inv := by
  have hjoined := h.joined a (List.mem_of_getElem? ha)
  have hit : a.hdr.append.cntrlPktIt = s.regs.cntrlPktIt :=
    BitVec.eq_of_toNat_eq (hjoined.slot.trans (hopen.trans h.cntrlPktIt.symm))
  have hslot : a.hdr.append.cntrlPktIt.toNat = s.closed := hjoined.slot.trans hopen
  have hopened : 0 < s.opened := by
    rw [← h.opened, ← hopen]
    exact pendingIn_pos ha hpending
  obtain ⟨p, hp, hcounted⟩ := apply_stay t tstamp (a.hdr.reenter env)
    (hjoined.isAppend hpending) hjoined.gIdx hit (hslot.trans_lt hclosed)
  refine ⟨p, hp, h.again ha (hcounted.trans ?_)⟩
  -- the slot of the open batch holds zero
  have hzero : a.hdr.append.gIdx + s.regs.mapFromGsn.get a.hdr.append.cntrlPktIt.toNat =
      a.hdr.append.gIdx := by
    rw [hslot, h.slot hopened]
    exact BitVec.add_zero _
  exact congrArg (fun gIdx => (s.regs.batches,
    { a.hdr.tag with append := { a.hdr.append with gIdx := gIdx } })) hzero

theorem Bench.Inv.response (h : s.Inv) (ha : s.appends[k]? = some a) (hgone : a.pending = false)
    (hclosed : s.closed < maxGsnMapSize) :
    ∃ p, apply t tstamp s.regs (a.hdr.reenter env) = some p ∧
      (s.after p (.recirculate tstamp k env)).Inv := by
  have hjoined := h.joined a (List.mem_of_getElem? ha)
  have hresp : (a.hdr.reenter env).IsAppendResp := ⟨hjoined.cntrl, bne_eq_false_iff_eq.1 hgone⟩
  obtain ⟨p, hp, hcounted⟩ := exists_apply_other t tstamp (a.hdr.reenter env) hjoined.cntrl
    hresp.not_append (fun hdraws => hjoined.gIdx hdraws.2.2) (h.slot_lt hclosed)
    (.inr ⟨hresp, hjoined.append⟩)
  exact ⟨p, hp, h.again ha hcounted⟩

theorem Bench.Inv.recirculate (t : Tables) (tstamp : BitVec 48) (env : Headers) (h : s.Inv)
    (ha : s.appends[k]? = some a) (hclosed : s.closed < maxGsnMapSize) :
    ∃ p, apply t tstamp s.regs (a.hdr.reenter env) = some p ∧
      (s.after p (.recirculate tstamp k env)).Inv := by
  cases hpending : a.pending with
  | false => exact h.response ha hpending hclosed
  | true =>
    rcases Nat.lt_or_eq_of_le (h.joined a (List.mem_of_getElem? ha)).batch with hlt | heq
    · exact h.leave ha hpending hlt hclosed
    · exact h.stay ha hpending heq hclosed

/-! ## Runs -/

theorem bench_step : (bench t).step s e = some (s', p) ↔
    ∃ x, e.packet s = some x ∧ apply t x.1 s.regs x.2 = some p ∧ s.after p e = s' := by
  simp only [bench, Option.bind_eq_some_iff, Option.map_eq_some_iff, Prod.mk.injEq]
  constructor
  · rintro ⟨x, hx, p', hp, hs, rfl⟩
    exact ⟨x, hx, hp, hs⟩
  · rintro ⟨x, hx, hp, hs⟩
    exact ⟨x, hx, p, hp, hs, rfl⟩

/-- The pass has one result. -/
theorem of_exists_apply {regs : Registers} {P : Pipe → Prop}
    (hex : ∃ p, apply t tstamp regs hdr = some p ∧ P p) (hp : apply t tstamp regs hdr = some p) :
    P p := by
  obtain ⟨p', hp', hP⟩ := hex
  exact Option.some.inj (hp'.symm.trans hp) ▸ hP

theorem Bench.Bounded.back (hb : (s.after p e).Bounded) : s.Bounded := by
  obtain ⟨hclosed, hhighest⟩ := hb
  cases e with
  | generate => exact ⟨hclosed, (Nat.le_max_left ..).trans_lt hhighest⟩
  | control tstamp hdr =>
    by_cases hopened : s.opened = 0
    · rw [after, if_pos hopened] at hclosed hhighest
      exact ⟨hclosed, hhighest⟩
    · rw [after, if_neg hopened] at hclosed hhighest
      exact ⟨Nat.lt_of_succ_lt hclosed, (Nat.le_max_left ..).trans_lt hhighest⟩
  | recirculate => exact ⟨hclosed, hhighest⟩
  | other => exact ⟨hclosed, hhighest⟩

/-- **A pass keeps the invariant.** -/
theorem Bench.Inv.step (h : s.Inv) (hstep : (bench t).step s e = some (s', p))
    (hb : s'.Bounded) : s'.Inv := by
  obtain ⟨x, hx, hp, rfl⟩ := bench_step.1 hstep
  have hclosed : s.closed < maxGsnMapSize := hb.back.closed
  cases e with
  | generate tstamp hdr =>
    obtain ⟨hgen, heq⟩ := Option.ite_none_right_eq_some.1 hx
    cases heq
    have hopened : s.opened + 1 < 2 ^ 32 := (Nat.le_max_right ..).trans_lt hb.highest
    exact of_exists_apply (h.generate hgen hclosed hopened) hp
  | control tstamp hdr =>
    obtain ⟨hcntrl, heq⟩ := Option.ite_none_right_eq_some.1 hx
    cases heq
    by_cases hopened : s.opened = 0
    · exact of_exists_apply (h.empty hcntrl hopened hclosed) hp
    · obtain ⟨hclosed', hhighest⟩ := hb
      rw [after, if_neg hopened] at hclosed' hhighest
      exact of_exists_apply (h.close hcntrl hopened hclosed'
        ((Nat.le_max_right ..).trans_lt hhighest)) hp
  | recirculate tstamp k env =>
    obtain ⟨a, ha, rfl⟩ := Option.map_eq_some_iff.1 hx
    exact of_exists_apply (h.recirculate t tstamp env ha hclosed) hp
  | other tstamp hdr =>
    obtain ⟨hother, heq⟩ := Option.ite_none_right_eq_some.1 hx
    cases heq
    exact h.other hother hp

/-- The invariant holds in every run. -/
theorem bench_inv {tr : List (Event × Pipe)} (hrun : (bench t).Run {} tr s) (hb : s.Bounded) :
    s.Inv := by
  refine Machine.Run.invariant (I := fun _ s => s.Inv) (B := Bench.Bounded) (A := fun _ => True)
    ?_ ?_ hrun (fun _ _ => trivial) Bench.inv_init hb
  · intro s e s' p _ hstep hb
    obtain ⟨x, -, -, rfl⟩ := bench_step.1 hstep
    exact hb.back
  · exact fun _ s e s' p _ h hb hstep => h.step hstep hb

/-- Every packet has a result, a view change aside. -/
theorem Bench.Inv.exists_step (t : Tables) (h : s.Inv) (hclosed : s.closed < maxGsnMapSize)
    {x : BitVec 48 × Headers} (hx : e.packet s = some x)
    (hview : ∀ tstamp hdr, e = .other tstamp hdr → hdr.startView.isValid = false) :
    ∃ s' p, (bench t).step s e = some (s', p) := by
  suffices hex : ∃ p, apply t x.1 s.regs x.2 = some p by
    obtain ⟨p, hp⟩ := hex
    exact ⟨_, p, bench_step.2 ⟨x, hx, hp, rfl⟩⟩
  have hslot := h.slot_lt hclosed
  cases e with
  | generate tstamp hdr =>
    obtain ⟨⟨happend, hvalid, -, hgIdx⟩, heq⟩ := Option.ite_none_right_eq_some.1 hx
    cases heq
    obtain ⟨p, hp, -⟩ := apply_join t tstamp happend ⟨happend.1, hvalid, hgIdx⟩ hslot
    exact ⟨p, hp⟩
  | control tstamp hdr =>
    obtain ⟨hcntrl, heq⟩ := Option.ite_none_right_eq_some.1 hx
    cases heq
    by_cases hlocal : s.regs.localSeqNo = 0
    · obtain ⟨p, hp, -⟩ := apply_empty t tstamp hcntrl hlocal hslot
      exact ⟨p, hp⟩
    · obtain ⟨p, hp, -⟩ := apply_close t tstamp hcntrl hlocal hslot
      exact ⟨p, hp⟩
  | recirculate tstamp k env =>
    obtain ⟨a, ha, rfl⟩ := Option.map_eq_some_iff.1 hx
    obtain ⟨p, hp, -⟩ := h.recirculate t tstamp env ha hclosed
    exact ⟨p, hp⟩
  | other tstamp hdr =>
    obtain ⟨⟨hcntrl, happend, hdraws⟩, heq⟩ := Option.ite_none_right_eq_some.1 hx
    cases heq
    obtain ⟨p, hp, -⟩ := exists_apply_other t tstamp hdr hcntrl happend hdraws hslot
      (.inl (hview tstamp hdr rfl))
    exact ⟨p, hp⟩

/-- `sub_batch` is not executed when no batch is active. -/
theorem Bench.Inv.subBatchOn_ne (h : s.Inv) {x : BitVec 48 × Headers} {numBatches : BitVec 16}
    (hx : e.packet s = some x) (hsub : SubBatchOn x.1 s.regs x.2 numBatches) :
    numBatches ≠ 0 := by
  obtain ⟨happend, hgIdx, hother, -, -, -, rfl⟩ := subBatchOn_iff.1 hsub
  cases e with
  | generate tstamp hdr =>
    obtain ⟨hgen, heq⟩ := Option.ite_none_right_eq_some.1 hx
    cases heq
    exact absurd hgen.2.2.2 hgIdx
  | control tstamp hdr =>
    obtain ⟨hcntrl, heq⟩ := Option.ite_none_right_eq_some.1 hx
    cases heq
    exact absurd happend hcntrl.not_append
  | recirculate tstamp k env =>
    obtain ⟨a, ha, rfl⟩ := Option.map_eq_some_iff.1 hx
    have hjoined := h.joined a (List.mem_of_getElem? ha)
    have hpending : a.pending = true := by
      have htype : a.hdr.ringType.type = typeAppend := happend.2
      rw [Generated.pending, htype]
      rfl
    have hbatch : a.batch < s.closed := by
      refine Nat.lt_of_le_of_ne hjoined.batch fun heq => hother ?_
      exact BitVec.eq_of_toNat_eq (hjoined.slot.trans (heq.trans h.cntrlPktIt.symm))
    have hpos : 0 < s.tally.active := Tally.active_pos hbatch (pendingIn_pos ha hpending)
    rw [← h.active] at hpos
    intro hzero
    rw [hzero] at hpos
    exact Nat.lt_irrefl 0 hpos
  | other tstamp hdr =>
    obtain ⟨⟨-, hnot, -⟩, heq⟩ := Option.ite_none_right_eq_some.1 hx
    cases heq
    exact absurd happend hnot

/-- When all appends of the closed batches have become responses, no batch is active. -/
theorem Bench.Inv.activeBatches_eq_zero (h : s.Inv)
    (hall : ∀ a ∈ s.appends, a.batch < s.closed → a.hdr.ringType.type = typeAppendResp) :
    s.regs.activeBatches = 0 := by
  have hactive : s.tally.active = 0 := by
    refine Tally.active_eq_zero.2 fun i hi => List.countP_eq_zero.2 fun a ha hin => ?_
    obtain ⟨hbatch, hpending⟩ := Bool.and_eq_true_iff.1 hin
    have htype := hall a ha (beq_iff_eq.1 hbatch ▸ hi)
    rw [Generated.pending, htype, bne_self_eq_false] at hpending
    exact absurd hpending Bool.false_ne_true
  exact BitVec.eq_of_toNat_eq (h.active.trans hactive)

/-- **The counters of the batches are exact.** As long as no batch number and no sequence number
wraps: the size of a closed batch is the number of its appends that have not become a response, and
the counter is the number of closed batches with such an append; `sub_batch` is never executed on
zero; the counter is back at zero when all appends of closed batches have become responses; and every
packet without a view change has a result. -/
theorem batches_counted (t : Tables) {tr : List (Event × Pipe)} {s : Bench}
    (hrun : (bench t).Run {} tr s) (hclosed : s.closed < 65535) (hhighest : s.highest < 2 ^ 32) :
    (∀ i < s.closed, (s.regs.mapFromBatchSz.get i).toNat = s.pendingIn i) ∧
    s.regs.activeBatches.toNat =
      ((Finset.range s.closed).filter fun i => 0 < s.pendingIn i).card ∧
    (∀ (e : Event) x numBatches, e.packet s = some x →
      SubBatchOn x.1 s.regs x.2 numBatches → numBatches ≠ 0) ∧
    ((∀ a ∈ s.appends, a.batch < s.closed → a.hdr.ringType.type = typeAppendResp) →
      s.regs.activeBatches = 0) ∧
    ∀ (e : Event) x, e.packet s = some x →
      (∀ tstamp hdr, e = .other tstamp hdr → hdr.startView.isValid = false) →
      ∃ s' p, (bench t).step s e = some (s', p) := by
  have h : s.Inv := bench_inv hrun ⟨hclosed, hhighest⟩
  exact ⟨h.sizes, h.active, fun _ _ _ => h.subBatchOn_ne, h.activeBatches_eq_zero,
    fun _ _ => h.exists_step t hclosed⟩

/-- An append as the packet generator makes it. -/
def generatedAppend : Headers := { Headers.appendPkt with timer := { isValid := true } }

/-- Two appends in a batch and one in the next; the second one of the first batch is back. -/
def twoBatches : List Event :=
  [.generate 1 generatedAppend, .generate 2 generatedAppend, .control 3 (.controlPkt 7),
    .generate 4 generatedAppend, .control 5 (.controlPkt 9), .recirculate 6 1 {}]

theorem batches_counted_two : ∃ tr s, (bench {}).Run {} tr s ∧ s.closed = 2 ∧
    s.pendingIn 0 = 1 ∧ (s.regs.mapFromBatchSz.get 0).toNat = 1 ∧
    s.regs.activeBatches.toNat = 2 := by
  obtain ⟨s, tr, hexec, hclosed, hhighest, hzero, hcard⟩ : ∃ s tr,
      (bench {}).exec {} twoBatches = some (s, tr) ∧ s.closed = 2 ∧ s.highest = 10 ∧
      s.pendingIn 0 = 1 ∧
      ((Finset.range s.closed).filter fun i => 0 < s.pendingIn i).card = 2 :=
    ⟨_, _, rfl, rfl, rfl, rfl, rfl⟩
  have hrun := Machine.Run.of_exec hexec
  obtain ⟨hsizes, hactive, -⟩ :=
    batches_counted {} hrun (hclosed.trans_lt (by decide)) (hhighest.trans_lt (by decide))
  exact ⟨tr, s, hrun, hclosed, hzero, (hsizes 0 (hclosed ▸ Nat.two_pos)).trans hzero,
    hactive.trans hcard⟩

end Pktgen

end Pringles.P4
