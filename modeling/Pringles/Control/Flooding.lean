import Pringles.Control.Subscribers
import Pringles.Lib.Delivery

/-!
# The flooding of a subscription

Any number of switches, each with its control plane. A request that comes in with the flag 0 leaves
with the flag 1 on every port of the flood group; one that comes in with the flag 1 leaves with the
flag 0 on the CPU port. The control planes add subscribers while the request is on its way.

With one port to every other switch and one to the own control plane in the group, a run of the
network is a run of a flood (`Lib/Delivery`), and the flood says how often each control plane
receives the request and when the last copy is gone.
-/

namespace Pringles.Control

open Pringles.P4

/-- Where a copy of the request goes. -/
inductive Node (ι : Type) where
  | switch (i : ι)
  | cpu (i : ι)

/-- The switches' program, their tables, their CPU ports, and the switch behind each port. -/
structure SubNet (ι : Type) where
  program : Program
  tables : ι → Tables
  cpuPort : ι → Port
  peer : ι → Port → Option ι

namespace SubNet

variable {ι : Type}

structure State (ι : Type) where
  sw : ι → SequencingTest
  inFlight : List (Node ι × Headers)

/-- A copy is delivered, and finds the registers of its switch as any other traffic has left them;
or a control plane adds a subscriber. -/
inductive Event (ι : Type) where
  | deliver (k : Nat) (tstamp : BitVec 48) (regs : Registers)
  | notify (i : ι) (sub : Subscription)

inductive Served (ι : Type) where
  | passed (i : ι) (hdr : Headers) (out : Pipe)
  | received (i : ι) (hdr : Headers)
  | noted

/-- The node behind a port of a switch. -/
def target [DecidableEq ι] (N : SubNet ι) (i : ι) (port : Port) : Option (Node ι) :=
  if port = N.cpuPort i then some (.cpu i) else (N.peer i port).map .switch

/-- The ports on which a packet leaves: those of its group and its own. -/
def ports (st : SequencingTest) (out : Pipe) : List Port :=
  if out.dprsr.dropCtl = 0 then
    (out.tm.mcastGrpA.map fun groupId => st.pre.copies groupId.toNat).getD [] ++
      out.tm.ucastEgressPort.toList
  else []

variable [DecidableEq ι] (N : SubNet ι)

/-- The copies that a pass puts in flight. -/
def copies (i : ι) (st : SequencingTest) (out : Pipe) : List (Node ι × Headers) :=
  (ports st out).filterMap fun port => (N.target i port).map fun node => (node, out.hdr)

def step (s : State ι) : Event ι → Option (State ι × Served ι)
  | .deliver k tstamp regs =>
    match s.inFlight[k]? with
    | some (.switch i, hdr) =>
      (MyIngress.apply N.program ((s.sw i).tables (N.tables i)) tstamp regs hdr).map fun out =>
        ({ s with inFlight := s.inFlight.eraseIdx k ++ N.copies i (s.sw i) out },
          .passed i hdr out)
    | some (.cpu i, hdr) => some ({ s with inFlight := s.inFlight.eraseIdx k }, .received i hdr)
    | none => none
  | .notify i sub =>
    ((s.sw i).updateStreamSubscriberTable sub).map fun st =>
      ({ s with sw := Function.update s.sw i st }, .noted)

def machine : Machine (State ι) (Event ι) (Served ι) := ⟨N.step⟩

/-- What the control planes receive. -/
def received (tr : List (Event ι × Served ι)) : List (ι × Headers) :=
  tr.filterMap fun x => match x.2 with
    | .received i hdr => some (i, hdr)
    | _ => none

/-- The switches that send the request to a group, one entry for each time. -/
def floods (tr : List (Event ι × Served ι)) : List ι :=
  tr.filterMap fun x => match x.2 with
    | .passed i _ out => if out.tm.mcastGrpA.isSome then some i else none
    | _ => none

def deliveries (tr : List (Event ι × Served ι)) : Nat :=
  tr.countP fun x => match x.1 with
    | .deliver .. => true
    | .notify .. => false

/-- Each list of members holds one port to every other switch and a single 0, and no switch is
behind a CPU port. -/
structure Wired [Fintype ι] (members : ι → List Port) : Prop where
  cpu : ∀ i, N.peer i (N.cpuPort i) = none
  own : ∀ i, (members i).count 0 = 1
  others : ∀ i, (((members i).filter (· ≠ 0)).map (N.peer i) : Multiset (Option ι)) =
    (Finset.univ.erase i).val.map some

/-! ## The flood group -/

variable {N}

omit N in
theorem target_cpuPort (N : SubNet ι) (i : ι) : N.target i (N.cpuPort i) = some (.cpu i) :=
  if_pos rfl

variable [Fintype ι] {members : ι → List Port} {i j : ι}

theorem perm_ringPorts {ports : List Port} {cpuPort : Port} (h : ports.count 0 = 1) :
    (SequencingTest.ringPorts ports cpuPort).Perm (cpuPort :: ports.filter (· ≠ 0)) := by
  unfold SequencingTest.ringPorts
  have hsplit : ports.Perm (0 :: ports.filter (· ≠ 0)) := by
    have hzero : ports.filter (· = 0) = [0] := by
      rw [List.filter_eq, h]
      rfl
    have hperm := (List.filter_append_perm (fun port : Port => decide (port = 0)) ports).symm
    rw [hzero, List.singleton_append] at hperm
    simpa only [decide_not] using hperm
  refine (hsplit.map _).trans ?_
  rw [List.map_cons, if_pos rfl]
  refine .cons _ (.of_eq ?_)
  refine (List.map_congr_left fun port hport => ?_).trans (List.map_id _)
  exact if_neg (of_decide_eq_true (List.mem_filter.1 hport).2)

/-- Every other switch is behind a port of its own. -/
theorem Wired.nodup (hN : N.Wired members) (i : ι) :
    (N.cpuPort i :: (members i).filter (· ≠ 0)).Nodup := by
  have hothers := hN.others i
  have hmap : (((members i).filter (· ≠ 0)).map (N.peer i)).Nodup := by
    rw [← Multiset.coe_nodup, hothers]
    exact (Finset.nodup _).map (Option.some_injective _)
  refine List.nodup_cons.2 ⟨fun hmem => ?_, hmap.of_map⟩
  have hnone : (none : Option ι) ∈ (((members i).filter (· ≠ 0)).map (N.peer i) :
      Multiset (Option ι)) := by
    rw [Multiset.mem_coe, ← hN.cpu i]
    exact List.mem_map_of_mem hmem
  rw [hothers, Multiset.mem_map] at hnone
  obtain ⟨_, -, h⟩ := hnone
  cases h

/-- The copies of a flood in the order of the group. -/
def spread (N : SubNet ι) (members : ι → List Port) (i : ι) : List (Flood.Copy ι) :=
  ((Pre.sortPorts (SequencingTest.ringPorts (members i) (N.cpuPort i))).dedup.filterMap
    (N.target i)).map fun
      | .switch j => .relayed j
      | .cpu j => .handed j

/-- **The group reaches the own control plane and every other switch,** each once. -/
theorem Wired.covers (hN : N.Wired members) (i : ι) :
    (N.spread members i : Multiset (Flood.Copy ι)) =
      .handed i ::ₘ (Finset.univ.erase i).val.map .relayed := by
  have hnodup := hN.nodup i
  have hring : (SequencingTest.ringPorts (members i) (N.cpuPort i)).Perm _ :=
    perm_ringPorts (hN.own i)
  have hsorted := (List.perm_insertionSort (fun a b : Port => a.toNat ≤ b.toNat)
    (SequencingTest.ringPorts (members i) (N.cpuPort i))).trans hring
  have htarget : ∀ port ∈ (members i).filter (· ≠ 0),
      ((N.target i port).map fun
        | .switch j => Flood.Copy.relayed j
        | .cpu j => .handed j) = (N.peer i port).map .relayed := by
    intro port hport
    have hne : port ≠ N.cpuPort i := by
      rintro rfl
      exact (List.nodup_cons.1 hnodup).1 hport
    rw [target, if_neg hne, Option.map_map]
    rfl
  have hperm : (N.spread members i).Perm (.handed i ::
      ((members i).filter (· ≠ 0)).filterMap fun port => (N.peer i port).map .relayed) := by
    unfold spread Pre.sortPorts
    rw [List.dedup_eq_self.2 (hsorted.nodup_iff.2 hnodup)]
    refine ((hsorted.filterMap _).map _).trans (.of_eq ?_)
    rw [List.filterMap_cons_some (N.target_cpuPort i), List.map_cons, List.map_filterMap]
    exact congrArg _ (List.filterMap_congr htarget)
  rw [Multiset.coe_eq_coe.2 hperm, ← Multiset.cons_coe]
  congr 1
  calc ((((members i).filter (· ≠ 0)).filterMap fun port => (N.peer i port).map Flood.Copy.relayed :
        List (Flood.Copy ι)) : Multiset (Flood.Copy ι))
      = (((members i).filter (· ≠ 0)).map (N.peer i) : Multiset (Option ι)).filterMap
          (Option.map .relayed) := by
        rw [Multiset.filterMap_coe, List.filterMap_map]
        rfl
    _ = (Finset.univ.erase i).val.map .relayed := by
        rw [hN.others, Multiset.filterMap_map]
        exact congrFun (Multiset.filterMap_eq_map _) _

/-- The flood that the network carries out. -/
def Wired.flood (hN : N.Wired members) : Flood ι := ⟨N.spread members, hN.covers⟩

/-! ## A pass of the request -/

/-- The same request: the fields that the subscriber is told by. -/
structure SameRequest (hdr hdr' : Headers) : Prop where
  streamId : hdr'.sub.streamId = hdr.sub.streamId
  clientIp : hdr'.sub.clientIp = hdr.sub.clientIp
  subscribePort : hdr'.sub.subscribePort = hdr.sub.subscribePort

/-- A copy that a switch can pass on. -/
structure Passable (hdr : Headers) : Prop where
  parsed : hdr.Parsed
  isSub : hdr.IsSub
  flag : hdr.sub.subscribe = 0 ∨ hdr.sub.subscribe = 1

/-- A copy of the request `hdr₀` in flight. -/
def Travels (hdr₀ : Headers) : Node ι × Headers → Prop
  | (.switch _, hdr) => SameRequest hdr₀ hdr ∧ Passable hdr
  | (.cpu _, hdr) => SameRequest hdr₀ hdr

/-- A switch behind its set-up and any number of notifications. -/
structure Floods (flood : List Port) (cpuPort : Port) (st : SequencingTest) : Prop where
  toAll : ∃ gs subs, SequencingTest.Subscribed (gs ++ [Pre.sortPorts flood]) subs st ∧
    st.tableSub.entry 1 = some (.sendSubscriptionToAll (BitVec.ofNat 16 (gs.length + 1)))
  toSelf : st.tableSub.entry 0 = some (.sendSubscriptionToSelf cpuPort)

section
variable {st st' : SequencingTest} {flood : List Port} {cpuPort : Port} {sub : Subscription}

theorem floods_setup {items : List (BitVec 32 × List Port)} {ports : List Port}
    (h : SequencingTest.setup items ports cpuPort = some st) :
    Floods (SequencingTest.ringPorts ports cpuPort) cpuPort st := by
  obtain ⟨hsub, hall, hself⟩ := SequencingTest.setup_some h
  refine ⟨⟨_, _, hsub, ?_⟩, hself⟩
  rw [List.length_map]
  exact hall

/-- Notifications leave the flooding alone. -/
theorem Floods.notify (h : Floods flood cpuPort st)
    (hu : st.updateStreamSubscriberTable sub = some st') : Floods flood cpuPort st' := by
  obtain ⟨⟨gs, subs, hsub, hall⟩, hself⟩ := h
  have htable := SequencingTest.tableSub_updateStreamSubscriberTable hu
  refine ⟨⟨gs, _, hsub.step hu, ?_⟩, ?_⟩
  · rw [htable]
    exact hall
  · rw [htable]
    exact hself

theorem submitted_tables {flag : BitVec 32} {action : SubmitSubscriptionAction} (t : Tables)
    (h : st.tableSub.entry flag = some action) :
    (st.tables t).submitSubscription flag = action := by
  simp only [SequencingTest.tables, h]

/-- The flag 1 sends a request to the flood group. -/
theorem Floods.submitted_one (h : Floods flood cpuPort st) (t : Tables) :
    ∃ groupId, MyIngress.submitted (st.tables t) 1 = { mcastGrpA := some groupId } ∧
      st.pre.copies groupId.toNat = (Pre.sortPorts flood).dedup := by
  obtain ⟨⟨gs, subs, hsub, hall⟩, -⟩ := h
  refine ⟨BitVec.ofNat 16 (gs.length + 1), ?_, ?_⟩
  · rw [MyIngress.submitted, submitted_tables t hall]
  · have hbound := hsub.groups.bound
    rw [List.length_append, List.length_append, List.length_singleton] at hbound
    rw [BitVec.toNat_ofNat, Nat.mod_eq_of_lt (by omega), hsub.copies_flood]

/-- The flag 0 sends it to the control plane. -/
theorem Floods.submitted_zero (h : Floods flood cpuPort st) (t : Tables) :
    MyIngress.submitted (st.tables t) 0 = { ucastEgressPort := some cpuPort } := by
  rw [MyIngress.submitted, submitted_tables t h.toSelf]

end

/-- The copy of the flood that a copy of the request is. -/
def copy : Node ι × Headers → Flood.Copy ι
  | (.switch i, hdr) => if hdr.sub.subscribe = 0 then .entering i else .relayed i
  | (.cpu i, _) => .handed i

section
variable {st : SequencingTest} {hdr hdr₀ : Headers} {p : Program} {t : Tables}
  {tstamp : BitVec 48} {regs : Registers} {out : Pipe}

theorem SameRequest.toggled (h : SameRequest hdr₀ hdr) : SameRequest hdr₀ hdr.toggled :=
  ⟨h.streamId, h.clientIp, h.subscribePort⟩

theorem Passable.apply (h : Passable hdr) (p : Program) (t : Tables) (tstamp : BitVec 48)
    (regs : Registers) : ∃ out, MyIngress.apply p t tstamp regs hdr = some out ∧
      out.hdr = hdr.toggled ∧ Passable out.hdr ∧
      out.tm = MyIngress.submitted t (toggle hdr.sub.subscribe) ∧ out.dprsr = {} := by
  obtain ⟨out, ha, hhdr, htm, hdprsr⟩ := MyIngress.apply_subscription h.parsed h.isSub p t tstamp
    regs
  refine ⟨out, ha, hhdr, ⟨MyIngress.apply_parsed h.parsed ha, ?_, ?_⟩, htm, hdprsr⟩
  · rw [hhdr]
    exact h.isSub
  · rw [hhdr]
    rcases h.flag with hflag | hflag
    · right
      simp only [Headers.toggled, toggle, hflag, ↓reduceIte]
    · left
      simp only [Headers.toggled, toggle, hflag]
      rfl

omit [Fintype ι] in
/-- A copy on any port carries what the pass has made of the request. -/
theorem travels_copies (h : SameRequest hdr₀ hdr) (hpass : Passable out.hdr)
    (hhdr : out.hdr = hdr.toggled) : ∀ x ∈ N.copies i st out, Travels hdr₀ x := by
  have hsame : SameRequest hdr₀ out.hdr := hhdr ▸ h.toggled
  intro x hx
  obtain ⟨port, -, hx⟩ := List.mem_filterMap.1 hx
  obtain ⟨node, -, rfl⟩ := Option.map_eq_some_iff.1 hx
  cases node with
  | switch j => exact ⟨hsame, hpass⟩
  | cpu j => exact hsame

/-- A pass does to a copy of the request what the flood does to the copy that it is. -/
structure Passed (hN : N.Wired members) (i : ι) (st : SequencingTest) (hdr₀ hdr : Headers)
    (out : Pipe) : Prop where
  copies : (N.copies i st out).map copy = hN.flood.delivery.causes (copy (.switch i, hdr))
  travels : ∀ x ∈ N.copies i st out, Travels hdr₀ x
  source : ((if out.tm.mcastGrpA.isSome then [i] else [] : List ι) : Multiset ι) =
    Flood.source (copy (.switch i, hdr))

/-- A request with the flag 0 is flooded. -/
theorem passed_zero (hN : N.Wired members)
    (hst : Floods (SequencingTest.ringPorts (members i) (N.cpuPort i)) (N.cpuPort i) st)
    (hsame : SameRequest hdr₀ hdr) (hpass : Passable hdr) (h0 : hdr.sub.subscribe = 0)
    (ha : MyIngress.apply p (st.tables t) tstamp regs hdr = some out) :
    Passed hN i st hdr₀ hdr out := by
  obtain ⟨_, ha', hhdr, hpass', htm, hdprsr⟩ := hpass.apply p (st.tables t) tstamp regs
  rw [ha, Option.some.injEq] at ha'
  subst ha'
  have hflag : toggle hdr.sub.subscribe = 1 := by rw [toggle, if_pos h0]
  obtain ⟨groupId, hsubmitted, hgroup⟩ := hst.submitted_one t
  rw [hflag, hsubmitted] at htm
  have hports : ports st out = (Pre.sortPorts
      (SequencingTest.ringPorts (members i) (N.cpuPort i))).dedup := by
    rw [ports, hdprsr, htm, if_pos rfl, Option.map_some, Option.getD_some, hgroup]
    exact List.append_nil _
  have hentering : copy (.switch i, hdr) = .entering i := if_pos h0
  have hone : out.hdr.sub.subscribe ≠ 0 := by
    rw [hhdr]
    change toggle hdr.sub.subscribe ≠ 0
    rw [hflag]
    exact (by decide : (1 : BitVec 32) ≠ 0)
  refine ⟨?_, travels_copies hsame hpass' hhdr, ?_⟩
  · rw [hentering]
    change _ = N.spread members i
    rw [SubNet.copies, hports, spread, List.map_filterMap, List.map_filterMap]
    refine List.filterMap_congr fun port _ => ?_
    rw [Option.map_map]
    refine congrArg (Option.map · (N.target i port)) (funext fun node => ?_)
    cases node with
    | switch j => exact if_neg hone
    | cpu j => rfl
  · rw [hentering, htm]
    rfl

/-- A request with the flag 1 goes to the control plane. -/
theorem passed_one (hN : N.Wired members)
    (hst : Floods (SequencingTest.ringPorts (members i) (N.cpuPort i)) (N.cpuPort i) st)
    (hsame : SameRequest hdr₀ hdr) (hpass : Passable hdr) (h1 : hdr.sub.subscribe = 1)
    (ha : MyIngress.apply p (st.tables t) tstamp regs hdr = some out) :
    Passed hN i st hdr₀ hdr out := by
  obtain ⟨_, ha', hhdr, hpass', htm, hdprsr⟩ := hpass.apply p (st.tables t) tstamp regs
  rw [ha, Option.some.injEq] at ha'
  subst ha'
  have hflag : toggle hdr.sub.subscribe = 0 := by
    rw [h1]
    rfl
  rw [hflag, hst.submitted_zero t] at htm
  have hports : ports st out = [N.cpuPort i] := by
    rw [ports, hdprsr, htm]
    rfl
  have hrelayed : copy (.switch i, hdr) = .relayed i := by
    refine if_neg ?_
    rw [h1]
    exact (by decide : (1 : BitVec 32) ≠ 0)
  refine ⟨?_, travels_copies hsame hpass' hhdr, ?_⟩
  · rw [hrelayed, SubNet.copies, hports, List.filterMap_cons_some
      (show _ = some (.cpu i, out.hdr) by rw [N.target_cpuPort, Option.map_some])]
    rfl
  · rw [hrelayed, htm]
    rfl

theorem passed (hN : N.Wired members)
    (hst : Floods (SequencingTest.ringPorts (members i) (N.cpuPort i)) (N.cpuPort i) st)
    (hsame : SameRequest hdr₀ hdr) (hpass : Passable hdr)
    (ha : MyIngress.apply p (st.tables t) tstamp regs hdr = some out) :
    Passed hN i st hdr₀ hdr out := by
  rcases hpass.flag with h0 | h1
  · exact passed_zero hN hst hsame hpass h0 ha
  · exact passed_one hN hst hsame hpass h1 ha

end

/-! ## Runs -/

section
variable {s s' : State ι} {e : Event ι} {o : Served ι} {tr : List (Event ι × Served ι)}
  {hdr hdr₀ : Headers} {i₀ : ι}

omit [Fintype ι] in
/-- What a step can do. -/
theorem step_cases (h : N.step s e = some (s', o)) :
    (∃ k tstamp regs i hdr out, e = .deliver k tstamp regs ∧
      s.inFlight[k]? = some (.switch i, hdr) ∧
      MyIngress.apply N.program ((s.sw i).tables (N.tables i)) tstamp regs hdr = some out ∧
      s' = { s with inFlight := s.inFlight.eraseIdx k ++ N.copies i (s.sw i) out } ∧
      o = .passed i hdr out) ∨
    (∃ k tstamp regs i hdr, e = .deliver k tstamp regs ∧
      s.inFlight[k]? = some (.cpu i, hdr) ∧
      s' = { s with inFlight := s.inFlight.eraseIdx k } ∧ o = .received i hdr) ∨
    ∃ i sub st, e = .notify i sub ∧ (s.sw i).updateStreamSubscriberTable sub = some st ∧
      s' = { s with sw := Function.update s.sw i st } ∧ o = .noted := by
  cases e with
  | deliver k tstamp regs =>
    simp only [step] at h
    split at h
    · rename_i i hdr hk
      simp only [Option.map_eq_some_iff, Prod.mk.injEq] at h
      obtain ⟨out, ha, rfl, rfl⟩ := h
      exact .inl ⟨k, tstamp, regs, i, hdr, out, rfl, hk, ha, rfl, rfl⟩
    · rename_i i hdr hk
      simp only [Option.some.injEq, Prod.mk.injEq] at h
      obtain ⟨rfl, rfl⟩ := h
      exact .inr (.inl ⟨k, tstamp, regs, i, hdr, rfl, hk, rfl, rfl⟩)
    · cases h
  | notify i sub =>
    simp only [step, Option.map_eq_some_iff, Prod.mk.injEq] at h
    obtain ⟨st, hu, rfl, rfl⟩ := h
    exact .inr (.inr ⟨i, sub, st, rfl, hu, rfl, rfl⟩)

/-- The step of the flood that a step of the network is. -/
def record : Event ι × Served ι → Option (Nat × Flood.Copy ι)
  | (.deliver k _ _, .passed i hdr _) => some (k, copy (.switch i, hdr))
  | (.deliver k _ _, .received i hdr) => some (k, copy (.cpu i, hdr))
  | _ => none

/-- Every switch is set up, and every copy in flight is one of the request. -/
structure Sound (N : SubNet ι) (members : ι → List Port) (hdr₀ : Headers) (s : State ι) : Prop where
  sw : ∀ i, Floods (SequencingTest.ringPorts (members i) (N.cpuPort i)) (N.cpuPort i) (s.sw i)
  inFlight : ∀ x ∈ s.inFlight, Travels hdr₀ x

omit [Fintype ι] [DecidableEq ι] in
theorem Sound.deliver (h : Sound N members hdr₀ s) {k : Nat} {new : List (Node ι × Headers)}
    (hnew : ∀ x ∈ new, Travels hdr₀ x) :
    Sound N members hdr₀ { s with inFlight := s.inFlight.eraseIdx k ++ new } := by
  refine ⟨h.sw, fun x hx => ?_⟩
  rcases List.mem_append.1 hx with hx | hx
  · exact h.inFlight x (List.mem_of_mem_eraseIdx hx)
  · exact hnew x hx

omit [Fintype ι] in
theorem Sound.notify (h : Sound N members hdr₀ s) {sub : Subscription} {st : SequencingTest}
    (hu : (s.sw i).updateStreamSubscriberTable sub = some st) :
    Sound N members hdr₀ { s with sw := Function.update s.sw i st } := by
  refine ⟨fun j => ?_, h.inFlight⟩
  by_cases hj : j = i
  · subst hj
    simp only [Function.update_self]
    exact (h.sw j).notify hu
  · simp only [Function.update_of_ne hj]
    exact h.sw j

/-- The network follows the flood, and its trace reads off what the flood does. -/
structure Tracks (hN : N.Wired members) (hdr₀ : Headers) (i₀ : ι)
    (tr : List (Event ι × Served ι)) (s : State ι) : Prop where
  sound : Sound N members hdr₀ s
  run : hN.flood.delivery.machine.Run [.entering i₀] (tr.filterMap record) (s.inFlight.map copy)
  same : ∀ x ∈ received tr, SameRequest hdr₀ x.2
  received : ((received tr).map Prod.fst : Multiset ι) = Flood.received (tr.filterMap record)
  floods : (floods tr : Multiset ι) =
    ((Delivery.delivered (tr.filterMap record)).map Flood.source).sum
  deliveries : deliveries tr = (tr.filterMap record).length

/-- A delivery is a step of the flood. -/
theorem flood_step (hN : N.Wired members) {k : Nat} {x : Node ι × Headers}
    {new : List (Node ι × Headers)} (hk : s.inFlight[k]? = some x)
    (hnew : new.map copy = hN.flood.delivery.causes (copy x)) :
    hN.flood.delivery.machine.step (s.inFlight.map copy) k =
      some ((s.inFlight.eraseIdx k ++ new).map copy, copy x) := by
  simp only [Delivery.machine, List.getElem?_map, hk, Option.map_some, List.map_append, hnew,
    List.eraseIdx_map]

theorem tracks_nil (hN : N.Wired members) (hs : Sound N members hdr₀ s)
    (hstart : s.inFlight.map copy = [.entering i₀]) : Tracks hN hdr₀ i₀ [] s where
  sound := hs
  run := by
    rw [hstart]
    exact .nil _
  same x hx := absurd hx List.not_mem_nil
  received := rfl
  floods := rfl
  deliveries := rfl

omit [Fintype ι] [DecidableEq ι] in
theorem received_append (tr tr' : List (Event ι × Served ι)) :
    received (tr ++ tr') = received tr ++ received tr' := List.filterMap_append ..

omit [Fintype ι] [DecidableEq ι] in
theorem floods_append (tr tr' : List (Event ι × Served ι)) :
    floods (tr ++ tr') = floods tr ++ floods tr' := List.filterMap_append ..

omit [Fintype ι] [DecidableEq ι] in
theorem deliveries_append (tr tr' : List (Event ι × Served ι)) :
    deliveries (tr ++ tr') = deliveries tr + deliveries tr' := List.countP_append ..

/-- A delivery, with what it adds to the trace. -/
theorem Tracks.deliver {hN : N.Wired members} (h : Tracks hN hdr₀ i₀ tr s) {k : Nat}
    {x : Node ι × Headers} {new : List (Node ι × Headers)} (hk : s.inFlight[k]? = some x)
    (hnew : new.map copy = hN.flood.delivery.causes (copy x))
    (htravels : ∀ y ∈ new, Travels hdr₀ y) (hrecord : record (e, o) = some (k, copy x))
    (hsame : ∀ y ∈ SubNet.received [(e, o)], SameRequest hdr₀ y.2)
    (hgiven : ((SubNet.received [(e, o)]).map Prod.fst : Multiset ι) = Flood.given (copy x))
    (hsource : (SubNet.floods [(e, o)] : Multiset ι) = Flood.source (copy x))
    (hone : SubNet.deliveries [(e, o)] = 1) :
    Tracks hN hdr₀ i₀ (tr ++ [(e, o)]) { s with inFlight := s.inFlight.eraseIdx k ++ new } := by
  have htr : (tr ++ [(e, o)]).filterMap record = tr.filterMap record ++ [(k, copy x)] := by
    rw [List.filterMap_append, List.filterMap_cons_some hrecord, List.filterMap_nil]
  constructor
  · exact h.sound.deliver htravels
  · rw [htr]
    exact h.run.snoc (flood_step hN hk hnew)
  · rw [received_append]
    intro y hy
    rcases List.mem_append.1 hy with hy | hy
    · exact h.same y hy
    · exact hsame y hy
  · rw [received_append, List.map_append, ← Multiset.coe_add, h.received, hgiven, htr,
      Flood.received, Flood.received, Delivery.delivered_snoc, List.map_append, List.sum_append,
      List.map_singleton, List.sum_singleton]
  · rw [floods_append, ← Multiset.coe_add, h.floods, hsource, htr, Delivery.delivered_snoc,
      List.map_append, List.sum_append, List.map_singleton, List.sum_singleton]
  · rw [deliveries_append, h.deliveries, hone, htr, List.length_append, List.length_singleton]

/-- A delivery to a switch. -/
theorem Tracks.passed {hN : N.Wired members} (h : Tracks hN hdr₀ i₀ tr s) {k : Nat}
    {tstamp : BitVec 48} {regs : Registers} {out : Pipe}
    (hk : s.inFlight[k]? = some (.switch i, hdr))
    (ha : MyIngress.apply N.program ((s.sw i).tables (N.tables i)) tstamp regs hdr = some out) :
    Tracks hN hdr₀ i₀ (tr ++ [(.deliver k tstamp regs, .passed i hdr out)])
      { s with inFlight := s.inFlight.eraseIdx k ++ N.copies i (s.sw i) out } := by
  obtain ⟨hsame, hpass⟩ := h.sound.inFlight _ (List.mem_of_getElem? hk)
  obtain ⟨hcopies, htravels, hsource⟩ := SubNet.passed hN (h.sound.sw i) hsame hpass ha
  have hgiven : 0 = Flood.given (copy (Node.switch i, hdr)) := by
    simp only [copy]
    split
    · rfl
    · rfl
  have hfloods : SubNet.floods [(Event.deliver k tstamp regs, Served.passed i hdr out)] =
      if out.tm.mcastGrpA.isSome then [i] else [] := by
    cases hmcast : out.tm.mcastGrpA with
    | none => simp [SubNet.floods, hmcast]
    | some groupId => simp [SubNet.floods, hmcast]
  refine h.deliver hk hcopies htravels rfl (fun y hy => nomatch hy) hgiven ?_ rfl
  rw [hfloods, hsource]

/-- A delivery to a control plane. -/
theorem Tracks.handed {hN : N.Wired members} (h : Tracks hN hdr₀ i₀ tr s) {k : Nat}
    {tstamp : BitVec 48} {regs : Registers} (hk : s.inFlight[k]? = some (.cpu i, hdr)) :
    Tracks hN hdr₀ i₀ (tr ++ [(.deliver k tstamp regs, .received i hdr)])
      { s with inFlight := s.inFlight.eraseIdx k } := by
  have hsame : SameRequest hdr₀ hdr := h.sound.inFlight _ (List.mem_of_getElem? hk)
  have hnil : ([] : List (Node ι × Headers)).map copy = [] := List.map_nil
  have hdeliver := h.deliver (e := .deliver k tstamp regs) (o := .received i hdr) hk hnil
    (fun y hy => nomatch hy) rfl ?_ rfl rfl rfl
  · rwa [List.append_nil] at hdeliver
  · intro y hy
    rw [List.mem_singleton.1 hy]
    exact hsame

/-- A notification. -/
theorem Tracks.noted {hN : N.Wired members} (h : Tracks hN hdr₀ i₀ tr s) {sub : Subscription}
    {st : SequencingTest} (hu : (s.sw i).updateStreamSubscriberTable sub = some st) :
    Tracks hN hdr₀ i₀ (tr ++ [(.notify i sub, .noted)])
      { s with sw := Function.update s.sw i st } := by
  have hrecord : (tr ++ [(Event.notify i sub, Served.noted)]).filterMap record =
      tr.filterMap record := by
    rw [List.filterMap_append]
    exact List.append_nil _
  have hreceived : SubNet.received (tr ++ [(Event.notify i sub, Served.noted)]) =
      SubNet.received tr := (received_append ..).trans (List.append_nil _)
  have hfloods : SubNet.floods (tr ++ [(Event.notify i sub, Served.noted)]) =
      SubNet.floods tr := (floods_append ..).trans (List.append_nil _)
  constructor
  · exact h.sound.notify hu
  · rw [hrecord]
    exact h.run
  · rw [hreceived]
    exact h.same
  · rw [hreceived, hrecord]
    exact h.received
  · rw [hfloods, hrecord]
    exact h.floods
  · rw [deliveries_append, hrecord, h.deliveries]
    rfl

theorem Tracks.step {hN : N.Wired members} (h : Tracks hN hdr₀ i₀ tr s)
    (hs : N.step s e = some (s', o)) : Tracks hN hdr₀ i₀ (tr ++ [(e, o)]) s' := by
  rcases step_cases hs with ⟨k, tstamp, regs, i, hdr, out, rfl, hk, ha, rfl, rfl⟩ |
    ⟨k, tstamp, regs, i, hdr, rfl, hk, rfl, rfl⟩ | ⟨i, sub, st, rfl, hu, rfl, rfl⟩
  · exact h.passed hk ha
  · exact h.handed hk
  · exact h.noted hu

/-- **The network follows the flood in every run.** -/
theorem tracks_run (hN : N.Wired members) (hs : Sound N members hdr₀ s)
    (hstart : s.inFlight.map copy = [.entering i₀]) (h : N.machine.Run s tr s') :
    Tracks hN hdr₀ i₀ tr s' := by
  induction h with
  | nil => exact tracks_nil hN hs hstart
  | snoc _ hstep ih => exact ih.step hstep

omit [Fintype ι] in
/-- A copy of the request that is in flight can be delivered next. -/
theorem Sound.deliverable (h : Sound N members hdr₀ s) {k : Nat} (hk : k < s.inFlight.length)
    (tstamp : BitVec 48) (regs : Registers) :
    ∃ s' o, N.machine.step s (.deliver k tstamp regs) = some (s', o) := by
  have hget := List.getElem?_eq_getElem hk
  generalize s.inFlight[k] = x at hget
  obtain ⟨node, hdr⟩ := x
  cases node with
  | switch i =>
    obtain ⟨-, hpass⟩ := h.inFlight _ (List.mem_of_getElem? hget)
    obtain ⟨out, ha, -⟩ := hpass.apply N.program ((s.sw i).tables (N.tables i)) tstamp regs
    have hstep : N.step s (.deliver k tstamp regs) =
        some ({ s with inFlight := s.inFlight.eraseIdx k ++ N.copies i (s.sw i) out },
          .passed i hdr out) := by
      simp only [step, hget, ha]
      rfl
    exact ⟨_, _, hstep⟩
  | cpu i =>
    have hstep : N.step s (.deliver k tstamp regs) =
        some ({ s with inFlight := s.inFlight.eraseIdx k }, .received i hdr) := by
      simp only [step, hget]
    exact ⟨_, _, hstep⟩

/-- The last copy is gone when the flood is over. -/
theorem Tracks.inFlight_nil_iff {hN : N.Wired members} (h : Tracks hN hdr₀ i₀ tr s) :
    s.inFlight = [] ↔ SubNet.deliveries tr = 2 * Fintype.card ι := by
  rw [h.deliveries, ← Flood.nil_iff_length h.run, List.map_eq_nil_iff]

/-- Every run can go on until nothing is in flight. -/
theorem Tracks.exists_quiet {hN : N.Wired members} {s₀ : State ι} (m : Nat)
    (hr : N.machine.Run s₀ tr s) (h : Tracks hN hdr₀ i₀ tr s)
    (hm : SubNet.deliveries tr + m = 2 * Fintype.card ι) :
    ∃ tr' s', N.machine.Run s₀ tr' s' ∧ s'.inFlight = [] := by
  induction m generalizing tr s with
  | zero => exact ⟨tr, s, hr, h.inFlight_nil_iff.2 hm⟩
  | succ m ih =>
    have hpos : 0 < s.inFlight.length := by
      rw [List.length_pos_iff, Ne, h.inFlight_nil_iff]
      omega
    obtain ⟨s', o, hstep⟩ := h.sound.deliverable hpos 0 {}
    refine ih (hr.snoc hstep) (h.step hstep) ?_
    rw [deliveries_append]
    change SubNet.deliveries tr + 1 + m = _
    omega

variable {items : ι → List (BitVec 32 × List Port)} {sw : ι → SequencingTest}

/-- A request that comes in at the switch `i`. -/
def enters (sw : ι → SequencingTest) (i : ι) (hdr : Headers) : State ι :=
  ⟨sw, [(.switch i, hdr)]⟩

omit [DecidableEq ι] [Fintype ι] in
theorem sound_enters (hset : ∀ i, SequencingTest.setup (items i) (members i) (N.cpuPort i) =
      some (sw i)) (hp : hdr.Parsed) (hs : hdr.IsSub) (h0 : hdr.sub.subscribe = 0) :
    Sound N members hdr (enters sw i hdr) := by
  refine ⟨fun j => floods_setup (hset j), fun x hx => ?_⟩
  rw [List.mem_singleton.1 hx]
  exact ⟨⟨rfl, rfl, rfl⟩, hp, hs, .inl h0⟩

omit [DecidableEq ι] [Fintype ι] in
theorem copy_enters (h0 : hdr.sub.subscribe = 0) :
    (enters sw i hdr).inFlight.map copy = [.entering i] :=
  congrArg (fun c => [c]) (if_pos h0)

/-- **A request reaches every control plane once, and the flooding ends** with the delivery `2 * n`,
the first of which is that of the request itself: in every order, with any other traffic at the
switches and with any subscribers added meanwhile. Only the switch where the request comes in floods
it, once, and until the end any copy can be delivered next. -/
theorem flooding_notifies_once (hN : N.Wired members)
    (hset : ∀ i, SequencingTest.setup (items i) (members i) (N.cpuPort i) = some (sw i))
    (hp : hdr.Parsed) (hs : hdr.IsSub) (h0 : hdr.sub.subscribe = 0)
    (hr : N.machine.Run (enters sw i hdr) tr s) :
    (∀ x ∈ received tr, SameRequest hdr x.2) ∧
      (∀ j, ((received tr).map Prod.fst).count j ≤ 1) ∧
      (s.inFlight = [] → ∀ j, ((received tr).map Prod.fst).count j = 1) ∧
      (∀ j, (floods tr).count j ≤ if j = i then 1 else 0) ∧
      deliveries tr ≤ 2 * Fintype.card ι ∧
      (s.inFlight = [] ↔ deliveries tr = 2 * Fintype.card ι) ∧
      ∀ k < s.inFlight.length, ∀ tstamp regs,
        ∃ s' o, N.machine.step s (.deliver k tstamp regs) = some (s', o) := by
  have h := tracks_run hN (sound_enters hset hp hs h0) (copy_enters h0) hr
  refine ⟨h.same, ?_, ?_, ?_, ?_, h.inFlight_nil_iff, ?_⟩
  · intro j
    rw [← Multiset.coe_count, h.received]
    exact Flood.count_received_le h.run j
  · intro hnil j
    have hrun := h.run
    rw [hnil] at hrun
    rw [← Multiset.coe_count, h.received]
    exact Flood.count_received hrun j
  · intro j
    rw [← Multiset.coe_count, h.floods, ← Multiset.count_singleton]
    exact Multiset.count_le_of_le j (Flood.spread_once h.run)
  · rw [h.deliveries]
    exact Flood.length_le h.run
  · intro k hk tstamp regs
    exact h.sound.deliverable hk tstamp regs

end

/-- Two switches that are connected through their ports 9. -/
def pair : SubNet (Fin 2) where
  program := .sequencingOnly
  tables _ := {}
  cpuPort _ := 64
  peer i port := if port = 9 then some (1 - i) else none

def pairMembers (i : Fin 2) : List Port := if i = 0 then [0, 9] else [9, 0]

/-- A request for the stream 7. -/
def subscribe : Headers where
  ethernet := { isValid := true }
  ipv4 := { isValid := true }
  udp := { isValid := true }
  ringType := { isValid := true, type := typeSub }
  sub := { isValid := true, streamId := 7 }

theorem pair_notified_once : ∃ sw tr s, pair.machine.Run (enters sw 0 subscribe) tr s ∧
    s.inFlight = [] ∧ deliveries tr = 4 ∧ (∀ x ∈ received tr, x.2.sub.streamId = 7) ∧
    ∀ j, ((received tr).map Prod.fst).count j = 1 := by
  have hN : pair.Wired pairMembers := by constructor <;> decide
  have hset : ∀ i, ∃ st, SequencingTest.setup [] (pairMembers i) (pair.cpuPort i) = some st :=
    fun i => SequencingTest.setup_exists [] _ _ (by decide) List.nodup_nil
  choose sw hsw using hset
  have hp : subscribe.Parsed := by constructor <;> rfl
  have h := tracks_nil hN (sound_enters (i := 0) hsw hp ⟨rfl, rfl⟩ rfl) (copy_enters rfl)
  obtain ⟨tr, s, hr, hquiet⟩ := h.exists_quiet 4 (.nil _) rfl
  obtain ⟨hsame, -, honce, -, -, hend, -⟩ :=
    flooding_notifies_once hN hsw hp ⟨rfl, rfl⟩ rfl hr
  exact ⟨sw, tr, s, hr, hquiet, hend.1 hquiet, fun x hx => (hsame x hx).streamId, honce hquiet⟩

end SubNet

end Pringles.Control
