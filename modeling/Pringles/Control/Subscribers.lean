import Pringles.Control.ShardGroups
import Pringles.Lib.FirstOrder
import Pringles.P4.Subscription

/-!
# The subscribers' multicast groups

A stream's first subscription makes a group for the stream and a mirror session with two groups, the
stream's own and the general one; later subscriptions add their port to the stream's group. The
general group is the flood group of the ring until stream 0 is subscribed to, and the group of stream
0 from then on. A session keeps the general group of the moment in which it was made.
-/

namespace Pringles.Control

open Pringles.P4

/-- A stream and the port of the subscriber. -/
abbrev Subscription := BitVec 32 × Port

namespace SequencingTest

open FirstOrder (keys values)

/-! ## The handlers -/

/-- The ports of the flood group. -/
def ringPorts (portsToRingMembers : List Port) (cpuPort : Port) : List Port :=
  portsToRingMembers.map fun port => if port = 0 then cpuPort else port

/-- `setup_subscribe_routing_table`. -/
def setupSubscribeRoutingTable (st : SequencingTest) (portsToRingMembers : List Port)
    (cpuPort : Port) : Option SequencingTest := do
  let (_, pre) ← st.pre.addGroup st.globalGroupId (ringPorts portsToRingMembers cpuPort)
  let tableSub ← st.tableSub.add 1 (.sendSubscriptionToAll (BitVec.ofNat 16 st.globalGroupId))
  let tableSub ← tableSub.add 0 (.sendSubscriptionToSelf cpuPort)
  pure { st with
    pre := pre, generalSubGroup := st.globalGroupId, tableSub := tableSub
    globalGroupId := st.globalGroupId + 1 }

/-- `update_stream_subscriber_table`. -/
def updateStreamSubscriberTable (st : SequencingTest) (sub : Subscription) :
    Option SequencingTest :=
  match st.streamSubDict.entry sub.1 with
  | none => do
    let streamGroupId := st.globalGroupId
    let generalSubGroup := if sub.1 = 0 then streamGroupId else st.generalSubGroup
    let (l1, pre) ← st.pre.addGroup streamGroupId [sub.2]
    let mirrorCfgTable ← st.mirrorCfgTable.add st.sid
      ⟨generalSubGroup, if sub.1 = 0 then none else some streamGroupId⟩
    let tableAcks ← st.tableAcks.add sub.1 (BitVec.ofNat 10 st.sid)
    pure { st with
      pre := pre, generalSubGroup := generalSubGroup
      streamSubDict := st.streamSubDict.set sub.1 l1, mirrorCfgTable := mirrorCfgTable
      tableAcks := tableAcks, globalGroupId := st.globalGroupId + 1, sid := st.sid + 1 }
  | some l1 => do
    let pre ← st.pre.addMbrs l1 [sub.2]
    pure { st with pre := pre }

/-- The notifications, one after the other. -/
def updates (st : SequencingTest) (subs : List Subscription) : Option SequencingTest :=
  subs.foldlM updateStreamSubscriberTable st

/-- The set-up of a switch, as far as it makes groups. -/
def setup (items : List (BitVec 32 × List Port)) (portsToRingMembers : List Port)
    (cpuPort : Port) : Option SequencingTest := do
  let st ← ({} : SequencingTest).setupShardMulticastGroups items
  st.setupSubscribeRoutingTable portsToRingMembers cpuPort

/-- The ports to which a mirror session copies, one entry for each copy. -/
def sessionCopies (st : SequencingTest) (session : BitVec 10) : List Port :=
  match st.mirrorCfgTable.entry session.toNat with
  | none => []
  | some m => st.pre.copies m.mcastGrpA ++ (m.mcastGrpB.map st.pre.copies).getD []

/-- The ports to which the mirror copy of a packet goes. -/
def mirrored (st : SequencingTest) (out : Pipe) : List Port :=
  match out.mirrorSession with
  | none => []
  | some session => st.sessionCopies session

/-! ## What the tables hold

`gs` are the groups made by the set-up, the flood group last. -/

variable {gs : List (List Port)} {subs : List Subscription} {sub : Subscription}
  {st st' : SequencingTest} {s : BitVec 32}

/-- The group of a stream, by the order of first subscriptions. -/
def streamGroup (gs : List (List Port)) (subs : List Subscription) (s : BitVec 32) : Nat :=
  gs.length + (keys subs).idxOf s + 1

/-- Stream 0 is subscribed to, and was before `s`. -/
def GeneralFirst (subs : List Subscription) (s : BitVec 32) : Prop :=
  0 ∈ keys subs ∧ (keys subs).idxOf 0 ≤ (keys subs).idxOf s

instance : Decidable (GeneralFirst subs s) := inferInstanceAs (Decidable (_ ∧ _))

/-- The general group in the session of a stream. -/
def generalGroup (gs : List (List Port)) (subs : List Subscription) (s : BitVec 32) : Nat :=
  if GeneralFirst subs s then streamGroup gs subs 0 else gs.length

def session (gs : List (List Port)) (subs : List Subscription) (s : BitVec 32) : MirrorSession :=
  ⟨generalGroup gs subs s, if s = 0 then none else some (streamGroup gs subs s)⟩

/-- The state behind the notifications `subs`. -/
structure Subscribed (gs : List (List Port)) (subs : List Subscription) (st : SequencingTest) :
    Prop where
  groups : st.Groups (gs ++ (keys subs).map fun s => Pre.sortPorts (values subs s))
  sid : st.sid = (keys subs).length + 1
  general : st.generalSubGroup =
    if 0 ∈ keys subs then streamGroup gs subs 0 else gs.length
  dict : ∀ s, st.streamSubDict.entry s =
    if s ∈ keys subs then some (streamGroup gs subs s) else none
  acks : ∀ s, st.tableAcks.entry s =
    if s ∈ keys subs then some (BitVec.ofNat 10 ((keys subs).idxOf s + 1)) else none
  mirror : ∀ s ∈ keys subs,
    st.mirrorCfgTable.entry ((keys subs).idxOf s + 1) = some (session gs subs s)
  fresh : ∀ k, (keys subs).length < k → st.mirrorCfgTable.entry k = none

theorem subscribed_nil (hg : st.Groups gs) (hsid : st.sid = 1)
    (hgeneral : st.generalSubGroup = gs.length) (hdict : st.streamSubDict = .empty)
    (hmirror : st.mirrorCfgTable = .empty) (hacks : st.tableAcks = .empty) :
    Subscribed gs [] st where
  groups := by simpa [keys] using hg
  sid := hsid
  general := hgeneral
  dict s := by rw [hdict]; rfl
  acks s := by rw [hacks]; rfl
  mirror s hs := absurd hs List.not_mem_nil
  fresh k _ := by rw [hmirror]; rfl

/-! ### One notification -/

theorem streamGroup_snoc (h : s ∈ keys subs) :
    streamGroup gs (subs ++ [sub]) s = streamGroup gs subs s := by
  rw [streamGroup, FirstOrder.idxOf_keys_snoc h, streamGroup]

theorem generalFirst_snoc (h : s ∈ keys subs) :
    GeneralFirst (subs ++ [sub]) s ↔ GeneralFirst subs s := by
  obtain ⟨k, v⟩ := sub
  unfold GeneralFirst
  by_cases h0 : 0 ∈ keys subs
  · rw [FirstOrder.mem_keys_snoc, FirstOrder.idxOf_keys_snoc h0, FirstOrder.idxOf_keys_snoc h]
    simp only [h0, true_or, true_and]
  · refine iff_of_false ?_ fun hg => h0 hg.1
    rintro ⟨hmem, hle⟩
    rcases FirstOrder.mem_keys_snoc.1 hmem with hmem | rfl
    · exact h0 hmem
    · -- the new key stands behind `s`
      rw [FirstOrder.idxOf_keys_self h0, FirstOrder.idxOf_keys_snoc h] at hle
      have hlt := List.idxOf_lt_length_iff.2 h
      omega

/-- A session keeps the general group that it was made with. -/
theorem session_snoc (h : s ∈ keys subs) :
    session gs (subs ++ [sub]) s = session gs subs s := by
  unfold session generalGroup
  rw [streamGroup_snoc h]
  by_cases hg : GeneralFirst subs s
  · rw [if_pos hg, if_pos ((generalFirst_snoc h).2 hg), streamGroup_snoc hg.1]
  · rw [if_neg hg, if_neg (mt (generalFirst_snoc h).1 hg)]

/-- The groups after another subscription to a stream that has a group. -/
theorem set_groups {k : BitVec 32} {port : Port} (hk : k ∈ keys subs) :
    (gs ++ (keys subs).map fun s => Pre.sortPorts (values subs s)).set
      (gs.length + (keys subs).idxOf k) (Pre.sortPorts (Pre.sortPorts (values subs k) ++ [port])) =
    gs ++ (keys (subs ++ [(k, port)])).map fun s =>
      Pre.sortPorts (values (subs ++ [(k, port)]) s) := by
  have hvalues : values (subs ++ [(k, port)]) k = values subs k ++ [port] := by
    rw [FirstOrder.values_snoc, if_pos rfl]
  rw [List.set_append_right _ _ (by omega), Nat.add_sub_cancel_left, Pre.sortPorts_append, ← hvalues,
    FirstOrder.keys_snoc, if_pos hk]
  congr 1
  refine FirstOrder.set_map_keys (g := fun s => Pre.sortPorts (values (subs ++ [(k, port)]) s))
    hk ?_
  intro k' hne
  simp only [FirstOrder.values_snoc, if_neg (Ne.symm hne)]

/-- The groups after the first subscription to a stream. -/
theorem append_groups {k : BitVec 32} {port : Port} (hk : k ∉ keys subs) :
    (gs ++ (keys subs).map fun s => Pre.sortPorts (values subs s)) ++ [Pre.sortPorts [port]] =
    gs ++ (keys (subs ++ [(k, port)])).map fun s =>
      Pre.sortPorts (values (subs ++ [(k, port)]) s) := by
  rw [FirstOrder.keys_snoc, if_neg hk, List.map_append, ← List.append_assoc]
  congr 1
  · congr 1
    refine List.map_congr_left fun s hs => ?_
    have hne : k ≠ s := by
      rintro rfl
      exact hk hs
    rw [FirstOrder.values_snoc, if_neg hne]
  · rw [List.map_singleton, FirstOrder.values_snoc, if_pos rfl, FirstOrder.values_eq_nil hk]
    rfl

/-- A further subscription to a stream adds a port to its group. -/
theorem Subscribed.step_old (h : Subscribed gs subs st) (hk : sub.1 ∈ keys subs) :
    ∃ st', st.updateStreamSubscriberTable sub = some st' ∧
      Subscribed gs (subs ++ [sub]) st' := by
  obtain ⟨k, port⟩ := sub
  have hkeys : keys (subs ++ [(k, port)]) = keys subs := by
    rw [FirstOrder.keys_snoc, if_pos hk]
  have hold : (gs ++ (keys subs).map fun s => Pre.sortPorts (values subs s))[gs.length +
      (keys subs).idxOf k]? = some (Pre.sortPorts (values subs k)) := by
    rw [List.getElem?_append_right (by omega), Nat.add_sub_cancel_left,
      FirstOrder.getElem?_map_keys hk]
  obtain ⟨pre, hadd, hrep⟩ := h.groups.represents.addMbrs hold [port]
  rw [set_groups hk] at hrep
  have hdict := h.dict k
  rw [if_pos hk] at hdict
  have hupdate : st.updateStreamSubscriberTable (k, port) = some { st with pre := pre } := by
    simp only [updateStreamSubscriberTable, hdict]
    rw [streamGroup, hadd]
    rfl
  refine ⟨_, hupdate, ?_⟩
  constructor
  · refine ⟨hrep, ?_, ?_⟩
    · rw [h.groups.globalGroupId, List.length_append, List.length_append, List.length_map,
        List.length_map, hkeys]
    · have hbound := h.groups.bound
      rw [List.length_append, List.length_map] at hbound ⊢
      rw [hkeys]
      exact hbound
  · rw [hkeys]
    exact h.sid
  · simp only [streamGroup, hkeys]
    exact h.general
  · simp only [streamGroup, hkeys]
    exact h.dict
  · rw [hkeys]
    exact h.acks
  · intro s hs
    rw [hkeys] at hs ⊢
    rw [session_snoc hs]
    exact h.mirror s hs
  · rw [hkeys]
    exact h.fresh

/-- A stream that is new has the last group. -/
theorem streamGroup_self (hk : sub.1 ∉ keys subs) :
    streamGroup gs (subs ++ [sub]) sub.1 = gs.length + (keys subs).length + 1 := by
  rw [streamGroup, FirstOrder.idxOf_keys_self hk]

/-- Its session has the general group of the moment. -/
theorem session_self (h : Subscribed gs subs st) (hk : sub.1 ∉ keys subs) :
    session gs (subs ++ [sub]) sub.1 =
      ⟨if sub.1 = 0 then gs.length + (keys subs).length + 1 else st.generalSubGroup,
        if sub.1 = 0 then none else some (gs.length + (keys subs).length + 1)⟩ := by
  have hmem : ∀ s, s ∈ keys (subs ++ [sub]) ↔ s ∈ keys subs ∨ s = sub.1 :=
    fun s => FirstOrder.mem_keys_snoc
  rw [session, streamGroup_self hk]
  congr 1
  unfold generalGroup
  by_cases h0 : sub.1 = 0
  · have hfirst : GeneralFirst (subs ++ [sub]) sub.1 := by
      rw [h0]
      exact ⟨(hmem 0).2 (.inr h0.symm), Nat.le_refl _⟩
    rw [if_pos h0, if_pos hfirst, ← h0, streamGroup_self hk]
  · rw [if_neg h0, h.general]
    by_cases hg : 0 ∈ keys subs
    · have hlt := List.idxOf_lt_length_iff.2 hg
      have hfirst : GeneralFirst (subs ++ [sub]) sub.1 := by
        refine ⟨(hmem 0).2 (.inl hg), ?_⟩
        rw [FirstOrder.idxOf_keys_snoc hg, FirstOrder.idxOf_keys_self hk]
        omega
      rw [if_pos hfirst, if_pos hg, streamGroup_snoc hg]
    · have hnot : ¬ GeneralFirst (subs ++ [sub]) sub.1 := by
        rintro ⟨hmem0, -⟩
        rcases (hmem 0).1 hmem0 with hmem0 | hmem0
        · exact hg hmem0
        · exact h0 hmem0.symm
      rw [if_neg hnot, if_neg hg]

/-- The general group behind the first subscription to a stream. -/
theorem general_snoc (h : Subscribed gs subs st) (sub : Subscription) :
    (if sub.1 = 0 then streamGroup gs (subs ++ [sub]) sub.1 else st.generalSubGroup) =
      if 0 ∈ keys (subs ++ [sub]) then streamGroup gs (subs ++ [sub]) 0 else gs.length := by
  have hmem : 0 ∈ keys (subs ++ [sub]) ↔ 0 ∈ keys subs ∨ 0 = sub.1 := FirstOrder.mem_keys_snoc
  by_cases h0 : sub.1 = 0
  · rw [if_pos h0, if_pos (hmem.2 (.inr h0.symm)), h0]
  · rw [if_neg h0, h.general]
    by_cases hg : 0 ∈ keys subs
    · rw [if_pos hg, if_pos (hmem.2 (.inl hg)), streamGroup_snoc hg]
    · rw [if_neg hg, if_neg fun hm => (hmem.1 hm).elim hg (Ne.symm h0)]

/-- A table with an entry for each stream gets another one for a new stream. -/
theorem entry_set_snoc {α : Type} {table : ExactTable (BitVec 32) α} {f : BitVec 32 → α}
    (h : ∀ s, table.entry s = if s ∈ keys subs then some (f s) else none) (f' : BitVec 32 → α)
    (hold : ∀ s ∈ keys subs, f' s = f s) (k : BitVec 32) (port : Port) (s : BitVec 32) :
    (table.set k (f' k)).entry s =
      if s ∈ keys (subs ++ [(k, port)]) then some (f' s) else none := by
  have hmem : s ∈ keys (subs ++ [(k, port)]) ↔ s ∈ keys subs ∨ s = k := FirstOrder.mem_keys_snoc
  by_cases hs : s = k
  · subst hs
    rw [ExactTable.entry_set_self, if_pos (hmem.2 (.inr rfl))]
  · rw [ExactTable.entry_set_ne hs, h]
    by_cases hin : s ∈ keys subs
    · rw [if_pos hin, if_pos (hmem.2 (.inl hin)), hold s hin]
    · rw [if_neg hin, if_neg fun hm => (hmem.1 hm).elim hin hs]

/-- The first subscription to a stream makes its group and its session, as long as there is room. -/
theorem Subscribed.step_new (h : Subscribed gs subs st) (hk : sub.1 ∉ keys subs)
    (hlt : gs.length + (keys subs).length < 0x321) :
    ∃ st', st.updateStreamSubscriberTable sub = some st' ∧
      Subscribed gs (subs ++ [sub]) st' := by
  obtain ⟨k, port⟩ := sub
  have hlen : (gs ++ (keys subs).map fun s => Pre.sortPorts (values subs s)).length =
      gs.length + (keys subs).length := by
    rw [List.length_append, List.length_map]
  have hkeys : keys (subs ++ [(k, port)]) = keys subs ++ [k] := by
    rw [FirstOrder.keys_snoc, if_neg hk]
  have hself : session gs (subs ++ [(k, port)]) k =
      ⟨if k = 0 then gs.length + (keys subs).length + 1 else st.generalSubGroup,
        if k = 0 then none else some (gs.length + (keys subs).length + 1)⟩ := session_self h hk
  have hgroup : streamGroup gs (subs ++ [(k, port)]) k = gs.length + (keys subs).length + 1 :=
    streamGroup_self hk
  have hgid : st.globalGroupId = gs.length + (keys subs).length + 1 := by
    rw [h.groups.globalGroupId, hlen]
  obtain ⟨pre, hadd, hrep⟩ := h.groups.represents.addGroup (by omega) [port]
  rw [append_groups hk] at hrep
  rw [hlen, ← hgid] at hadd
  have hdict := h.dict k
  have hacks := h.acks k
  have hmirror := h.fresh st.sid (by rw [h.sid]; omega)
  rw [if_neg hk] at hdict hacks
  have hupdate : st.updateStreamSubscriberTable (k, port) = some { st with
      pre := pre, generalSubGroup := if k = 0 then st.globalGroupId else st.generalSubGroup
      streamSubDict := st.streamSubDict.set k st.globalGroupId
      mirrorCfgTable := st.mirrorCfgTable.set st.sid
        ⟨if k = 0 then st.globalGroupId else st.generalSubGroup,
          if k = 0 then none else some st.globalGroupId⟩
      tableAcks := st.tableAcks.set k (BitVec.ofNat 10 st.sid)
      globalGroupId := st.globalGroupId + 1, sid := st.sid + 1 } := by
    simp only [updateStreamSubscriberTable, hdict, hadd, ExactTable.add_of_none hmirror,
      ExactTable.add_of_none hacks, Option.bind_eq_bind, Option.bind_some, Option.pure_def]
  refine ⟨_, hupdate, ?_⟩
  have hmem : ∀ s, s ∈ keys (subs ++ [(k, port)]) ↔ s ∈ keys subs ∨ s = k :=
    fun s => FirstOrder.mem_keys_snoc
  have hlast : (keys (subs ++ [(k, port)])).idxOf k = (keys subs).length :=
    FirstOrder.idxOf_keys_self hk
  constructor
  · refine ⟨hrep, ?_, ?_⟩
    · rw [List.length_append, List.length_map, hkeys, List.length_append, List.length_singleton,
        ← Nat.add_assoc, ← hgid]
    · rw [List.length_append, List.length_map, hkeys, List.length_append, List.length_singleton]
      omega
  · rw [hkeys, List.length_append, List.length_singleton, ← h.sid]
  · rw [hgid, ← hgroup]
    exact general_snoc h (k, port)
  · rw [hgid, ← hgroup]
    exact entry_set_snoc h.dict (streamGroup gs (subs ++ [(k, port)]))
      (fun _ => streamGroup_snoc) k port
  · rw [h.sid, ← hlast]
    refine entry_set_snoc h.acks
      (fun s => BitVec.ofNat 10 ((keys (subs ++ [(k, port)])).idxOf s + 1)) (fun s hs => ?_) k port
    rw [FirstOrder.idxOf_keys_snoc hs]
  · intro s hs
    rcases (hmem s).1 hs with hin | rfl
    · have hidx := List.idxOf_lt_length_iff.2 hin
      rw [FirstOrder.idxOf_keys_snoc hin, session_snoc hin, ExactTable.entry_set_ne,
        h.mirror s hin]
      rw [h.sid]
      omega
    · rw [hlast, ← h.sid, ExactTable.entry_set_self, hself, hgid]
  · intro j hj
    rw [hkeys, List.length_append, List.length_singleton] at hj
    rw [ExactTable.entry_set_ne, h.fresh j (by omega)]
    rw [h.sid]
    omega

/-- There are not more than 801 groups. -/
theorem Subscribed.step_none (h : Subscribed gs subs st) (hk : sub.1 ∉ keys subs)
    (hge : 0x321 ≤ gs.length + (keys subs).length) :
    st.updateStreamSubscriberTable sub = none := by
  have hdict := h.dict sub.1
  rw [if_neg hk] at hdict
  have hadd := h.groups.represents.addGroup_none (by
    rw [List.length_append, List.length_map]
    exact hge) [sub.2]
  rw [← h.groups.globalGroupId] at hadd
  simp [updateStreamSubscriberTable, hdict, hadd]

/-- A notification that succeeds does what these lemmas say. -/
theorem Subscribed.step (h : Subscribed gs subs st)
    (hu : st.updateStreamSubscriberTable sub = some st') : Subscribed gs (subs ++ [sub]) st' := by
  by_cases hk : sub.1 ∈ keys subs
  · obtain ⟨m, hm, hsub⟩ := h.step_old hk
    rw [hu, Option.some.injEq] at hm
    exact hm ▸ hsub
  · by_cases hlt : gs.length + (keys subs).length < 0x321
    · obtain ⟨m, hm, hsub⟩ := h.step_new hk hlt
      rw [hu, Option.some.injEq] at hm
      exact hm ▸ hsub
    · rw [h.step_none hk (by omega)] at hu
      cases hu

/-- Notifications leave the table of the requests alone. -/
theorem tableSub_updateStreamSubscriberTable
    (hu : st.updateStreamSubscriberTable sub = some st') : st'.tableSub = st.tableSub := by
  unfold updateStreamSubscriberTable at hu
  split at hu
  · simp only [Option.bind_eq_bind, Option.bind_eq_some_iff, Option.pure_def,
      Option.some.injEq] at hu
    obtain ⟨_, -, _, -, _, -, rfl⟩ := hu
    rfl
  · simp only [Option.bind_eq_bind, Option.bind_eq_some_iff, Option.pure_def,
      Option.some.injEq] at hu
    obtain ⟨_, -, rfl⟩ := hu
    rfl

/-! ### All notifications -/

theorem updates_snoc (st : SequencingTest) (subs : List Subscription) (sub : Subscription) :
    st.updates (subs ++ [sub]) = (st.updates subs).bind (·.updateStreamSubscriberTable sub) := by
  unfold updates
  rw [List.foldlM_append]
  simp

/-- **The notifications succeed exactly while there is room for the groups**, and leave the tables
that the order of first subscriptions describes. -/
theorem Subscribed.updates (h : Subscribed gs [] st) (subs : List Subscription) :
    if gs.length + (keys subs).length ≤ 0x321 then
      ∃ st', st.updates subs = some st' ∧ Subscribed gs subs st'
    else st.updates subs = none := by
  induction subs using List.reverseRecOn with
  | nil =>
    rw [if_pos (by simpa [keys] using h.groups.bound)]
    exact ⟨st, rfl, h⟩
  | append_singleton subs sub ih =>
    obtain ⟨k, port⟩ := sub
    rw [updates_snoc, FirstOrder.keys_snoc]
    by_cases hk : k ∈ keys subs
    · rw [if_pos hk]
      split at ih
      · rename_i hle
        obtain ⟨m, hm, hsub⟩ := ih
        rw [if_pos hle, hm]
        exact hsub.step_old hk
      · rename_i hgt
        rw [if_neg hgt, ih]
        rfl
    · rw [if_neg hk, List.length_append, List.length_singleton]
      split at ih
      · obtain ⟨m, hm, hsub⟩ := ih
        rw [hm]
        by_cases hlt : gs.length + (keys subs).length < 0x321
        · rw [if_pos (by omega)]
          exact hsub.step_new hk hlt
        · rw [if_neg (by omega)]
          exact hsub.step_none hk (by omega)
      · rw [if_neg (by omega), ih]
        rfl

/-! ## The set-up -/

/-- Making the shards' groups leaves everything else alone. -/
structure ShardFrame (st st' : SequencingTest) : Prop where
  sid : st'.sid = st.sid
  dict : st'.streamSubDict = st.streamSubDict
  mirror : st'.mirrorCfgTable = st.mirrorCfgTable
  sub : st'.tableSub = st.tableSub
  acks : st'.tableAcks = st.tableAcks

theorem shardFrame {items : List (BitVec 32 × List Port)}
    (hs : st.setupShardMulticastGroups items = some st') : ShardFrame st st' := by
  induction items generalizing st with
  | nil =>
    cases hs
    exact ⟨rfl, rfl, rfl, rfl, rfl⟩
  | cons item items ih =>
    simp only [setupShardMulticastGroups, List.foldlM_cons, Option.bind_eq_bind,
      Option.bind_eq_some_iff] at hs
    obtain ⟨m, hm, hs⟩ := hs
    obtain ⟨hsid, hdict, hmirror, hsub, hacks⟩ := ih hs
    simp only [setupShardGroup, Option.bind_eq_bind, Option.bind_eq_some_iff, Option.pure_def,
      Option.some.injEq] at hm
    obtain ⟨⟨l1, pre⟩, -, table, -, rfl⟩ := hm
    exact ⟨hsid, hdict, hmirror, hsub, hacks⟩

/-- A switch behind its set-up: the flood group is the last one. -/
structure IsSetUp (items : List (BitVec 32 × List Port)) (flood : List Port) (cpuPort : Port)
    (st : SequencingTest) : Prop where
  subscribed : Subscribed ((items.map fun item => Pre.sortPorts item.2) ++ [Pre.sortPorts flood])
    [] st
  toAll : st.tableSub.entry 1 = some (.sendSubscriptionToAll (BitVec.ofNat 16 (items.length + 1)))
  toSelf : st.tableSub.entry 0 = some (.sendSubscriptionToSelf cpuPort)

variable {items : List (BitVec 32 × List Port)} {members : List Port} {cpuPort : Port}

theorem setup_some (hs : setup items members cpuPort = some st) :
    IsSetUp items (ringPorts members cpuPort) cpuPort st := by
  simp only [setup, Option.bind_eq_bind, Option.bind_eq_some_iff] at hs
  obtain ⟨st₀, hshards, hs⟩ := hs
  have hinst := setupShardMulticastGroups_some groups_init hshards
  obtain ⟨hsid, hdict, hmirror, hsub, hacks⟩ := shardFrame hshards
  have hgroups := hinst.groups
  rw [List.nil_append] at hgroups
  have hgid : st₀.globalGroupId = items.length + 1 := by
    rw [hgroups.globalGroupId, List.length_map]
  simp only [setupSubscribeRoutingTable, Option.bind_eq_bind, Option.bind_eq_some_iff,
    Option.pure_def, Option.some.injEq] at hs
  obtain ⟨⟨l1, pre⟩, ha, table, ht, table', ht', rfl⟩ := hs
  obtain ⟨hlt, rfl, hrep⟩ := hgroups.addGroup_some ha
  obtain ⟨-, rfl⟩ := ExactTable.add_eq_some.1 ht
  obtain ⟨-, rfl⟩ := ExactTable.add_eq_some.1 ht'
  have hlen : ((items.map fun item => Pre.sortPorts item.2) ++
      [Pre.sortPorts (ringPorts members cpuPort)]).length = items.length + 1 := by
    rw [List.length_append, List.length_map, List.length_singleton]
  rw [List.length_map] at hlt
  constructor
  · refine subscribed_nil ⟨hrep, ?_, ?_⟩ hsid ?_ hdict hmirror hacks
    · rw [hlen, hgid]
    · rw [hlen]
      omega
    · rw [hlen, hgid]
  · rw [ExactTable.entry_set_ne (by decide), ExactTable.entry_set_self, hgid]
  · rw [ExactTable.entry_set_self]

/-! ## Where a response is mirrored to -/

variable {gs₀ : List (List Port)} {flood : List Port}

/-- The ports of a stream's group. -/
theorem Subscribed.copies_stream (h : Subscribed gs subs st) (hs : s ∈ keys subs) :
    st.pre.copies (streamGroup gs subs s) = (Pre.sortPorts (values subs s)).dedup := by
  refine h.groups.represents.copies ?_
  rw [List.getElem?_append_right (by omega), Nat.add_sub_cancel_left,
    FirstOrder.getElem?_map_keys hs]

/-- The ports of the general group in the session of a stream. -/
def generalPorts (flood : List Port) (subs : List Subscription) (s : BitVec 32) : List Port :=
  if GeneralFirst subs s then values subs 0 else flood

/-- The ports of the flood group. -/
theorem Subscribed.copies_flood (h : Subscribed (gs₀ ++ [Pre.sortPorts flood]) subs st) :
    st.pre.copies (gs₀.length + 1) = (Pre.sortPorts flood).dedup := by
  refine h.groups.represents.copies ?_
  rw [List.append_assoc, List.getElem?_append_right (by omega), Nat.sub_self]
  rfl

theorem Subscribed.copies_general (h : Subscribed (gs₀ ++ [Pre.sortPorts flood]) subs st) :
    st.pre.copies (generalGroup (gs₀ ++ [Pre.sortPorts flood]) subs s) =
      (Pre.sortPorts (generalPorts flood subs s)).dedup := by
  unfold generalGroup generalPorts
  by_cases hg : GeneralFirst subs s
  · rw [if_pos hg, if_pos hg, h.copies_stream hg.1]
  · rw [if_neg hg, if_neg hg, List.length_append, List.length_singleton, h.copies_flood]

/-- The ports that a response on a stream is mirrored to. -/
def mirrorPorts (flood : List Port) (subs : List Subscription) (s : BitVec 32) : List Port :=
  if s ∈ keys subs then
    (Pre.sortPorts (generalPorts flood subs s)).dedup ++
      if s = 0 then [] else (Pre.sortPorts (values subs s)).dedup
  else []

theorem subscriberSession_tables (st : SequencingTest) (t : Tables) (s : BitVec 32) :
    (st.tables t).subscriberSession s = st.tableAcks.entry s := by
  unfold Tables.subscriberSession tables
  cases h : st.tableAcks.entry s with
  | none => simp only [h]
  | some session => simp only [h]

theorem Subscribed.mirrored (h : Subscribed (gs₀ ++ [Pre.sortPorts flood]) subs st) {out : Pipe}
    (hout : out.mirrorSession = st.tableAcks.entry s) :
    st.mirrored out = mirrorPorts flood subs s := by
  unfold SequencingTest.mirrored mirrorPorts
  rw [hout, h.acks]
  by_cases hs : s ∈ keys subs
  · have hidx := List.idxOf_lt_length_iff.2 hs
    have hbound := h.groups.bound
    rw [List.length_append, List.length_map] at hbound
    have hnat : (BitVec.ofNat 10 ((keys subs).idxOf s + 1)).toNat = (keys subs).idxOf s + 1 := by
      rw [BitVec.toNat_ofNat, Nat.mod_eq_of_lt (by omega)]
    simp only [if_pos hs, SequencingTest.sessionCopies, hnat, h.mirror s hs, session,
      h.copies_general]
    by_cases h0 : s = 0
    · rw [if_pos h0, if_pos h0]
      rfl
    · rw [if_neg h0, if_neg h0, Option.map_some, Option.getD_some, h.copies_stream hs]
  · rw [if_neg hs, if_neg hs]

/-- `copies` is one copy for each port of `want`. -/
def Exactly (copies want : List Port) : Prop :=
  copies.Nodup ∧ ∀ port, port ∈ copies ↔ port ∈ want

/-- The condition under which the responses of a stream reach its subscribers and those of stream
0: a stream without subscribers of its own is not mirrored; the session of another stream has to
hold the group of stream 0, or ports that happen to be as good, and none of the stream's own. -/
def Served (flood : List Port) (subs : List Subscription) (s : BitVec 32) : Prop :=
  if s ∈ keys subs then
    s = 0 ∨ (values subs s).Disjoint (generalPorts flood subs s) ∧
      ∀ port, port ∉ values subs s → (port ∈ generalPorts flood subs s ↔ port ∈ values subs 0)
  else values subs 0 = []

theorem exactly_mirrorPorts :
    Exactly (mirrorPorts flood subs s) (values subs s ++ values subs 0) ↔
      Served flood subs s := by
  unfold Exactly mirrorPorts Served
  by_cases hs : s ∈ keys subs
  · rw [if_pos hs, if_pos hs]
    by_cases h0 : s = 0
    · subst h0
      have hfirst : GeneralFirst subs 0 := ⟨hs, Nat.le_refl _⟩
      rw [if_pos rfl, List.append_nil, generalPorts, if_pos hfirst]
      simp [List.nodup_dedup]
    · rw [if_neg h0, or_iff_right h0, List.nodup_append']
      have hdisjoint : (Pre.sortPorts (generalPorts flood subs s)).dedup.Disjoint
          (Pre.sortPorts (values subs s)).dedup ↔
          (values subs s).Disjoint (generalPorts flood subs s) := by
        rw [List.disjoint_comm]
        simp [List.Disjoint]
      simp only [hdisjoint, List.nodup_dedup, true_and, List.mem_append, List.mem_dedup,
        Pre.mem_sortPorts]
      refine and_congr_right fun _ => forall_congr' fun port => ?_
      by_cases hport : port ∈ values subs s
      · simp [hport]
      · simp [hport]
  · rw [if_neg hs, if_neg hs, FirstOrder.values_eq_nil hs]
    simp [List.eq_nil_iff_forall_not_mem]

section
variable {p : Program} {t : Tables} {tstamp : BitVec 48} {regs : Registers} {hdr : Headers}

/-- Where the mirror copies of a released response go. -/
theorem mirrored_response {out : Pipe} (hset : setup items members cpuPort = some st)
    (hst' : st.updates subs = some st') (hp : hdr.Parsed) (hr : hdr.IsAppendResp)
    (hlt : regs.cntrlPktIt.toNat < maxGsnMapSize) (hready : MyIngress.Ready regs hdr)
    (hout : MyIngress.apply p (st'.tables t) tstamp regs hdr = some out) :
    st'.mirrored out = if hdr.timer.isValid then []
      else mirrorPorts (ringPorts members cpuPort) subs hdr.append.streamId := by
  have hv : hdr.append.isValid = true := by simp [hp.append, hr.1, hr.2]
  have hsub : hdr.sub.isValid = false := by
    rw [hp.sub, hr.2]
    simp [typeAppendResp, typeSub]
  have hup := (setup_some hset).subscribed.updates subs
  obtain ⟨out', hout', -, hsession⟩ :=
    MyIngress.apply_released hr hv hsub hlt hready p (st'.tables t) tstamp
  rw [hout, Option.some.injEq] at hout'
  subst hout'
  rw [subscriberSession_tables] at hsession
  split at hup
  · obtain ⟨m, hm, hsubs⟩ := hup
    rw [hst', Option.some.injEq] at hm
    subst hm
    cases htimer : hdr.timer.isValid with
    | true =>
      rw [htimer, if_pos rfl] at hsession
      rw [if_pos rfl, mirrored, hsession]
    | false =>
      rw [htimer, if_neg Bool.false_ne_true] at hsession
      rw [if_neg Bool.false_ne_true, hsubs.mirrored hsession]
  · rw [hup] at hst'
    cases hst'

/-- **A released response reaches exactly the subscribers of its stream and of stream 0** when there
is room for all groups and the order of the first subscriptions is right; a generated response,
which is not mirrored, when there are no subscribers. -/
theorem mirrored_iff (hset : setup items members cpuPort = some st) (hp : hdr.Parsed)
    (hr : hdr.IsAppendResp) (hlt : regs.cntrlPktIt.toNat < maxGsnMapSize)
    (hready : MyIngress.Ready regs hdr) (subs : List Subscription) :
    (∃ st' out, st.updates subs = some st' ∧
      MyIngress.apply p (st'.tables t) tstamp regs hdr = some out ∧
      Exactly (st'.mirrored out)
        (values subs hdr.append.streamId ++ values subs 0)) ↔
    items.length + 1 + (keys subs).length ≤ 0x321 ∧
      if hdr.timer.isValid then values subs hdr.append.streamId = [] ∧ values subs 0 = []
      else Served (ringPorts members cpuPort) subs hdr.append.streamId := by
  have hup := (setup_some hset).subscribed.updates subs
  rw [List.length_append, List.length_map, List.length_singleton] at hup
  have hexactly : Exactly (if hdr.timer.isValid then []
      else mirrorPorts (ringPorts members cpuPort) subs hdr.append.streamId)
      (values subs hdr.append.streamId ++ values subs 0) ↔
      if hdr.timer.isValid then values subs hdr.append.streamId = [] ∧ values subs 0 = []
      else Served (ringPorts members cpuPort) subs hdr.append.streamId := by
    split
    · simp [Exactly, List.eq_nil_iff_forall_not_mem, forall_and]
    · exact exactly_mirrorPorts
  rw [← hexactly]
  constructor
  · rintro ⟨st', out, hst', hout, h⟩
    rw [mirrored_response hset hst' hp hr hlt hready hout] at h
    refine ⟨?_, h⟩
    by_contra hroom
    rw [if_neg hroom, hst'] at hup
    cases hup
  · rintro ⟨hroom, h⟩
    rw [if_pos hroom] at hup
    obtain ⟨st', hst', -⟩ := hup
    have hv : hdr.append.isValid = true := by simp [hp.append, hr.1, hr.2]
    have hsub : hdr.sub.isValid = false := by
      rw [hp.sub, hr.2]
      simp [typeAppendResp, typeSub]
    obtain ⟨out, hout, -⟩ :=
      MyIngress.apply_released hr hv hsub hlt hready p (st'.tables t) tstamp
    refine ⟨st', out, hst', hout, ?_⟩
    rw [mirrored_response hset hst' hp hr hlt hready hout]
    exact h

end

/-! ## Two subscriptions -/

theorem served_of_generalFirst (hs : s ∈ keys subs) (hg : GeneralFirst subs s)
    (hd : ∀ port ∈ values subs s, port ∉ values subs 0) : Served flood subs s := by
  rw [Served, if_pos hs, generalPorts, if_pos hg]
  exact .inr ⟨fun port hport hport0 => hd port hport hport0, fun _ _ => Iff.rfl⟩

theorem setup_exists (items : List (BitVec 32 × List Port)) (members : List Port)
    (cpuPort : Port) (hlen : items.length < 0x321) (hkeys : (items.map Prod.fst).Nodup) :
    ∃ st, setup items members cpuPort = some st := by
  obtain ⟨st, hshards⟩ := setupShardMulticastGroups_exists groups_init
    (by rw [List.length_nil]; omega) hkeys (fun _ _ => rfl)
  have hgroups := (setupShardMulticastGroups_some groups_init hshards).groups
  rw [List.nil_append] at hgroups
  have hsub := (shardFrame hshards).sub
  obtain ⟨pre, hadd, -⟩ := hgroups.represents.addGroup (by rw [List.length_map]; exact hlen)
    (ringPorts members cpuPort)
  rw [← hgroups.globalGroupId] at hadd
  have h1 : st.tableSub.entry 1 = none := by rw [hsub]; rfl
  have h0 : (st.tableSub.set 1 (.sendSubscriptionToAll
      (BitVec.ofNat 16 st.globalGroupId))).entry 0 = none := by
    rw [ExactTable.entry_set_ne (by decide), hsub]
    rfl
  simp only [setup, hshards, setupSubscribeRoutingTable, hadd, ExactTable.add_of_none h1,
    ExactTable.add_of_none h0, Option.bind_eq_bind, Option.bind_some, Option.pure_def]
  exact ⟨_, rfl⟩

/-- The response to the first append of stream 1. -/
def streamResponse : Headers :=
  { Headers.framed typeAppendResp with append := { isValid := true, gIdx := 1, streamId := 1 } }

/-- The registers of a switch that has seen the number 1. -/
def seenOne : Registers := { mapFromGsn := (RegArray.init _ 0).set 0 1 }

theorem ready_streamResponse : MyIngress.Ready seenOne streamResponse := by
  unfold MyIngress.Ready seenOne
  rw [show (0 : BitVec 16).toNat = 0 from rfl, RegArray.get_set_self (by decide)]
  exact Nat.le_refl _

/-- Stream 0 comes first. -/
theorem mirrored_iff_general : ∃ st st' out, setup [] [0, 9] 64 = some st ∧
    st.updates [(0, 6), (1, 5)] = some st' ∧
    MyIngress.apply .sequencingOnly (st'.tables {}) 0 seenOne streamResponse = some out ∧
    Exactly (st'.mirrored out) [5, 6] := by
  obtain ⟨st, hset⟩ := setup_exists [] [0, 9] 64 (by decide) List.nodup_nil
  have hserved : Served (ringPorts [0, 9] 64) [(0, 6), (1, 5)] 1 :=
    served_of_generalFirst (by decide) (by decide) (by decide)
  obtain ⟨st', out, hst', hout, h⟩ := (mirrored_iff hset (by constructor <;> rfl) ⟨rfl, rfl⟩
    (by decide) ready_streamResponse [(0, 6), (1, 5)]).2 ⟨by decide, hserved⟩
  exact ⟨st, st', out, hset, hst', hout, h⟩

/-- Stream 0 comes second: its subscriber is left out, and the ring is flooded instead. -/
theorem mirrored_to_ring : ∃ st st' out, setup [] [0, 9] 64 = some st ∧
    st.updates [(1, 5), (0, 6)] = some st' ∧
    MyIngress.apply .sequencingOnly (st'.tables {}) 0 seenOne streamResponse = some out ∧
    st'.mirrored out = [9, 64, 5] ∧ ¬ Exactly (st'.mirrored out) [5, 6] := by
  obtain ⟨st, hset⟩ := setup_exists [] [0, 9] 64 (by decide) List.nodup_nil
  have hup := (setup_some hset).subscribed.updates [(1, 5), (0, 6)]
  rw [if_pos (by decide)] at hup
  obtain ⟨st', hst', -⟩ := hup
  have hp : streamResponse.Parsed := by constructor <;> rfl
  have hr : streamResponse.IsAppendResp := ⟨rfl, rfl⟩
  obtain ⟨out, hout, -⟩ := MyIngress.apply_released hr rfl rfl (by decide) ready_streamResponse
    .sequencingOnly (st'.tables {}) 0
  have hmirrored := mirrored_response hset hst' hp hr (by decide) ready_streamResponse hout
  have hports : st'.mirrored out = [9, 64, 5] := by
    rw [hmirrored]
    decide
  refine ⟨st, st', out, hset, hst', hout, hports, ?_⟩
  rintro ⟨-, hmem⟩
  rw [hports] at hmem
  exact absurd ((hmem 6).2 (by decide)) (by decide)

end SequencingTest

end Pringles.Control
