import Pringles.Control.Multicast
import Pringles.P4.ShardRouting

/-!
# The shards' multicast groups

`setup_shard_multicast_groups` makes a group for every shard and enters it in `get_shard_port` under
the shard's number. The table is exact: a key that is no shard's number finds no group. A stream's
append is looked up under its stream, and finds the shard of that number; an append without a stream
is looked up under its position in the log, which from the number of shards on is no key.
-/

namespace Pringles.Control

open Pringles.P4

/-- An entry of `$mirror.cfg`. -/
structure MirrorSession where
  mcastGrpA : Nat
  mcastGrpB : Option Nat

/-- The control plane of one switch, and the tables of its switch that it fills. Of the tree that it
keeps for each stream it uses the first node only. -/
structure SequencingTest where
  pre : Pre := {}
  globalGroupId : Nat := 1
  sid : Nat := 1
  generalSubGroup : Nat := 0
  streamSubDict : ExactTable (BitVec 32) Nat := .empty
  mirrorCfgTable : ExactTable Nat MirrorSession := .empty
  tableShard : ExactTable (BitVec 32) (BitVec 16) := .empty
  tableSub : ExactTable (BitVec 32) SubmitSubscriptionAction := .empty
  tableAcks : ExactTable (BitVec 32) (BitVec 10) := .empty

namespace SequencingTest

/-- What the pipeline finds in the tables. -/
def tables (st : SequencingTest) (t : Tables) : Tables :=
  { t with
    getShardPort := fun shardId =>
      match st.tableShard.entry shardId with
      | some groupId => .shardPort groupId
      | none => .noAction
    submitSubscription := fun subscribe =>
      match st.tableSub.entry subscribe with
      | some action => action
      | none => .noAction
    routeSubscriberAcks := fun streamId =>
      match st.tableAcks.entry streamId with
      | some session => .forwardToSubscribers session
      | none => .noAction }

variable {st st' : SequencingTest} {gs : List (List Port)} {t : Tables}
  {item : BitVec 32 × List Port} {items : List (BitVec 32 × List Port)}

@[simp] theorem shardGroup_tables (st : SequencingTest) (t : Tables) (shardId : BitVec 32) :
    (st.tables t).shardGroup shardId = st.tableShard.entry shardId := by
  unfold Tables.shardGroup tables
  cases h : st.tableShard.entry shardId with
  | none => simp only [h]
  | some groupId => simp only [h]

/-- The groups of the control plane; the next one has the number that is due. -/
structure Groups (st : SequencingTest) (gs : List (List Port)) : Prop where
  represents : st.pre.Represents gs
  globalGroupId : st.globalGroupId = gs.length + 1
  bound : gs.length ≤ 0x321

theorem groups_init : ({} : SequencingTest).Groups [] := ⟨Pre.represents_init, rfl, by decide⟩

/-- Making the next group succeeds until there are 801. -/
theorem Groups.addGroup_some (h : st.Groups gs) {ports : List Port} {l1 : Nat} {pre : Pre}
    (ha : st.pre.addGroup st.globalGroupId ports = some (l1, pre)) :
    gs.length < 0x321 ∧ l1 = gs.length + 1 ∧ pre.Represents (gs ++ [Pre.sortPorts ports]) := by
  rw [h.globalGroupId] at ha
  by_cases hlt : gs.length < 0x321
  · obtain ⟨pre', heq, hrep⟩ := h.represents.addGroup hlt ports
    rw [heq, Option.some.injEq, Prod.mk.injEq] at ha
    obtain ⟨rfl, rfl⟩ := ha
    exact ⟨hlt, rfl, hrep⟩
  · rw [h.represents.addGroup_none (by omega)] at ha
    cases ha

/-! ## The set-up -/

/-- One turn of the loop. -/
def setupShardGroup (st : SequencingTest) (item : BitVec 32 × List Port) :
    Option SequencingTest := do
  let (_, pre) ← st.pre.addGroup st.globalGroupId item.2
  let tableShard ← st.tableShard.add item.1 (BitVec.ofNat 16 st.globalGroupId)
  pure { st with
    pre := pre, tableShard := tableShard, globalGroupId := st.globalGroupId + 1 }

/-- `setup_shard_multicast_groups`, on the items of the dictionary in any order. -/
def setupShardMulticastGroups (st : SequencingTest) (items : List (BitVec 32 × List Port)) :
    Option SequencingTest :=
  items.foldlM setupShardGroup st

theorem setupShardGroup_some (h : st.Groups gs) (hs : st.setupShardGroup item = some st') :
    st'.Groups (gs ++ [Pre.sortPorts item.2]) ∧ st.tableShard.entry item.1 = none ∧
      st'.tableShard = st.tableShard.set item.1 (BitVec.ofNat 16 (gs.length + 1)) := by
  simp only [setupShardGroup, Option.bind_eq_bind, Option.bind_eq_some_iff, Option.pure_def,
    Option.some.injEq] at hs
  obtain ⟨⟨l1, pre⟩, ha, table, ht, rfl⟩ := hs
  obtain ⟨hlt, -, hrep⟩ := h.addGroup_some ha
  obtain ⟨hnone, rfl⟩ := ExactTable.add_eq_some.1 ht
  refine ⟨⟨hrep, ?_, ?_⟩, hnone, by rw [h.globalGroupId]⟩
  · simp [h.globalGroupId]
  · simp only [List.length_append, List.length_singleton]
    omega

/-- What the loop leaves: the groups in the order of the items, and an entry for each item. -/
structure Installed (st : SequencingTest) (gs : List (List Port))
    (items : List (BitVec 32 × List Port)) (st' : SequencingTest) : Prop where
  groups : st'.Groups (gs ++ items.map fun item => Pre.sortPorts item.2)
  kept : ∀ k v, st.tableShard.entry k = some v → st'.tableShard.entry k = some v
  other : ∀ k, k ∉ items.map Prod.fst → st'.tableShard.entry k = st.tableShard.entry k
  shard : ∀ i item, items[i]? = some item →
    st'.tableShard.entry item.1 = some (BitVec.ofNat 16 (gs.length + i + 1))

theorem setupShardMulticastGroups_some (h : st.Groups gs)
    (hs : st.setupShardMulticastGroups items = some st') : st.Installed gs items st' := by
  induction items generalizing st gs with
  | nil =>
    cases hs
    exact ⟨by simpa using h, fun _ _ hk => hk, fun _ _ => rfl, fun _ _ hi => by simp at hi⟩
  | cons item items ih =>
    simp only [setupShardMulticastGroups, List.foldlM_cons, Option.bind_eq_bind,
      Option.bind_eq_some_iff] at hs
    obtain ⟨mid, hm, hs⟩ := hs
    obtain ⟨hgroups, hnone, htable⟩ := setupShardGroup_some h hm
    have hrest := ih hgroups hs
    constructor
    · simpa using hrest.groups
    · intro k v hk
      apply hrest.kept
      rw [htable, ExactTable.entry_set_ne, hk]
      rintro rfl
      rw [hnone] at hk
      cases hk
    · intro k hk
      rw [List.map_cons, List.mem_cons, not_or] at hk
      rw [hrest.other k hk.2, htable, ExactTable.entry_set_ne hk.1]
    · intro i x hi
      cases i with
      | zero =>
        rw [List.getElem?_cons_zero, Option.some.injEq] at hi
        subst hi
        apply hrest.kept
        rw [htable, ExactTable.entry_set_self]
      | succ i =>
        rw [List.getElem?_cons_succ] at hi
        rw [hrest.shard i x hi, List.length_append, List.length_singleton]
        congr 2
        omega

/-- There is room for 801 groups. -/
theorem setupShardGroup_exists (h : st.Groups gs) (hlt : gs.length < 0x321)
    (hnone : st.tableShard.entry item.1 = none) : ∃ st', st.setupShardGroup item = some st' := by
  obtain ⟨pre, ha, -⟩ := h.represents.addGroup hlt item.2
  rw [← h.globalGroupId] at ha
  simp [setupShardGroup, ha, ExactTable.add_of_none hnone]

theorem setupShardMulticastGroups_exists (h : st.Groups gs)
    (hlen : gs.length + items.length ≤ 0x321) (hkeys : (items.map Prod.fst).Nodup)
    (hnone : ∀ k ∈ items.map Prod.fst, st.tableShard.entry k = none) :
    ∃ st', st.setupShardMulticastGroups items = some st' := by
  induction items generalizing st gs with
  | nil => exact ⟨st, rfl⟩
  | cons item items ih =>
    simp only [List.map_cons, List.nodup_cons, List.mem_cons, forall_eq_or_imp,
      List.length_cons] at hlen hkeys hnone
    obtain ⟨mid, hm⟩ := setupShardGroup_exists h (by omega) hnone.1
    obtain ⟨hgroups, -, htable⟩ := setupShardGroup_some h hm
    have hlen' : (gs ++ [Pre.sortPorts item.2]).length + items.length ≤ 0x321 := by
      rw [List.length_append, List.length_singleton]
      omega
    have hnone' : ∀ k ∈ items.map Prod.fst, mid.tableShard.entry k = none := by
      intro k hk
      rw [htable, ExactTable.entry_set_ne, hnone.2 k hk]
      rintro rfl
      exact hkeys.1 hk
    obtain ⟨st', hs⟩ := ih hgroups hlen' hkeys.2 hnone'
    refine ⟨st', ?_⟩
    rw [setupShardMulticastGroups, List.foldlM_cons, hm]
    exact hs

/-! ## Where an append goes -/

/-- The packet goes to the group of one of the shards, which copies it once to each of the shard's
ports. -/
def ReachesShard (st : SequencingTest) (items : List (BitVec 32 × List Port)) (out : Pipe) :
    Prop :=
  ∃ item ∈ items, ∃ groupId, out.tm.mcastGrpA = some groupId ∧
    (st.pre.copies groupId.toNat).Nodup ∧
    ∀ port, port ∈ st.pre.copies groupId.toNat ↔ port ∈ item.2

/-- The group under a shard's number is the shard's. -/
theorem reachesShard_of_mem {out : Pipe} {i : Nat}
    (hset : ({} : SequencingTest).setupShardMulticastGroups items = some st)
    (hi : items[i]? = some item) (hout : out.tm.mcastGrpA = st.tableShard.entry item.1) :
    st.ReachesShard items out := by
  have h := setupShardMulticastGroups_some groups_init hset
  have hlt : i < items.length := (List.getElem?_eq_some_iff.1 hi).1
  have hbound : items.length ≤ 0x321 := by simpa using h.groups.bound
  have hgroup : (BitVec.ofNat 16 (i + 1)).toNat = i + 1 := by
    rw [BitVec.toNat_ofNat, Nat.mod_eq_of_lt (by omega)]
  have hcopies : st.pre.copies (i + 1) = (Pre.sortPorts item.2).dedup := by
    apply h.groups.represents.copies
    rw [List.nil_append, List.getElem?_map, hi]
    rfl
  refine ⟨item, List.mem_of_getElem? hi, BitVec.ofNat 16 (i + 1), ?_, ?_, ?_⟩
  · rw [hout, h.shard i item hi, List.length_nil, Nat.zero_add]
  · rw [hgroup, hcopies]
    exact List.nodup_dedup _
  · intro port
    rw [hgroup, hcopies, List.mem_dedup, Pre.mem_sortPorts]

/-- The keys of `s` shards. -/
theorem mem_shardIds {s : Nat} (hkeys : (items.map Prod.fst).Perm
    ((List.range s).map (BitVec.ofNat 32))) (k : BitVec 32) :
    k ∈ items.map Prod.fst ↔ k.toNat < s := by
  rw [hkeys.mem_iff, List.mem_map]
  constructor
  · rintro ⟨i, hi, rfl⟩
    rw [List.mem_range] at hi
    exact Nat.lt_of_le_of_lt (Nat.mod_le ..) hi
  · intro hk
    exact ⟨k.toNat, List.mem_range.2 hk, by simp⟩

/-- **An append reaches a shard exactly when it belongs to a stream or its position in the log is
below the number of shards.** -/
theorem reachesShard_iff {p : Program} {tstamp : BitVec 48} {regs : Registers} {hdr : Headers}
    {out : Pipe} {s : Nat} {g : BitVec 32}
    (hset : ({} : SequencingTest).setupShardMulticastGroups items = some st)
    (hkeys : (items.map Prod.fst).Perm ((List.range s).map (BitVec.ofNat 32)))
    (ha : hdr.IsAppend) (h : MyIngress.apply p (st.tables t) tstamp regs hdr = some out)
    (hshard : out.metadata.routeToShard = true) (hg : out.hdr.append.gIdx = g)
    (hstream : hdr.append.streamId = 0 ∨ hdr.append.streamId.toNat < s) :
    st.ReachesShard items out ↔ hdr.append.streamId ≠ 0 ∨ g.toNat < s := by
  obtain ⟨-, hgroup⟩ := MyIngress.apply_append_toShard ha h hshard
  rw [shardGroup_tables, hg] at hgroup
  have hreach : ∀ k : BitVec 32, out.tm.mcastGrpA = st.tableShard.entry k → k.toNat < s →
      st.ReachesShard items out := by
    intro k hk hlt
    obtain ⟨item, hitem, rfl⟩ := List.mem_map.1 ((mem_shardIds hkeys k).2 hlt)
    obtain ⟨i, hi⟩ := List.mem_iff_getElem?.1 hitem
    exact reachesShard_of_mem hset hi hk
  by_cases h0 : hdr.append.streamId = 0
  · rw [if_pos h0] at hgroup
    constructor
    · rintro ⟨item, -, groupId, hout, -⟩
      right
      by_contra hge
      have hmiss : st.tableShard.entry g = none :=
        (setupShardMulticastGroups_some groups_init hset).other g
          fun hmem => hge ((mem_shardIds hkeys g).1 hmem)
      rw [hgroup, hmiss] at hout
      cases hout
    · rintro (hne | hlt)
      · exact absurd h0 hne
      · exact hreach g hgroup hlt
  · rw [if_neg h0] at hgroup
    exact iff_of_true (hreach _ hgroup (hstream.resolve_left h0)) (.inl h0)

/-- Two shards with one port each. -/
def twoShards : List (BitVec 32 × List Port) := [(0, [4]), (1, [5])]

/-- The append that has the number 1, on a switch of two shards. -/
theorem reachesShard_iff_two : ∃ st out,
    ({} : SequencingTest).setupShardMulticastGroups twoShards = some st ∧
    MyIngress.apply .sequencingOnly (st.tables {}) 0 MyIngress.sampleRegs
      (MyIngress.numberedPkt 0) = some out ∧
    (st.ReachesShard twoShards out ↔ (0 : BitVec 32) ≠ 0 ∨ (1 : BitVec 32).toNat < 2) := by
  have ha : (MyIngress.numberedPkt 0).IsAppend := by decide
  obtain ⟨st, hset⟩ : ∃ st, ({} : SequencingTest).setupShardMulticastGroups twoShards = some st :=
    setupShardMulticastGroups_exists groups_init (by decide) (by decide) (fun _ _ => rfl)
  obtain ⟨out, h, hshard, hg⟩ := MyIngress.numberedPkt_toShard (st.tables {})
  exact ⟨st, out, hset, h, reachesShard_iff hset (by decide) ha h hshard hg (.inl rfl)⟩

/-- On a switch of one shard the first append of all misses. -/
theorem first_append_misses : ¬ ∀ (s : Nat) (items : List (BitVec 32 × List Port))
    (st : SequencingTest) (hdr : Headers) (out : Pipe), 1 ≤ s →
    ({} : SequencingTest).setupShardMulticastGroups items = some st →
    (items.map Prod.fst).Perm ((List.range s).map (BitVec.ofNat 32)) → hdr.IsAppend →
    MyIngress.apply .sequencingOnly (st.tables {}) 0 MyIngress.sampleRegs hdr = some out →
    out.metadata.routeToShard = true → 1 ≤ out.hdr.append.gIdx →
    (hdr.append.streamId = 0 ∨ hdr.append.streamId.toNat < s) →
    st.ReachesShard items out := by
  intro hall
  have ha : (MyIngress.numberedPkt 0).IsAppend := by decide
  obtain ⟨st, hset⟩ : ∃ st, ({} : SequencingTest).setupShardMulticastGroups [(0, [4])] = some st :=
    setupShardMulticastGroups_exists groups_init (by decide) (by decide) (fun _ _ => rfl)
  obtain ⟨out, h, hshard, hg⟩ := MyIngress.numberedPkt_toShard (st.tables {})
  have hmiss : st.tableShard.entry 1 = none :=
    (setupShardMulticastGroups_some groups_init hset).other 1 (by decide)
  have hgroup := (MyIngress.apply_append_toShard ha h hshard).2
  rw [shardGroup_tables, if_pos (by rfl), hg, hmiss] at hgroup
  obtain ⟨_, _, groupId, hout, -⟩ :=
    hall 1 _ st _ out (by decide) hset (by decide) ha h hshard (by rw [hg]; decide) (.inl rfl)
  rw [hgroup] at hout
  cases hout

end SequencingTest

end Pringles.Control
