import Mathlib.Data.List.Dedup
import Mathlib.Data.List.Sort
import Pringles.Lib.ExactTable
import Pringles.P4.Ingress

/-!
# Multicast groups

The control plane keeps the multicast groups of its switch in two tables of the driver, `$pre.mgid`
and `$pre.node`, through the classes `MCTree` and `L1Node`. An object of these classes holds nothing
that its table entry does not, so the tables are the state. A handler makes a group of one node and
then reserves a second identifier, `rid & 0xFFFF`, which is the group's number moved up by 801; the
identifiers collide at the 802nd group (`Represents.addGroup_none`).

`Represents` reads the tables as the list of the groups made so far, each as its ports.
-/

namespace Pringles.Control

/-- An output port (`egressSpec_t`). -/
abbrev Port := BitVec 9

/-- An entry of `$pre.node`. -/
structure L1Node where
  rid : Nat
  devPort : List Port := []

/-- A node in an entry of `$pre.mgid`. -/
structure Member where
  nodeId : Nat
  xid : Nat

/-- The packet replication engine, and the counter of the class `L1Node`. -/
structure Pre where
  l1NodeId : Nat := 1
  node : ExactTable Nat L1Node := .empty
  mgid : ExactTable Nat (List Member) := .empty

namespace Pre

variable {pre pre' : Pre} {gs : List (List Port)} {ports : List Port} {n mgid : Nat}

/-! ## Objects -/

/-- `list.sort` on ports. -/
def sortPorts (ports : List Port) : List Port :=
  ports.insertionSort fun a b => a.toNat ≤ b.toNat

/-- `MCTree.__init__`. -/
def newMCTree (pre : Pre) (mgid : Nat) : Option Pre := do
  let table ← pre.mgid.add mgid []
  pure { pre with mgid := table }

/-- `L1Node.__init__`. -/
def newL1Node (pre : Pre) (rid : Nat) : Option (Nat × Pre) := do
  let nodeId := pre.l1NodeId
  let table ← pre.node.add nodeId ⟨rid, []⟩
  pure (nodeId, { pre with l1NodeId := nodeId + 1, node := table })

/-- `L1Node.addMbrs`, without lags. -/
def addMbrs (pre : Pre) (nodeId : Nat) (portList : List Port) : Option Pre := do
  let table ← pre.node.modify nodeId fun l1 =>
    { l1 with devPort := sortPorts (l1.devPort ++ portList) }
  pure { pre with node := table }

/-- `L1Node.associate`. -/
def associate (pre : Pre) (nodeId mgid xid : Nat) : Option Pre := do
  let table ← pre.mgid.modify mgid (· ++ [⟨nodeId, xid⟩])
  pure { pre with mgid := table }

/-- `MCTree.add_node`. -/
def addNode (pre : Pre) (mgid rid xid : Nat) (mbrPorts : List Port) : Option (Nat × Pre) := do
  let (l1, pre) ← pre.newL1Node rid
  let pre ← pre.addMbrs l1 mbrPorts
  let pre ← pre.associate l1 mgid xid
  pure (l1, pre)

/-- The lines with which every handler makes a group: a tree with one node, and the second
identifier. The result names the node. -/
def addGroup (pre : Pre) (globalGroupId : Nat) (mbrPorts : List Port) : Option (Nat × Pre) := do
  let rid := 0x321 + globalGroupId
  let xid := 0x432 + globalGroupId
  let pre ← pre.newMCTree globalGroupId
  let (l1, pre) ← pre.addNode globalGroupId rid xid mbrPorts
  let pre ← pre.newMCTree (rid &&& 0xFFFF)
  pure (l1, pre)

/-- The ports that a group copies to, one entry for each copy: a node copies once to each of its
ports. -/
def copies (pre : Pre) (mgid : Nat) : List Port :=
  ((pre.mgid.entry mgid).getD []).flatMap fun m =>
    ((pre.node.entry m.nodeId).map fun l1 => l1.devPort.dedup).getD []

@[simp] theorem mem_sortPorts {port : Port} : port ∈ sortPorts ports ↔ port ∈ ports :=
  List.mem_insertionSort _

theorem pairwise_sortPorts (ports : List Port) :
    (sortPorts ports).Pairwise fun a b => a.toNat ≤ b.toNat := by
  have htotal : Std.Total fun a b : Port => a.toNat ≤ b.toNat := ⟨fun a b => Nat.le_total ..⟩
  have htrans : IsTrans Port fun a b => a.toNat ≤ b.toNat := ⟨fun _ _ _ => Nat.le_trans⟩
  exact List.pairwise_insertionSort _ ports

/-- Sorting in between makes no difference. -/
theorem sortPorts_append (ports ports' : List Port) :
    sortPorts (sortPorts ports ++ ports') = sortPorts (ports ++ ports') := by
  have hperm : (sortPorts (sortPorts ports ++ ports')).Perm (sortPorts (ports ++ ports')) := by
    refine (List.perm_insertionSort ..).trans (.trans ?_ (List.perm_insertionSort ..).symm)
    exact (List.perm_insertionSort ..).append_right _
  refine hperm.eq_of_pairwise ?_ (pairwise_sortPorts _) (pairwise_sortPorts _)
  intro a b _ _ hab hba
  exact BitVec.eq_of_toNat_eq (Nat.le_antisymm hab hba)

/-! ## The tables as a list of groups -/

/-- The entry of `$pre.mgid` when `n` groups have been made. -/
def memberEntry (n k : Nat) : Option (List Member) :=
  if 1 ≤ k ∧ k ≤ n then some [⟨k, 0x432 + k⟩]
  else if 0x321 < k ∧ k ≤ 0x321 + n then some []
  else none

/-- The entry of `$pre.node` for the node of the `k`-th group. -/
def nodeEntry (gs : List (List Port)) (k : Nat) : Option L1Node :=
  if k = 0 then none else (gs[k - 1]?).map fun ports => ⟨0x321 + k, ports⟩

/-- The groups made so far, in order; group `k` is `gs[k - 1]`, and its node has its number. -/
structure Represents (pre : Pre) (gs : List (List Port)) : Prop where
  counter : pre.l1NodeId = gs.length + 1
  node : ∀ k, pre.node.entry k = nodeEntry gs k
  mgid : ∀ k, pre.mgid.entry k = memberEntry gs.length k

theorem represents_init : ({} : Pre).Represents [] where
  counter := rfl
  node k := by simp [nodeEntry]
  mgid k := by
    have h1 : ¬ (1 ≤ k ∧ k ≤ 0) := by omega
    have h2 : ¬ (0x321 < k ∧ k ≤ 0x321 + 0) := by omega
    simp only [memberEntry, List.length_nil, if_neg h1, if_neg h2]
    rfl

theorem Represents.copies (h : pre.Represents gs) {k : Nat} (hk : gs[k]? = some ports) :
    pre.copies (k + 1) = ports.dedup := by
  have hlt : k < gs.length := (List.getElem?_eq_some_iff.1 hk).1
  have hm : 1 ≤ k + 1 ∧ k + 1 ≤ gs.length := by omega
  simp [Pre.copies, h.mgid, memberEntry, hm, h.node, nodeEntry, hk]

/-! ### Making a group -/

theorem newMCTree_of_none (h : pre.mgid.entry mgid = none) :
    pre.newMCTree mgid = some { pre with mgid := pre.mgid.set mgid [] } := by
  simp [newMCTree, ExactTable.add_of_none h]

theorem newMCTree_of_some {members : List Member} (h : pre.mgid.entry mgid = some members) :
    pre.newMCTree mgid = none := by
  simp [newMCTree, ExactTable.add_of_some h]

/-- A new node on a group without nodes. -/
theorem addNode_of_none {rid xid : Nat} (hn : pre.node.entry pre.l1NodeId = none)
    (hm : pre.mgid.entry mgid = some []) :
    pre.addNode mgid rid xid ports = some (pre.l1NodeId, {
      l1NodeId := pre.l1NodeId + 1
      node := (pre.node.set pre.l1NodeId ⟨rid, []⟩).set pre.l1NodeId ⟨rid, sortPorts ports⟩
      mgid := pre.mgid.set mgid [⟨pre.l1NodeId, xid⟩] }) := by
  have hl1 : pre.newL1Node rid = some (pre.l1NodeId, { pre with
      l1NodeId := pre.l1NodeId + 1, node := pre.node.set pre.l1NodeId ⟨rid, []⟩ }) := by
    simp [newL1Node, ExactTable.add_of_none hn]
  simp only [addNode, hl1, addMbrs, associate, Option.bind_eq_bind, Option.bind_some,
    Option.pure_def, ExactTable.modify_of_some ExactTable.entry_set_self,
    ExactTable.modify_of_some hm, List.nil_append]

/-- The second identifier of a group. -/
theorem rid_and {k : Nat} (h : k ≤ 0x321) : (0x321 + k) &&& 0xFFFF = 0x321 + k := by
  have hand : (0x321 + k) &&& (2 ^ 16 - 1) = (0x321 + k) % 2 ^ 16 := Nat.and_two_pow_sub_one_eq_mod ..
  have hlt : (0x321 + k) % 2 ^ 16 = 0x321 + k := Nat.mod_eq_of_lt (by omega)
  exact hand.trans hlt

/-- A new group, spelled out. -/
theorem addGroup_of_none {k : Nat} (hk : k ≤ 0x321) (hn : pre.node.entry pre.l1NodeId = none)
    (hm : pre.mgid.entry k = none) (hrid : pre.mgid.entry (0x321 + k) = none) :
    pre.addGroup k ports = some (pre.l1NodeId, {
      l1NodeId := pre.l1NodeId + 1
      node := (pre.node.set pre.l1NodeId ⟨0x321 + k, []⟩).set pre.l1NodeId
        ⟨0x321 + k, sortPorts ports⟩
      mgid := ((pre.mgid.set k []).set k [⟨pre.l1NodeId, 0x432 + k⟩]).set (0x321 + k) [] }) := by
  have hnew : (pre.mgid.set k []).entry k = some [] := ExactTable.entry_set_self
  have hfresh : ((pre.mgid.set k []).set k [⟨pre.l1NodeId, 0x432 + k⟩]).entry (0x321 + k) = none :=
    by rw [ExactTable.entry_set_ne (by omega), ExactTable.entry_set_ne (by omega), hrid]
  simp only [addGroup, Option.bind_eq_bind, Option.pure_def]
  rw [newMCTree_of_none hm, Option.bind_some, addNode_of_none (by exact hn) (by exact hnew),
    Option.bind_some, rid_and hk, newMCTree_of_none (by exact hfresh), Option.bind_some]

theorem nodeEntry_append {ports : List Port} (k : Nat) :
    nodeEntry (gs ++ [ports]) k =
      if k = gs.length + 1 then some ⟨0x321 + k, ports⟩ else nodeEntry gs k := by
  unfold nodeEntry
  by_cases h0 : k = 0
  · simp [h0]
  by_cases hk : k = gs.length + 1
  · subst hk
    simp
  · have hne : k - 1 ≠ gs.length := by omega
    rw [if_neg h0, if_neg hk, if_neg h0]
    congr 1
    by_cases hlt : k - 1 < gs.length
    · rw [List.getElem?_append_left hlt]
    · have hlen : (gs ++ [ports]).length ≤ k - 1 := by
        rw [List.length_append, List.length_singleton]
        omega
      rw [List.getElem?_eq_none hlen, List.getElem?_eq_none (by omega)]

theorem memberEntry_succ {n : Nat} (hn : n < 0x321) (k : Nat) : memberEntry (n + 1) k =
    if k = 0x321 + (n + 1) then some []
    else if k = n + 1 then some [⟨n + 1, 0x432 + (n + 1)⟩] else memberEntry n k := by
  unfold memberEntry
  by_cases hrid : k = 0x321 + (n + 1)
  · rw [if_pos hrid, if_neg (by omega), if_pos (by omega)]
  by_cases hnew : k = n + 1
  · rw [if_neg hrid, if_pos hnew, if_pos (by omega), hnew]
  · have h1 : (1 ≤ k ∧ k ≤ n + 1) ↔ (1 ≤ k ∧ k ≤ n) := by omega
    have h2 : (0x321 < k ∧ k ≤ 0x321 + (n + 1)) ↔ (0x321 < k ∧ k ≤ 0x321 + n) := by omega
    simp only [if_neg hrid, if_neg hnew, h1, h2]

/-- **Making a group appends it**, as long as there are fewer than 801. -/
theorem Represents.addGroup (h : pre.Represents gs) (hlt : gs.length < 0x321)
    (ports : List Port) :
    ∃ pre', pre.addGroup (gs.length + 1) ports = some (gs.length + 1, pre') ∧
      pre'.Represents (gs ++ [sortPorts ports]) := by
  have hmgid : pre.mgid.entry (gs.length + 1) = none := by
    rw [h.mgid, memberEntry, if_neg (by omega), if_neg (by omega)]
  have hnode : pre.node.entry pre.l1NodeId = none := by
    rw [h.counter, h.node, nodeEntry, if_neg (by omega), List.getElem?_eq_none (by omega)]
    rfl
  have hrid : pre.mgid.entry (0x321 + (gs.length + 1)) = none := by
    rw [h.mgid, memberEntry, if_neg (by omega), if_neg (by omega)]
  rw [addGroup_of_none (by omega) hnode hmgid hrid, h.counter]
  refine ⟨_, rfl, ?_⟩
  constructor
  · rw [List.length_append, List.length_singleton]
  · intro k
    rw [nodeEntry_append, ExactTable.entry_set, ExactTable.entry_set, h.node]
    by_cases hk : k = gs.length + 1
    · rw [if_pos hk, if_pos hk, hk]
    · rw [if_neg hk, if_neg hk, if_neg hk]
  · intro k
    rw [List.length_append, List.length_singleton, memberEntry_succ hlt, ExactTable.entry_set,
      ExactTable.entry_set, ExactTable.entry_set, h.mgid]
    by_cases hk : k = gs.length + 1
    · simp only [if_pos hk]
    · simp only [if_neg hk]

/-- The 802nd group asks for the identifier that the first one reserved. -/
theorem Represents.addGroup_none (h : pre.Represents gs) (hge : 0x321 ≤ gs.length)
    (ports : List Port) : pre.addGroup (gs.length + 1) ports = none := by
  have hmgid : pre.mgid.entry (gs.length + 1) = some [] := by
    rw [h.mgid, memberEntry, if_neg (by omega), if_pos (by omega)]
  simp [Pre.addGroup, newMCTree_of_some hmgid]

/-- **Adding ports to a node adds them to its group.** -/
theorem Represents.addMbrs (h : pre.Represents gs) {k : Nat} {old : List Port}
    (hk : gs[k]? = some old) (ports : List Port) :
    ∃ pre', pre.addMbrs (k + 1) ports = some pre' ∧
      pre'.Represents (gs.set k (sortPorts (old ++ ports))) := by
  have hentry : pre.node.entry (k + 1) = some ⟨0x321 + (k + 1), old⟩ := by
    rw [h.node, nodeEntry, if_neg (by omega), Nat.add_sub_cancel, hk]
    rfl
  refine ⟨{ pre with node := pre.node.set (k + 1) ⟨0x321 + (k + 1), sortPorts (old ++ ports)⟩ },
    ?_, ?_⟩
  · simp [Pre.addMbrs, ExactTable.modify_of_some hentry]
  constructor
  · rw [List.length_set]
    exact h.counter
  · intro j
    have hlt : k < gs.length := (List.getElem?_eq_some_iff.1 hk).1
    rw [ExactTable.entry_set, h.node, nodeEntry, nodeEntry, List.getElem?_set]
    by_cases hj : j = k + 1
    · subst hj
      simp [hlt]
    · rw [if_neg hj]
      by_cases h0 : j = 0
      · rw [if_pos h0, if_pos h0]
      · rw [if_neg h0, if_neg h0, if_neg (by omega)]
  · intro j
    rw [List.length_set]
    exact h.mgid j

end Pre

end Pringles.Control
