import Mathlib.GroupTheory.Perm.Cycle.Basic
import Mathlib.Logic.Equiv.Bool
import Mathlib.Order.Bounds.Basic
import Pringles.Ring.Invariant

/-!
# The tail protocol

A tail request goes once around the ring and collects the largest `highest_replicated_seq_no` on its
way. The passes that it has made say where it is (`Around`), and its own number is the largest
reading so far (`IsTop`). It is returned at hop `n`, when it is back at the switch where it entered.
Meanwhile the registers of the switches may grow, but they never shrink, so no reading is below what
a switch held when the request entered, and none is above the control packet's number.
-/

namespace Pringles.P4

namespace Ring

variable {ι : Type} {N : Net ι} {R R' R₀ R₁ : Ring ι} {e : Event ι} {o : Served ι} {i j : ι}
  {f : Flight} {s₀ : Switch} {out : Pipe} {ev : Switch.Event} {found : Registers} {id : Nat}
  {v : List (Served ι)} {tr tr₁ tr₂ : List (Event ι × Served ι)}

/-- A pass of tail request `id`. -/
def Served.OfTail (id : Nat) (o : Served ι) : Prop :=
  o.pass.flight.id = id ∧ o.pass.flight.hdr.IsTail

instance : Decidable (o.OfTail id) := inferInstanceAs (Decidable (_ ∧ _))

/-- The passes of tail request `id`, in order. -/
def visits (id : Nat) (tr : List (Event ι × Served ι)) : List (Served ι) :=
  (tr.map Prod.snd).filter fun o => o.OfTail id

/-- What a pass reads. -/
def reading (o : Served ι) : Nat := o.pass.found.highestReplicatedSeqNo.toNat

/-- The copies of packet `id` between the switches. -/
def onWire (R : Ring ι) (id : Nat) : List (ι × Flight) := R.wire.filter fun x => x.2.id = id

theorem visits_snoc : visits id (tr ++ [(e, o)]) =
    visits id tr ++ if o.OfTail id then [o] else [] := by
  by_cases h : o.OfTail id
  · simp [visits, h]
  · simp [visits, h]

theorem exists_of_mem_visits (h : o ∈ visits id tr) : o.OfTail id ∧ ∃ e, (e, o) ∈ tr := by
  obtain ⟨hmem, htail⟩ := List.mem_filter.1 h
  obtain ⟨⟨e, o'⟩, hx, rfl⟩ := List.mem_map.1 hmem
  exact ⟨of_decide_eq_true htail, e, hx⟩

/-! ## The largest reading -/

/-- `x` is the largest reading of `v`, or zero if there is none. -/
structure IsTop (v : List (Served ι)) (x : Nat) : Prop where
  upper : ∀ o ∈ v, reading o ≤ x
  attained : v = [] ∧ x = 0 ∨ ∃ o ∈ v, reading o = x

theorem isTop_nil : IsTop ([] : List (Served ι)) 0 where
  upper := by simp
  attained := .inl ⟨rfl, rfl⟩

theorem IsTop.snoc {x : Nat} (h : IsTop v x) (o : Served ι) :
    IsTop (v ++ [o]) (max x (reading o)) where
  upper o' ho' := by
    rcases List.mem_append.1 ho' with ho' | ho'
    · exact Nat.le_trans (h.upper o' ho') (Nat.le_max_left ..)
    · rw [List.mem_singleton.1 ho']
      exact Nat.le_max_right ..
  attained := by
    right
    by_cases hle : x ≤ reading o
    · exact ⟨o, by simp, (Nat.max_eq_right hle).symm⟩
    · rcases h.attained with ⟨-, rfl⟩ | ⟨o', ho', hx⟩
      · omega
      · exact ⟨o', List.mem_append_left _ ho', by omega⟩

theorem IsTop.isGreatest {x : Nat} (h : IsTop v x) (hne : v ≠ []) :
    IsGreatest (reading '' {o | o ∈ v}) x := by
  constructor
  · rcases h.attained with ⟨rfl, -⟩ | hx
    · exact absurd rfl hne
    · exact hx
  · rintro _ ⟨o, ho, rfl⟩
    exact h.upper o ho

/-! ## The way around the ring -/

section
variable [Fintype ι] {next : Equiv.Perm ι} {entry : ι} {tstamp : BitVec 48} {regs : Registers}

/-- The tail tables are installed for the size of the ring, and the ports lead around it. -/
structure TailRing (N : Net ι) (next : Equiv.Perm ι) : Prop where
  size : Fintype.card ι < 65536
  cycle : next.IsCycleOn Set.univ
  port : ∀ i, ∃ t port, N.tables i = Tables.setupTailTable t (Fintype.card ι) port ∧
    N.link i port = some (next i)

variable (found) in
/-- A pass of a tail request that has made `k` hops: before hop `n` it goes on to the next switch,
at hop `n` to its client. -/
theorem TailRing.hop (ht : TailRing N next) (hh : MyIngress.TailHeaders f.hdr)
    (hle : f.hdr.tail.hops.toNat ≤ Fintype.card ι)
    (hout : MyIngress.apply N.program (N.tables i) tstamp regs f.hdr = some out) :
    (f.hdr.tail.hops.toNat < Fintype.card ι ∧ out.metadata.routeToClient = false ∧
      out.hdr.tail.hops.toNat = f.hdr.tail.hops.toNat + 1 ∧
      forwarded N i ⟨f, found, out⟩ = some (next i, ⟨f.id, out.hdr⟩)) ∨
    (f.hdr.tail.hops.toNat = Fintype.card ι ∧ out.metadata.routeToClient = true ∧
      forwarded N i ⟨f, found, out⟩ = none) := by
  obtain ⟨t, port, htable, hlink⟩ := ht.port i
  have pass := MyIngress.apply_tail hh hout
  have hpos : 0 < Fintype.card ι := Fintype.card_pos_iff.2 ⟨i⟩
  have hsize := ht.size
  rcases Nat.lt_or_eq_of_le hle with hlt | heq
  · have hact : (N.tables i).processTail f.hdr.tail.hops = .forwardTail port := by
      rw [htable]
      exact if_pos (by omega)
    obtain ⟨hclient, hegress, hhops⟩ := pass.forwarded port hact
    refine .inl ⟨hlt, hclient, ?_, ?_⟩
    · rw [hhops, BitVec.toNat_add]
      change (f.hdr.tail.hops.toNat + 1) % 65536 = f.hdr.tail.hops.toNat + 1
      omega
    · simp [forwarded, Headers.IsTail, hh.notControl, hh.type, hclient, hegress, hlink]
  · have hact : (N.tables i).processTail f.hdr.tail.hops = .returnTail := by
      rw [htable]
      exact if_neg (by omega)
    exact .inr ⟨heq, (pass.returned hact).1, by simp [forwarded, (pass.returned hact).1]⟩

/-- The passes `v` lead around the ring from `entry`: before hop `n` on to the next switch, at hop
`n` back to the client. -/
def Around (N : Net ι) (next : Equiv.Perm ι) (entry : ι) (v : List (Served ι)) : Prop :=
  ∀ k o, v[k]? = some o → o.switch = (next ^ k) entry ∧
    (k < Fintype.card ι ∧ o.pass.out.metadata.routeToClient = false ∧
        (∃ g, forwarded N o.switch o.pass = some ((next ^ (k + 1)) entry, g)) ∨
      k = Fintype.card ι ∧ o.pass.out.metadata.routeToClient = true)

theorem Around.snoc (h : Around N next entry v) (hswitch : o.switch = (next ^ v.length) entry)
    (hgo : v.length < Fintype.card ι ∧ o.pass.out.metadata.routeToClient = false ∧
        (∃ g, forwarded N o.switch o.pass = some ((next ^ (v.length + 1)) entry, g)) ∨
      v.length = Fintype.card ι ∧ o.pass.out.metadata.routeToClient = true) :
    Around N next entry (v ++ [o]) := by
  intro k o' ho'
  rcases Nat.lt_trichotomy k v.length with hlt | rfl | hgt
  · rw [List.getElem?_append_left hlt] at ho'
    exact h k o' ho'
  · rw [List.getElem?_concat_length, Option.some.injEq] at ho'
    exact ho' ▸ ⟨hswitch, hgo⟩
  · rw [List.getElem?_eq_none (by simpa using hgt)] at ho'
    cases ho'

/-- Only the pass at hop `n` returns the request. -/
theorem Around.returned (h : Around N next entry v) {k : Nat} (hk : v[k]? = some o)
    (hret : o.pass.out.metadata.routeToClient = true) : k = Fintype.card ι := by
  rcases (h k o hk).2 with ⟨-, hno, -⟩ | ⟨heq, -⟩
  · rw [hno] at hret
    cases hret
  · exact heq

/-- The passes of the first `n` hops visit every switch. -/
theorem Around.covers (h : Around N next entry v) (ht : TailRing N next)
    (hlen : Fintype.card ι ≤ v.length) (i : ι) : ∃ o ∈ v, o.switch = i := by
  have hcycle : next.IsCycleOn (Finset.univ : Finset ι) := by
    rw [Finset.coe_univ]
    exact ht.cycle
  obtain ⟨k, hk, hki⟩ := hcycle.exists_pow_eq (Finset.mem_univ entry) (Finset.mem_univ i)
  rw [Finset.card_univ] at hk
  have hget : v[k]? = some v[k] := List.getElem?_eq_getElem (Nat.lt_of_lt_of_le hk hlen)
  exact ⟨_, List.mem_of_getElem? hget, (h k _ hget).1.trans hki⟩

/-- `f` is the request `id` behind the passes `v`, with the largest reading. -/
structure Carries (id : Nat) (v : List (Served ι)) (f : Flight) : Prop where
  headers : MyIngress.TailHeaders f.hdr
  id_eq : f.id = id
  hops : f.hdr.tail.hops.toNat = v.length
  short : v.length ≤ Fintype.card ι
  top : IsTop v f.hdr.tail.tailSeqNo.toNat

/-- The request has been returned with the largest reading. -/
structure Arrived (v : List (Served ι)) : Prop where
  length : v.length = Fintype.card ι + 1
  top : ∀ o, v.getLast? = some o → IsTop v o.pass.out.hdr.tail.tailSeqNo.toNat

/-- The request `id` entered at `entry` and has made the passes `v`: it is on its way to the next
switch, or it has been returned. -/
structure Journey (N : Net ι) (next : Equiv.Perm ι) (entry : ι) (id : Nat) (v : List (Served ι))
    (R : Ring ι) : Prop where
  old : id < R.arrived
  around : Around N next entry v
  place : (∃ f, R.onWire id = [((next ^ v.length) entry, f)] ∧ Carries id v f) ∨
    (R.onWire id = [] ∧ Arrived v)

/-- One pass of the request takes it one hop further. -/
theorem TailRing.journey (ht : TailRing N next) (hold : id < R'.arrived)
    (haround : Around N next entry v) (hswitch : o.switch = (next ^ v.length) entry)
    (hc : Carries id v o.pass.flight)
    (hout : MyIngress.apply N.program (N.tables o.switch) tstamp o.pass.found
      o.pass.flight.hdr = some o.pass.out)
    (hwire : R'.onWire id = (forwarded N o.switch o.pass).toList) :
    Journey N next entry id (v ++ [o]) R' := by
  have pass := MyIngress.apply_tail hc.headers hout
  have htop : IsTop (v ++ [o]) o.pass.out.hdr.tail.tailSeqNo.toNat := by
    rw [pass.tailSeqNo]
    exact hc.top.snoc o
  have hnext : next o.switch = (next ^ (v.length + 1)) entry := by
    rw [hswitch, pow_succ', Equiv.Perm.mul_apply]
  rcases ht.hop o.pass.found hc.headers (hc.hops ▸ hc.short) hout with
    ⟨hlt, hclient, hhops, hgo⟩ | ⟨heq, hclient, hgo⟩
  · rw [hc.hops] at hlt hhops
    rw [hnext] at hgo
    refine ⟨hold, haround.snoc hswitch (.inl ⟨hlt, hclient, _, hgo⟩),
      .inl ⟨⟨o.pass.flight.id, o.pass.out.hdr⟩, ?_, ?_⟩⟩
    · rw [hwire, hgo, List.length_append, List.length_singleton]
      rfl
    · exact ⟨pass.headers, hc.id_eq, by simp [hhops], by simpa using hlt, htop⟩
  · rw [hc.hops] at heq
    refine ⟨hold, haround.snoc hswitch (.inr ⟨heq, hclient⟩), .inr ⟨by rw [hwire, hgo]; rfl, ?_⟩⟩
    refine ⟨by simp [heq], ?_⟩
    intro o' ho'
    rw [List.getLast?_concat, Option.some.injEq] at ho'
    exact ho' ▸ htop

end

/-! ## The packets between the switches -/

/-- Only a packet from between the switches is taken from there. -/
theorem dispatch_wire (h : R.dispatch e = some (i, ev, R₀)) :
    (R₀.wire = R.wire ∧ ∀ tstamp k, e ≠ .hop tstamp k) ∨
      ∃ tstamp f pre post, ev = .arrive tstamp f ∧ R.wire = pre ++ (i, f) :: post ∧
        R₀.wire = pre ++ post := by
  cases e with
  | arrive j ts hdr =>
    simp only [dispatch, Option.some.injEq, Prod.mk.injEq] at h
    obtain ⟨-, -, rfl⟩ := h
    exact .inl ⟨rfl, by simp⟩
  | recirc j ts k =>
    simp only [dispatch, Option.some.injEq, Prod.mk.injEq] at h
    obtain ⟨-, -, rfl⟩ := h
    exact .inl ⟨rfl, by simp⟩
  | control j ts =>
    simp only [dispatch, Option.some.injEq, Prod.mk.injEq] at h
    obtain ⟨-, -, rfl⟩ := h
    exact .inl ⟨rfl, by simp⟩
  | hop ts k =>
    simp only [dispatch, Option.map_eq_some_iff, Prod.mk.injEq] at h
    obtain ⟨⟨j, g⟩, hg, rfl, rfl, rfl⟩ := h
    obtain ⟨hk, hx⟩ := List.getElem?_eq_some_iff.1 hg
    refine .inr ⟨ts, g, R.wire.take k, R.wire.drop (k + 1), rfl, ?_, ?_⟩
    · rw [← hx, List.getElem_cons_drop, List.take_append_drop]
    · exact List.eraseIdx_eq_take_drop_succ ..

theorem onWire_of_lt (h : ∀ x ∈ R.wire, x.2.id < id) : R.onWire id = [] := by
  refine List.filter_eq_nil_iff.2 ?_
  intro x hx
  simpa using Nat.ne_of_lt (h x hx)

/-- What a switch sends on is the request that it was given. -/
theorem filter_forwarded (o : Pass) :
    ((forwarded N i o).toList.filter fun x => x.2.id = id) =
      if o.flight.id = id ∧ o.flight.hdr.IsTail then (forwarded N i o).toList else [] := by
  cases h : forwarded N i o with
  | none => simp
  | some x =>
    obtain ⟨htail, -, hx, -⟩ := forwarded_eq_some h
    by_cases hid : o.flight.id = id
    · simp [hx, hid, htail]
    · simp [hx, hid]

section
variable [DecidableEq ι]

theorem onWire_settle (s : Switch) (o : Pass) : (R.settle N i s o).onWire id =
    R.onWire id ++ (forwarded N i o).toList.filter fun x => x.2.id = id :=
  List.filter_append ..

/-- A switch can take a packet from between the switches if the pass has a result. -/
theorem step_hop {k : Nat} {tstamp : BitVec 48} (hk : R.wire[k]? = some (i, f))
    (hout : MyIngress.apply N.program (N.tables i) tstamp (R.sw i).regs f.hdr = some out) :
    (machine N).step R (.hop tstamp k) =
      some (settle N { R with wire := R.wire.eraseIdx k } i ((R.sw i).after f out)
        ⟨f, (R.sw i).regs, out⟩, ⟨i, .arrive tstamp f, ⟨f, (R.sw i).regs, out⟩⟩) := by
  simp [machine, step, dispatch, hk, Switch.step, Switch.present, Switch.pass, Switch.Event.tstamp,
    hout]

/-- A pass of another packet leaves the request where it is; a pass of the request takes it from
between the switches and puts back what the switch sends on. -/
theorem Inv.onWire_step (h : R.Inv) (hold : id < R.arrived)
    (hs : (machine N).step R e = some (R', o)) :
    (¬ o.OfTail id ∧ R'.onWire id = R.onWire id) ∨
      (o.OfTail id ∧ ∃ pre post, R.onWire id = pre ++ (o.switch, o.pass.flight) :: post ∧
        R'.onWire id = pre ++ post ++ (forwarded N o.switch o.pass).toList) := by
  obtain ⟨i, ev, R₀, f, s₀, out, hdisp, hp, -, rfl, rfl⟩ := step_eq_some hs
  rw [onWire_settle, filter_forwarded]
  rcases dispatch_wire hdisp with ⟨hwire, hnot⟩ | ⟨ts, g, pre, post, rfl, hwire, hwire₀⟩
  · have hother : ¬ (f.id = id ∧ f.hdr.IsTail) := by
      rintro ⟨hid, htail⟩
      cases h.origin hdisp hp with
      | entered ts hdr same flight =>
        rw [flight] at hid
        exact absurd hid (Nat.ne_of_gt hold)
      | returned ts k perm =>
        have hmem := perm.subset (List.mem_cons_self ..)
        exact ((h.numbered i).slots.circ f hmem).not_tail htail
      | visiting ts same kind => exact absurd htail kind.not_tail
      | travelling ts k => exact hnot ts k rfl
    refine .inl ⟨hother, ?_⟩
    rw [if_neg hother, List.append_nil, onWire, hwire, onWire]
  · simp only [Switch.present, Option.some.injEq, Prod.mk.injEq] at hp
    obtain ⟨rfl, -⟩ := hp
    have htail : g.hdr.IsTail := (h.wire (i, g) (by simp [hwire])).1
    by_cases hid : g.id = id
    · refine .inr ⟨⟨hid, htail⟩, pre.filter fun x => x.2.id = id,
        post.filter fun x => x.2.id = id, ?_, ?_⟩
      · simp [onWire, hwire, hid]
      · simp [onWire, hwire₀, hid, htail]
    · refine .inl ⟨fun hof => hid hof.1, ?_⟩
      simp [onWire, hwire, hwire₀, hid]

/-! ## The registers -/

/-- A pass is made on the registers of its switch, and no other switch changes. -/
theorem step_pass (hs : (machine N).step R e = some (R', o)) :
    o.pass.found = (R.sw o.switch).regs ∧
      MyIngress.apply N.program (N.tables o.switch) o.event.tstamp o.pass.found
        o.pass.flight.hdr = some o.pass.out ∧
      ∀ j, (R'.sw j).regs = if j = o.switch then o.pass.out.regs else (R.sw j).regs := by
  obtain ⟨i, ev, R₀, f, s₀, out, hdisp, hp, hout, rfl, rfl⟩ := step_eq_some hs
  refine ⟨by rw [(Ring.dispatched hdisp).sw], hout, ?_⟩
  intro j
  split
  · subst_vars
    rw [settle_self, Switch.regs_after]
  · rw [settle_ne ‹_›, (Ring.dispatched hdisp).sw]

theorem Inv.passKind (h : R.Inv) (hA : e.Arrives Headers.Enters)
    (hs : (machine N).step R e = some (R', o)) : o.pass.flight.hdr.WellFormed ∧
      MyIngress.PassKind o.pass.found o.pass.flight.hdr o.pass.out := by
  obtain ⟨i, ev, R₀, f, s₀, out, hdisp, hp, hout, -, rfl⟩ := step_eq_some hs
  have hf := h.fit hA hdisp hp
  exact ⟨hf.wellFormed, MyIngress.passKind hf.wellFormed hout⟩

theorem Inv.highest_le_step (h : R.Inv) (hA : e.Arrives Headers.Enters)
    (hs : (machine N).step R e = some (R', o)) (j : ι) :
    (R.sw j).regs.highestReplicatedSeqNo ≤ (R'.sw j).regs.highestReplicatedSeqNo := by
  obtain ⟨hfound, -, hregs⟩ := step_pass hs
  have hk := (h.passKind hA hs).2
  rw [hregs]
  split
  · subst_vars
    rw [← hfound]
    exact hk.highest_le
  · exact BitVec.le_refl _

/-- What a switch has recorded, it never forgets. -/
theorem Inv.highest_le_run (h : R.Inv) (hr : (machine N).Run R tr R')
    (hA : ∀ x ∈ tr, x.1.Arrives Headers.Enters) (hlt : R'.arrived < 2 ^ 32) :
    R'.Inv ∧ ∀ j, (R.sw j).regs.highestReplicatedSeqNo ≤ (R'.sw j).regs.highestReplicatedSeqNo := by
  refine hr.invariant (B := fun R => R.arrived < 2 ^ 32) (I := fun _ R' => R'.Inv ∧
    ∀ j, (R.sw j).regs.highestReplicatedSeqNo ≤ (R'.sw j).regs.highestReplicatedSeqNo)
    (fun _ _ _ _ _ hs hlt => Nat.lt_of_le_of_lt (step_arrived_le hs) hlt)
    (fun _ _ _ _ _ hA h hlt hs => ⟨h.1.step hA hlt hs, ?_⟩) hA
    ⟨h, fun j => BitVec.le_refl _⟩ hlt
  intro j
  exact BitVec.le_trans (h.2 j) (h.1.highest_le_step hA hs j)

/-- A reading in a run is at least what the switch held before the run, and at most what the control
packet carries after it. -/
theorem Inv.reading_bounds (h : R.Inv) (hr : (machine N).Run R tr R')
    (hA : ∀ x ∈ tr, x.1.Arrives Headers.Enters) (hlt : R'.arrived < 2 ^ 32)
    (hmem : (e, o) ∈ tr) :
    (R.sw o.switch).regs.highestReplicatedSeqNo.toNat ≤ reading o ∧
      reading o ≤ R'.token.cntrl.globalSeqNo.toNat := by
  have hfin := (h.highest_le_run hr hA hlt).1
  obtain ⟨tr₁, tr₂, rfl⟩ := List.append_of_mem hmem
  obtain ⟨M, M', hr₁, hs, hr₂⟩ := hr.split_cons
  have hA₁ : ∀ x ∈ tr₁, x.1.Arrives Headers.Enters := fun x hx => hA x (List.mem_append_left _ hx)
  have hle : M.arrived ≤ R'.arrived :=
    Nat.le_trans (step_arrived_le hs) (arrived_le_run hr₂)
  obtain ⟨hM, hgrow⟩ := h.highest_le_run hr₁ hA₁ (Nat.lt_of_le_of_lt hle hlt)
  rw [reading, (step_pass hs).1, hfin.count]
  refine ⟨BitVec.le_def.1 (hgrow o.switch), Nat.le_trans (hM.replicated o.switch) ?_⟩
  have hpre := step_issued_prefix hs
  exact (hpre.trans (issued_prefix_run hr₂)).length_le

/-- What a run has released and recorded, the switch holds at its end. -/
theorem Inv.recorded_le (h : R.Inv) (hr : (machine N).Run R tr R')
    (hA : ∀ x ∈ tr, x.1.Arrives Headers.Enters) (hlt : R'.arrived < 2 ^ 32)
    (hmem : (e, o) ∈ tr) (hresp : o.pass.flight.hdr.IsAppendResp)
    (hrel : MyIngress.Released o.pass.out) (htimer : o.pass.flight.hdr.timer.isValid = false) :
    o.pass.flight.hdr.append.gIdx.toNat ≤
      (R'.sw o.switch).regs.highestReplicatedSeqNo.toNat := by
  obtain ⟨tr₁, tr₂, rfl⟩ := List.append_of_mem hmem
  simp only [List.forall_mem_append, List.forall_mem_cons] at hA
  obtain ⟨hA₁, hAe, hA₂⟩ := hA
  obtain ⟨M, M', hr₁, hs, hr₂⟩ := hr.split_cons
  have hlt' : M'.arrived < 2 ^ 32 := Nat.lt_of_le_of_lt (arrived_le_run hr₂) hlt
  have hM := (h.highest_le_run hr₁ hA₁ (Nat.lt_of_le_of_lt (step_arrived_le hs) hlt')).1
  obtain ⟨-, hgrow⟩ := (hM.step hAe hlt' hs).highest_le_run hr₂ hA₂ hlt
  obtain ⟨hfound, hout, hregs⟩ := step_pass hs
  have hvalid := ((hM.passKind hAe hs).1 hresp.1).2 (.inr hresp.2)
  have hrec := (MyIngress.apply_response hresp hvalid hout).recorded hrel htimer
  have hkeep := hgrow o.switch
  rw [hregs, if_pos rfl] at hkeep
  exact BitVec.le_def.1 (BitVec.le_trans hrec hkeep)

/-! ## Runs -/

section
variable [Fintype ι] {next : Equiv.Perm ι} {entry : ι} {tstamp : BitVec 48} {req hdr : Headers}

theorem Journey.step (hj : Journey N next entry id v R) (ht : TailRing N next) (h : R.Inv)
    (hs : (machine N).step R e = some (R', o)) :
    Journey N next entry id (v ++ if o.OfTail id then [o] else []) R' := by
  have hold : id < R'.arrived := Nat.lt_of_lt_of_le hj.old (step_arrived_le hs)
  rcases h.onWire_step hj.old hs with ⟨hother, hwire⟩ | ⟨htail, pre, post, hwire, hwire'⟩
  · rw [if_neg hother, List.append_nil]
    exact ⟨hold, hj.around, hwire ▸ hj.place⟩
  · rw [if_pos htail]
    rcases hj.place with ⟨f, hf, hc⟩ | ⟨hnil, -⟩
    · -- the request is at one place, so it is this copy that the pass took
      rw [hwire, List.append_eq_singleton_iff] at hf
      rcases hf with ⟨rfl, hf⟩ | ⟨-, hf⟩
      · simp only [List.cons.injEq, Prod.mk.injEq] at hf
        obtain ⟨⟨hswitch, rfl⟩, rfl⟩ := hf
        exact ht.journey hold hj.around hswitch hc (step_pass hs).2.1 hwire'
      · simp at hf
    · simp [hnil] at hwire

theorem Journey.run (ht : TailRing N next) (h : R₁.Inv) (hr : (machine N).Run R₁ tr R)
    (hA : ∀ x ∈ tr, x.1.Arrives Headers.Enters) (hlt : R.arrived < 2 ^ 32)
    (hj : Journey N next entry id v R₁) :
    Journey N next entry id (v ++ visits id tr) R := by
  have hrun := hr.invariant (B := fun R => R.arrived < 2 ^ 32)
    (I := fun tr R => R.Inv ∧ Journey N next entry id (v ++ visits id tr) R)
    (fun _ _ _ _ _ hs hlt => Nat.lt_of_le_of_lt (step_arrived_le hs) hlt)
    (fun _ _ _ _ _ hA h hlt hs => ⟨h.1.step hA hlt hs, ?_⟩) hA ⟨h, by simpa [visits] using hj⟩ hlt
  · exact hrun.2
  · rw [visits_snoc, ← List.append_assoc]
    exact h.2.step ht h.1 hs

/-- The request enters: its first pass. -/
theorem Journey.enter (ht : TailRing N next) (h : R₁.Inv) (hreq : MyIngress.TailHeaders req)
    (hhops : req.tail.hops = 0) (hno : req.tail.tailSeqNo = 0)
    (hs : (machine N).step R₁ (.arrive entry tstamp req) = some (R, o)) :
    o.OfTail R₁.arrived ∧ Journey N next entry R₁.arrived [o] R := by
  have hout := (step_pass hs).2.1
  obtain ⟨i, ev, R₀, f, s₀, out, hdisp, hp, -, rfl, rfl⟩ := step_eq_some hs
  obtain ⟨rfl, rfl, rfl, rfl⟩ := dispatch_arrive hdisp hp
  have htail : req.IsTail := ⟨hreq.notControl, hreq.type⟩
  refine ⟨⟨rfl, htail⟩, ht.journey (v := []) (Nat.lt_succ_self _) (fun k o hk => ?_) rfl
    ⟨hreq, rfl, by simp [hhops], Nat.zero_le _, by simpa [hno] using isTop_nil⟩ hout ?_⟩
  · cases hk
  · rw [onWire_settle, filter_forwarded, if_pos ⟨rfl, htail⟩,
      onWire_of_lt (R := { R₁ with arrived := R₁.arrived + 1 }) fun x hx => (h.wire x hx).2.2]
    rfl

/-- A request on its way can make its next hop. -/
theorem Journey.progress (hj : Journey N next entry id v R) (hlen : v.length ≤ Fintype.card ι) :
    ∃ k, ∀ tstamp, ∃ R' o, (machine N).step R (.hop tstamp k) = some (R', o) ∧ o.OfTail id := by
  rcases hj.place with ⟨f, hwire, hc⟩ | ⟨-, harr⟩
  · have hmem : ((next ^ v.length) entry, f) ∈ R.wire :=
      List.mem_of_mem_filter (hwire ▸ List.mem_singleton_self _ :
        ((next ^ v.length) entry, f) ∈ R.onWire id)
    obtain ⟨k, hk⟩ := List.getElem?_of_mem hmem
    refine ⟨k, ?_⟩
    intro ts
    have hs := step_hop hk (MyIngress.apply_tail_eq hc.headers N.program _ ts _)
    exact ⟨_, _, hs, hc.id_eq, hc.headers.notControl, hc.headers.type⟩
  · have := harr.length
    omega

/-- **The tail protocol is linearizable.** Whatever else happens in the ring, a tail request goes
around it once, hop by hop, and can always make its next hop; it is returned at hop `n`. By then it
has visited every switch and carries the largest reading of its visits, which is at least every
number recorded before it entered and at most the control packet's number. -/
theorem tail_linearizable (ht : TailRing N next) (hr₁ : (machine N).Run (start hdr) tr₁ R₁)
    (hr₂ : (machine N).Run R₁ ((.arrive entry tstamp req, o) :: tr₂) R)
    (hA : ∀ x ∈ tr₁ ++ (.arrive entry tstamp req, o) :: tr₂, x.1.Arrives Headers.Enters)
    (hlt : R.arrived < 2 ^ 32) (hreq : MyIngress.TailHeaders req) (hhops : req.tail.hops = 0)
    (hno : req.tail.tailSeqNo = 0)
    (hv : v = visits R₁.arrived ((.arrive entry tstamp req, o) :: tr₂)) :
    Around N next entry v ∧
    (v.length ≤ Fintype.card ι → ∃ k, ∀ tstamp, ∃ R' o,
      (machine N).step R (.hop tstamp k) = some (R', o) ∧ o.OfTail R₁.arrived) ∧
    ∀ o ∈ v, o.pass.out.metadata.routeToClient = true →
      v[Fintype.card ι]? = some o ∧ v.length = Fintype.card ι + 1 ∧
      (∀ i, ∃ o' ∈ v, o'.switch = i) ∧
      IsGreatest (reading '' {o | o ∈ v}) o.pass.out.hdr.tail.tailSeqNo.toNat ∧
      (∀ x ∈ tr₁, x.2.pass.flight.hdr.IsAppendResp → MyIngress.Released x.2.pass.out →
        x.2.pass.flight.hdr.timer.isValid = false →
        x.2.pass.flight.hdr.append.gIdx.toNat ≤ o.pass.out.hdr.tail.tailSeqNo.toNat) ∧
      o.pass.out.hdr.tail.tailSeqNo.toNat ≤ R.token.cntrl.globalSeqNo.toNat := by
  have hlt₁ : R₁.arrived < 2 ^ 32 := Nat.lt_of_le_of_lt (arrived_le_run hr₂) hlt
  rw [List.forall_mem_append] at hA
  obtain ⟨hA₁, hA₂⟩ := hA
  have h₁ := inv_run hr₁ hA₁ hlt₁
  obtain ⟨R₂, hs, hr⟩ := hr₂.cons_inv
  have hlt₂ : R₂.arrived < 2 ^ 32 := Nat.lt_of_le_of_lt (arrived_le_run hr) hlt
  rw [List.forall_mem_cons] at hA₂
  have h₂ := h₁.step hA₂.1 hlt₂ hs
  obtain ⟨htail, hj⟩ := Journey.enter ht h₁ hreq hhops hno hs
  have hj := hj.run ht h₂ hr hA₂.2 hlt
  have hv' : v = [o] ++ visits R₁.arrived tr₂ := by
    simp [hv, visits, htail]
  rw [← hv'] at hj
  refine ⟨hj.around, hj.progress, ?_⟩
  intro o' ho' hret
  obtain ⟨k, hk⟩ := List.getElem?_of_mem ho'
  obtain rfl := hj.around.returned hk hret
  have hklt := (List.getElem?_eq_some_iff.1 hk).1
  obtain ⟨hlen, htop⟩ : Arrived v := by
    rcases hj.place with ⟨f, -, hc⟩ | ⟨-, harr⟩
    · have := hc.short
      omega
    · exact harr
  have hlast : v.getLast? = some o' := by
    rw [List.getLast?_eq_getElem?, hlen, Nat.add_sub_cancel, hk]
  have htop := htop o' hlast
  have hread : ∀ o' ∈ v, (R₁.sw o'.switch).regs.highestReplicatedSeqNo.toNat ≤ reading o' ∧
      reading o' ≤ R.token.cntrl.globalSeqNo.toNat := by
    intro o' ho'
    obtain ⟨-, e, he⟩ := exists_of_mem_visits (hv ▸ ho')
    exact h₁.reading_bounds hr₂ (List.forall_mem_cons.2 hA₂) hlt he
  have hcovers := hj.around.covers ht (by omega)
  have hgreat := htop.isGreatest (List.ne_nil_of_mem ho')
  refine ⟨hk, hlen, hcovers, hgreat, ?_, ?_⟩
  · intro x hx hresp hrel htimer
    obtain ⟨o'', ho'', hswitch⟩ := hcovers x.2.switch
    have hrec := (inv_start hdr).recorded_le hr₁ hA₁ hlt₁ hx hresp hrel htimer
    rw [← hswitch] at hrec
    exact Nat.le_trans hrec (Nat.le_trans (hread o'' ho'').1 (htop.upper o'' ho''))
  · obtain ⟨⟨o'', ho'', heq⟩, -⟩ := hgreat
    rw [← heq]
    exact (hread o'' ho'').2

/-! ### A ring of two switches -/

def ringOfTwo : Net Bool where
  program := .sequencingOnly
  tables _ := Tables.setupTailTable {} 2 1
  link i _ := some !i

theorem tailRing_two : TailRing ringOfTwo Equiv.boolNot where
  size := by decide
  cycle := by
    refine ⟨Equiv.boolNot.bijective.bijOn_univ, ?_⟩
    intro i _ j _
    by_cases h : i = j
    · exact ⟨0, h⟩
    · exact ⟨1, by cases i <;> cases j <;> simp_all⟩
  port i := ⟨{}, 1, rfl, rfl⟩

/-- An append is acknowledged at the first switch. A tail request that then enters at the other one
makes two hops and returns with its number. -/
theorem tail_linearizable_two : ∃ tr₁ tr₂ R₁ R o, ∃ v : List (Served Bool),
    (machine ringOfTwo).Run (start {}) tr₁ R₁ ∧
    (machine ringOfTwo).Run R₁ ((.arrive false 0 .tailPkt, o) :: tr₂) R ∧
    v = visits R₁.arrived ((.arrive false 0 .tailPkt, o) :: tr₂) ∧
    Around ringOfTwo Equiv.boolNot false v ∧
    ∃ o ∈ v, o.pass.out.metadata.routeToClient = true ∧ v[2]? = some o ∧
      IsGreatest (reading '' {o | o ∈ v}) o.pass.out.hdr.tail.tailSeqNo.toNat ∧
      o.pass.out.hdr.tail.tailSeqNo = 1 := by
  have hx₁ : (machine ringOfTwo).exec (start {}) [.arrive true 0 .appendPkt, .control true 0,
    .control true 0, .arrive true 0 (.responsePkt 1)] = some (_, _) := rfl
  obtain ⟨tr₁, R₁, hr₁, hA₁, o, tr₂, R, hx₂, hA₂, hlt, v, hv, o', ho', hret, hnum⟩ : ∃ tr₁ R₁,
      (machine ringOfTwo).Run (start {}) tr₁ R₁ ∧ (∀ x ∈ tr₁, x.1.Arrives Headers.Enters) ∧
        ∃ o tr₂ R, (machine ringOfTwo).exec R₁ [.arrive false 0 .tailPkt, .hop 0 0, .hop 0 0] =
            some (R, (.arrive false 0 .tailPkt, o) :: tr₂) ∧
          (∀ x ∈ (.arrive false 0 .tailPkt, o) :: tr₂, x.1.Arrives Headers.Enters) ∧
          R.arrived < 2 ^ 32 ∧ ∃ v, v = visits R₁.arrived ((.arrive false 0 .tailPkt, o) :: tr₂) ∧
          ∃ o ∈ v, o.pass.out.metadata.routeToClient = true ∧
            o.pass.out.hdr.tail.tailSeqNo = 1 := by
    refine ⟨_, _, .of_exec hx₁, by simp [Event.Arrives]; decide, _, _, _, rfl,
      by simp [Event.Arrives]; decide, by decide, _, rfl, ?_⟩
    decide
  have hA : ∀ x ∈ tr₁ ++ (.arrive false 0 .tailPkt, o) :: tr₂, x.1.Arrives Headers.Enters :=
    fun x hx => (List.mem_append.1 hx).elim (hA₁ x) (hA₂ x)
  obtain ⟨haround, -, hall⟩ := tail_linearizable tailRing_two hr₁ (.of_exec hx₂) hA hlt
    ⟨rfl, rfl, rfl, rfl, rfl⟩ rfl rfl hv
  obtain ⟨hget, -, -, hgreat, -⟩ := hall o' ho' hret
  exact ⟨tr₁, tr₂, R₁, R, o, v, hr₁, .of_exec hx₂, hv, haround, o', ho', hret, hget, hgreat, hnum⟩

end

end

end Ring

end Pringles.P4
