import Mathlib.GroupTheory.Perm.Cycle.Basic
import Pringles.Ring.Departure
import Pringles.Ring.Tail

/-!
# The way of the control packet

In a `Ring` the control packet may visit the switches in any order. In a `Circuit` it is where the
last switch sent it: `cntrl_id_to_ip` gave it a port, and the switch behind the port has it now. If
the tables of the switches lead around the ring (`ControlRing`), the packet visits the switches in
turn (`circulates_run`), and so no append waits for its number for longer than a round
(`departs_within_round`).
-/

namespace Pringles.P4

namespace Ring

/-- A ring and the switch that the control packet is about to enter. -/
structure Circuit (ι : Type) where
  ring : Ring ι
  holder : Option ι

variable {ι : Type} {N : Net ι} {C C' : Circuit ι} {R R' R₀ : Ring ι} {e : Event ι} {o : Served ι}
  {i j entry : ι} {f : Flight} {s₀ : Switch} {ev : Switch.Event} {hdr : Headers} {id : BitVec 16}
  {tr tr₁ tr₂ : List (Event ι × Served ι)} {x : Event ι × Served ι}

/-- The switch that the control packet visits. -/
def Event.visited : Event ι → Option ι
  | control i _ => some i
  | arrive _ _ _ => none
  | recirc _ _ _ => none
  | hop _ _ => none

theorem Event.visited_eq_some (h : e.visited = some i) : ∃ ts, e = .control i ts := by
  cases e with
  | control k ts =>
    simp only [visited, Option.some.injEq] at h
    exact ⟨ts, by rw [h]⟩
  | arrive | recirc | hop => simp [visited] at h

/-- The switch that the packet of a pass is sent to. -/
def sentTo (N : Net ι) (o : Served ι) : Option ι :=
  o.pass.out.tm.ucastEgressPort.bind (N.link o.switch)

/-- The switches that the control packet has visited, in this order. -/
def controlVisits (tr : List (Event ι × Served ι)) : List ι := tr.filterMap fun x => x.1.visited

theorem controlVisits_snoc :
    controlVisits (tr ++ [(e, o)]) = controlVisits tr ++ e.visited.toList := by
  simp only [controlVisits, List.filterMap_append, List.filterMap_cons, List.filterMap_nil]
  cases e.visited <;> rfl

section
variable [DecidableEq ι]

/-- The control packet enters a switch only if it is there, and goes where the switch sends it. -/
def Circuit.step (N : Net ι) (C : Circuit ι) (e : Event ι) : Option (Circuit ι × Served ι) :=
  match e.visited with
  | none => (Ring.step N C.ring e).map fun q => (⟨q.1, C.holder⟩, q.2)
  | some i =>
    if C.holder = some i then
      (Ring.step N C.ring e).map fun q => (⟨q.1, sentTo N q.2⟩, q.2)
    else none

def circuit (N : Net ι) : Machine (Circuit ι) (Event ι) (Served ι) := ⟨Circuit.step N⟩

/-- A step of the circuit is a step of the ring. -/
theorem circuit_step (hs : (circuit N).step C e = some (C', o)) :
    (machine N).step C.ring e = some (C'.ring, o) := by
  simp only [circuit, Circuit.step] at hs
  split at hs
  · simp only [Option.map_eq_some_iff, Prod.mk.injEq] at hs
    obtain ⟨q, hq, rfl, rfl⟩ := hs
    exact hq
  · split at hs
    · simp only [Option.map_eq_some_iff, Prod.mk.injEq] at hs
      obtain ⟨q, hq, rfl, rfl⟩ := hs
      exact hq
    · cases hs

theorem circuit_quiet (hv : e.visited = none) (hs : (circuit N).step C e = some (C', o)) :
    C'.holder = C.holder := by
  simp only [circuit, Circuit.step, hv, Option.map_eq_some_iff, Prod.mk.injEq] at hs
  obtain ⟨q, -, rfl, -⟩ := hs
  rfl

theorem circuit_visit (hv : e.visited = some i) (hs : (circuit N).step C e = some (C', o)) :
    C.holder = some i ∧ C'.holder = sentTo N o := by
  simp only [circuit, Circuit.step, hv] at hs
  split at hs
  · simp only [Option.map_eq_some_iff, Prod.mk.injEq] at hs
    obtain ⟨q, -, rfl, rfl⟩ := hs
    exact ⟨‹_›, rfl⟩
  · cases hs

/-- **A run of the circuit is a run of the ring.** -/
theorem circuit_run (hr : (circuit N).Run C tr C') : (machine N).Run C.ring tr C'.ring := by
  have himage := hr.image (N := machine N) (f := Circuit.ring) (g := some)
    (fun _ _ _ _ _ hs hx => by cases hx; exact circuit_step hs) (fun _ _ _ _ _ hx => by cases hx)
  simpa using himage

/-! ## Around the ring -/

/-- The control tables are installed for packet `id`, and the ports lead around the ring. -/
structure ControlRing (N : Net ι) (next : Equiv.Perm ι) (id : BitVec 16) : Prop where
  cycle : next.IsCycleOn Set.univ
  port : ∀ i, ∃ t port, N.tables i = Tables.setupCntrlTable t id id port ∧
    N.link i port = some (next i)

variable {next : Equiv.Perm ι}

omit [DecidableEq ι] in
/-- A pass of the control packet sends it to the next switch, under the same id. -/
theorem ControlRing.pass (hring : ControlRing N next id) (ev : Switch.Event) (f : Flight)
    {tstamp : BitVec 48} {regs : Registers} {out : Pipe} (hc : hdr.IsControl)
    (hid : hdr.cntrl.pktId = id)
    (hout : MyIngress.apply N.program (N.tables i) tstamp regs hdr = some out) :
    sentTo N ⟨i, ev, ⟨f, regs, out⟩⟩ = some (next i) ∧ out.hdr.cntrl.pktId = id := by
  obtain ⟨t, port, htable, hlink⟩ := hring.port i
  have hentry : (N.tables i).cntrlIdToIp hdr.cntrl.pktId = .cntrlForward port id := by
    rw [htable, hid]
    exact if_pos rfl
  obtain ⟨hport, hpkt⟩ := MyIngress.apply_control_forward hc hentry hout
  exact ⟨by simp [sentTo, hport, hlink], hpkt⟩

/-- Where the control packet is, and where it has been. -/
structure Circulates (next : Equiv.Perm ι) (entry : ι) (id : BitVec 16)
    (tr : List (Event ι × Served ι)) (C : Circuit ι) : Prop where
  pktId : C.ring.token.cntrl.pktId = id
  holder : C.holder = some ((next ^ (controlVisits tr).length) entry)
  visits : controlVisits tr =
    (List.range (controlVisits tr).length).map fun k => (next ^ k) entry

omit [DecidableEq ι] in
/-- Nothing but a control visit hands a control packet to a switch. -/
theorem Inv.not_control (h : R.Inv) (hA : e.Arrives Headers.Enters) (ho : R.Origin i f s₀ e)
    (hv : e.visited = none) : ¬ f.hdr.IsControl := by
  intro hctl
  cases ho with
  | entered ts hdr same flight =>
    subst flight
    exact hctl.not_data hA.1
  | returned ts k perm =>
    have hmem := perm.subset (List.mem_cons_self ..)
    exact hctl.not_data ((h.numbered i).slots.circ f hmem).2.1
  | visiting ts => simp [Event.visited] at hv
  | travelling ts k same kind => exact hctl.not_tail kind

theorem Circulates.step (hc : Circulates next entry id tr C) (hring : ControlRing N next id)
    (h : C.ring.Inv) (hA : e.Arrives Headers.Enters)
    (hs : (circuit N).step C e = some (C', o)) :
    Circulates next entry id (tr ++ [(e, o)]) C' := by
  obtain ⟨k, ev, R₀, f, s₀, out, hdisp, hp, hout, hR', rfl⟩ := step_eq_some (circuit_step hs)
  cases hv : e.visited with
  | none =>
    have hctl := h.not_control hA (h.origin hdisp hp) hv
    have hsame : controlVisits (tr ++ [(e, ⟨k, ev, ⟨f, (R₀.sw k).regs, out⟩⟩)]) =
        controlVisits tr := by
      rw [controlVisits_snoc, hv, Option.toList_none, List.append_nil]
    refine ⟨?_, ?_, ?_⟩
    · rw [hR']
      simp only [settle, hctl, if_false]
      rw [(Ring.dispatched hdisp).token]
      exact hc.pktId
    · rw [circuit_quiet hv hs, hsame]
      exact hc.holder
    · rw [hsame]
      exact hc.visits
  | some i =>
    obtain ⟨hhold, hnext⟩ := circuit_visit hv hs
    obtain ⟨ts, rfl⟩ := Event.visited_eq_some hv
    simp only [dispatch, Option.some.injEq, Prod.mk.injEq] at hdisp
    obtain ⟨rfl, rfl, rfl⟩ := hdisp
    simp only [Switch.present, Option.some.injEq, Prod.mk.injEq] at hp
    obtain ⟨rfl, rfl⟩ := hp
    obtain ⟨hsent, hpkt⟩ := hring.pass (.arrive ts ⟨C.ring.arrived, C.ring.token⟩)
      ⟨C.ring.arrived, C.ring.token⟩ h.token hc.pktId hout
    -- the switch that has the control packet is the one it has come to in as many hops as visits
    have hi : i = (next ^ (controlVisits tr).length) entry :=
      Option.some.inj (hhold.symm.trans hc.holder)
    have hlen : (controlVisits tr ++ [i]).length = (controlVisits tr).length + 1 := by simp
    refine ⟨?_, ?_, ?_⟩
    · rw [hR']
      have hctl : C.ring.token.IsControl := h.token
      simp only [settle, hctl, if_true]
      exact hpkt
    · rw [hnext, hsent, controlVisits_snoc, hv, Option.toList_some, hlen, pow_succ',
        Equiv.Perm.mul_apply, ← hi]
    · rw [controlVisits_snoc, hv, Option.toList_some, hlen, List.range_succ, List.map_append,
        ← hc.visits, List.map_singleton, ← hi]

/-- **The control packet goes around the ring.** -/
theorem circulates_run (hring : ControlRing N next id) (hid : hdr.cntrl.pktId = id)
    (hr : (circuit N).Run ⟨start hdr, some entry⟩ tr C)
    (hA : ∀ x ∈ tr, x.1.Arrives Headers.Enters) (hlt : C.ring.arrived < 2 ^ 32) :
    Circulates next entry id tr C := by
  refine (hr.invariant (I := fun tr C => C.ring.Inv ∧ Circulates next entry id tr C)
    (B := fun C => C.ring.arrived < 2 ^ 32)
    (fun _ _ _ _ _ hs hlt => Nat.lt_of_le_of_lt (step_arrived_le (circuit_step hs)) hlt) ?_ hA
    ⟨inv_start hdr, hid, rfl, rfl⟩ hlt).2
  rintro tr C e C' o hA ⟨h, hc⟩ hlt hs
  exact ⟨h.step hA hlt (circuit_step hs), hc.step hring h hA hs⟩

/-! ## Waiting for a number -/

section
variable [Fintype ι]

omit [DecidableEq ι] in
/-- As many visits in a row as there are switches come to every switch. -/
theorem Circulates.mem_round (hc : Circulates next entry id tr C)
    (hcycle : next.IsCycleOn Set.univ) {u v w : List ι} (hvisits : controlVisits tr = u ++ v ++ w)
    (hlen : Fintype.card ι ≤ v.length) (i : ι) : i ∈ v := by
  have hcycle' : next.IsCycleOn (Finset.univ : Finset ι) := by
    rw [Finset.coe_univ]
    exact hcycle
  obtain ⟨k, hk, hki⟩ := hcycle'.exists_pow_eq (Finset.mem_univ ((next ^ u.length) entry))
    (Finset.mem_univ i)
  rw [Finset.card_univ] at hk
  have hkv : k < v.length := by omega
  have hpos : (controlVisits tr)[u.length + k]? = v[k]? := by
    rw [hvisits, List.append_assoc, List.getElem?_append_right (by omega),
      Nat.add_sub_cancel_left, List.getElem?_append_left hkv]
  have hvisit : (controlVisits tr)[u.length + k]? = some i := by
    have hlt : u.length + k < (controlVisits tr).length := by
      simp only [hvisits, List.length_append]
      omega
    rw [hc.visits, List.getElem?_map, List.getElem?_range hlt, Option.map_some, Nat.add_comm,
      pow_add, Equiv.Perm.mul_apply, hki]
  rw [hpos] at hvisit
  exact List.mem_of_getElem? hvisit

/-- **No append waits longer than a round.** In any row of as many control visits as there are
switches, every switch gets one visit. When clients send nothing but appends, an append that comes
back after that many visits since it arrived leaves, with its position as its number. -/
theorem departs_within_round (hring : ControlRing N next id) (hid : hdr.cntrl.pktId = id)
    (hr : (circuit N).Run ⟨start hdr, some entry⟩ tr C)
    (hA : ∀ x ∈ tr, x.1.Arrives Headers.IsFresh) (hlt : C.ring.arrived < 2 ^ 32) :
    (∀ u v w, controlVisits tr = u ++ v ++ w → v.length = Fintype.card ι →
      v.Nodup ∧ ∀ i, i ∈ v) ∧
    ∀ tr₁ x tr₂ e o tr₃ i ts h, tr = tr₁ ++ x :: tr₂ ++ (e, o) :: tr₃ → x.1 = .arrive i ts h →
      Fintype.card ι ≤ (controlVisits tr₂).length → o.pass.flight.id = x.2.pass.flight.id →
      ∃ n, (office (tr₁ ++ x :: tr₂)).order.issued[n]? = some (o.switch, o.pass.flight.id) ∧
        routedBy o.pass = some ⟨o.pass.flight.id, BitVec.ofNat 32 (n + 1)⟩ := by
  have hc := circulates_run hring hid hr (fun x hx => (hA x hx).imp fun _ hf => hf.enters) hlt
  constructor
  · intro u v w hvisits hlen
    have hall := hc.mem_round hring.cycle hvisits hlen.ge
    refine ⟨?_, hall⟩
    have huniv : v.toFinset = Finset.univ := Finset.eq_univ_of_forall fun i => by simp [hall i]
    refine Multiset.coe_nodup.1 (Multiset.toFinset_card_eq_card_iff_nodup.1 ?_)
    change v.toFinset.card = v.length
    rw [huniv, Finset.card_univ, hlen]
  · rintro tr₁ x tr₂ e o tr₃ i ts h rfl hx hround hpass
    have hvisits : controlVisits (tr₁ ++ x :: tr₂ ++ (e, o) :: tr₃) =
        controlVisits tr₁ ++ controlVisits tr₂ ++ controlVisits ((e, o) :: tr₃) := by
      simp [controlVisits, hx, Event.visited]
    obtain ⟨y, hy, hyi⟩ := List.mem_filterMap.1 (hc.mem_round hring.cycle hvisits hround i)
    have hsince : VisitedSince (tr₁ ++ x :: tr₂) i o.pass.flight.id :=
      ⟨tr₁, x, tr₂, rfl, ⟨ts, h, hx⟩, hpass.symm, y, hy, Event.visited_eq_some hyi⟩
    have hrun := circuit_run hr
    obtain rfl := switch_of_visitedSince hrun hA hlt hsince
    obtain ⟨r, hroute⟩ := (routedBy_iff_visitedSince hrun hA hlt).2 hsince
    obtain ⟨n, hn, rfl⟩ := (routedBy_iff_issued hrun hA hlt).1 hroute
    exact ⟨n, hn, hroute⟩

/-! ### A circuit of two switches -/

def circuitOfTwo : Net Bool where
  program := .sequencingOnly
  tables _ := Tables.setupCntrlTable {} 1 1 140
  link i _ := some !i

theorem controlRing_two : ControlRing circuitOfTwo Equiv.boolNot 1 where
  cycle := tailRing_two.cycle
  port _ := ⟨{}, 140, rfl, rfl⟩

/-- An append arrives just behind the control packet, and waits until it comes back. -/
theorem departs_within_round_two : ∃ C, ∃ tr₂ : List (Event Bool × Served Bool), ∃ x y z,
    (circuit circuitOfTwo).Run ⟨start { cntrl := { pktId := 1 } }, some true⟩
      ([y] ++ x :: tr₂ ++ [z]) C ∧ controlVisits ([y] ++ x :: tr₂ ++ [z]) = [true, false, true] ∧
      ∃ n, (office ([y] ++ x :: tr₂)).order.issued[n]? = some (z.2.switch, z.2.pass.flight.id) ∧
        routedBy z.2.pass = some ⟨z.2.pass.flight.id, BitVec.ofNat 32 (n + 1)⟩ := by
  have hx : (circuit circuitOfTwo).exec ⟨start { cntrl := { pktId := 1 } }, some true⟩
    [.control true 0, .arrive true 0 .appendPkt, .control false 0, .recirc true 0 0,
      .control true 0, .recirc true 0 0] = some (_, _) := rfl
  obtain ⟨C, tr₂, x, y, z, hr, hA, hlt, hvisits, hround, hx, hpass⟩ : ∃ C,
      ∃ tr₂ : List (Event Bool × Served Bool), ∃ x y z,
      (circuit circuitOfTwo).Run ⟨start { cntrl := { pktId := 1 } }, some true⟩
        ([y] ++ x :: tr₂ ++ [z]) C ∧
      (∀ w ∈ [y] ++ x :: tr₂ ++ [z], w.1.Arrives Headers.IsFresh) ∧ C.ring.arrived < 2 ^ 32 ∧
      controlVisits ([y] ++ x :: tr₂ ++ [z]) = [true, false, true] ∧
      Fintype.card Bool ≤ (controlVisits tr₂).length ∧ x.1 = .arrive true 0 .appendPkt ∧
      z.2.pass.flight.id = x.2.pass.flight.id :=
    ⟨_, [_, _, _], _, _, _, .of_exec hx, by simp [Event.Arrives]; decide, by decide, rfl,
      by decide, rfl, rfl⟩
  obtain ⟨-, hdeparts⟩ := departs_within_round controlRing_two rfl hr hA hlt
  exact ⟨C, tr₂, x, y, z, hr, hvisits, hdeparts [y] x tr₂ z.1 z.2 [] true 0 _ rfl hx hround hpass⟩

end

end

end Ring

end Pringles.P4
