import Pringles.Ring.Circulation
import Pringles.Switch.Release

/-!
# Waiting for an acknowledgement

A switch holds a response back until its open slot contains a number that covers the response. A
visit of the control packet leaves such a number there only if it closes no batch, and the next
packet that draws a number takes it away again. So a response that is held while nobody draws a
number at its switch waits for two rounds at most: the first visit closes the batch, the second one
finds none (`acks_within_two_rounds`). A switch that always has a batch to close releases nothing.
-/

namespace Pringles.P4

namespace Ring

variable {ι : Type} {N : Net ι} {R R' : Ring ι} {e : Event ι} {o : Served ι} {i : ι} {n : Nat}
  {hdr : Headers} {tr : List (Event ι × Served ι)}

/-- Switch `i` has no open batch. -/
def NoBatch (i : ι) (R : Ring ι) : Prop := (R.sw i).pending = []

/-- The open slot of switch `i` covers the first `n` numbers. -/
def Covers (i : ι) (n : Nat) (R : Ring ι) : Prop := n ≤ (R.sw i).openSlot.toNat

/-- Nobody draws a number at switch `i`. -/
def QuietAt (i : ι) (tr : List (Event ι × Served ι)) : Prop :=
  ∀ x ∈ tr, x.2.switch = i → ¬ x.2.pass.flight.hdr.Draws

theorem QuietAt.append {tr' : List (Event ι × Served ι)} :
    QuietAt i (tr ++ tr') ↔ QuietAt i tr ∧ QuietAt i tr' := List.forall_mem_append

theorem QuietAt.cons {x : Event ι × Served ι} : QuietAt i (x :: tr) ↔
    (x.2.switch = i → ¬ x.2.pass.flight.hdr.Draws) ∧ QuietAt i tr := List.forall_mem_cons

theorem Inv.noBatch_iff (h : R.Inv) (hlt : R.arrived < 2 ^ 32) :
    NoBatch i R ↔ (R.sw i).regs.localSeqNo = 0 := by
  have hle := h.pending_le i
  rw [NoBatch, (h.numbered i).slots.drawn, ← List.length_eq_zero_iff, ← BitVec.toNat_inj,
    BitVec.toNat_ofNat, Nat.mod_eq_of_lt (by omega)]
  rfl

section
variable [DecidableEq ι]

/-! ## One step -/

/-- What a step does to the switch that it concerns. -/
theorem Inv.step_at (h : R.Inv) (hA : e.Arrives Headers.Enters)
    (hs : (machine N).step R e = some (R', o)) :
    ∃ s₀, Switch.Presented (R.sw o.switch) o.pass.flight s₀ ∧ s₀.Slots ∧
      o.pass.flight.hdr.WellFormed ∧ o.pass.found = s₀.regs ∧
      (o.pass.flight.hdr.IsControl → o.pass.flight.hdr = R.token) ∧
      MyIngress.apply N.program (N.tables o.switch) o.event.tstamp s₀.regs o.pass.flight.hdr =
        some o.pass.out ∧ R'.sw o.switch = s₀.after o.pass.flight o.pass.out := by
  obtain ⟨i, ev, R₀, f, s₀, out, hdisp, hp, hout, rfl, rfl⟩ := step_eq_some hs
  have hf := h.fit hA hdisp hp
  have hpres := hf.presented
  have hdispatched := Ring.dispatched hdisp
  rw [← hpres.regs] at hout
  rw [hdispatched.sw] at hpres
  refine ⟨s₀, hpres, (h.numbered i).slots.presented hpres, hf.wellFormed, hf.presented.regs.symm,
    ?_, hout, settle_self⟩
  intro hctl
  rw [hf.control hctl, hdispatched.token]

theorem Inv.noBatch_step (h : R.Inv) (hA : e.Arrives Headers.Enters)
    (hquiet : o.switch = i → ¬ o.pass.flight.hdr.Draws)
    (hs : (machine N).step R e = some (R', o)) (hno : NoBatch i R) : NoBatch i R' := by
  by_cases hi : o.switch = i
  · subst hi
    obtain ⟨s₀, hpres, -, -, -, -, -, hsw⟩ := h.step_at hA hs
    rw [NoBatch, hsw]
    by_cases hc : s₀.Closes o.pass.flight.hdr
    · exact Switch.pending_closes hc
    · rw [Switch.pending_quiet hc (hquiet rfl), hpres.pending]
      exact hno
  · rw [NoBatch, (step_switch hs).2 i (Ne.symm hi)]
    exact hno

/-- The switch that the control packet visits makes the pass, and the packet is the ring's. -/
theorem step_visit (hv : e.visited = some i) (hs : (machine N).step R e = some (R', o)) :
    o.switch = i ∧ o.pass.flight.hdr = R.token := by
  obtain ⟨ts, rfl⟩ := Event.visited_eq_some hv
  obtain ⟨k, ev, R₀, f, s₀, out, hdisp, hp, -, -, rfl⟩ := step_eq_some hs
  simp only [dispatch, Option.some.injEq, Prod.mk.injEq] at hdisp
  obtain ⟨rfl, rfl, rfl⟩ := hdisp
  simp only [Switch.present, Option.some.injEq, Prod.mk.injEq] at hp
  obtain ⟨rfl, -⟩ := hp
  exact ⟨rfl, rfl⟩

/-- A control packet is handed to a switch on its visits only. -/
theorem Inv.visited_of_control (h : R.Inv) (hA : e.Arrives Headers.Enters)
    (hs : (machine N).step R e = some (R', o)) (hctl : o.pass.flight.hdr.IsControl) :
    e.visited = some o.switch := by
  cases hv : e.visited with
  | none =>
    obtain ⟨i, ev, R₀, f, s₀, out, hdisp, hp, -, -, rfl⟩ := step_eq_some hs
    exact absurd hctl (h.not_control hA (h.origin hdisp hp) hv)
  | some k => rw [(step_visit hv hs).1]

/-- A visit leaves no batch open. -/
theorem Inv.noBatch_visit (h : R.Inv) (hlt : R.arrived < 2 ^ 32) (hA : e.Arrives Headers.Enters)
    (hv : e.visited = some i) (hs : (machine N).step R e = some (R', o)) : NoBatch i R' := by
  obtain ⟨rfl, htoken⟩ := step_visit hv hs
  have hctl : o.pass.flight.hdr.IsControl := htoken ▸ h.token
  obtain ⟨s₀, hpres, -, -, -, -, -, hsw⟩ := h.step_at hA hs
  by_cases hno : NoBatch o.switch R
  · exact h.noBatch_step hA (fun _ => hctl.not_draws) hs hno
  · have hc : s₀.Closes o.pass.flight.hdr := by
      refine ⟨hctl, fun h0 => hno ((h.noBatch_iff hlt).2 ?_)⟩
      rw [← hpres.regs]
      exact h0
    rw [NoBatch, hsw]
    exact Switch.pending_closes hc

/-- A visit that closes no batch leaves the number of the control packet. -/
theorem Inv.covers_visit (h : R.Inv) (hlt : R.arrived < 2 ^ 32) (hA : e.Arrives Headers.Enters)
    (hs : (machine N).step R e = some (R', o)) (hctl : o.pass.flight.hdr.IsControl)
    (hno : NoBatch o.switch R) (hn : n ≤ R.issued.length) : Covers o.switch n R' := by
  obtain ⟨s₀, hpres, hslots, -, -, htoken, hout, hsw⟩ := h.step_at hA hs
  have hlocal : s₀.regs.localSeqNo = 0 := by
    rw [hpres.regs]
    exact (h.noBatch_iff hlt).1 hno
  have hzero : ∀ x : BitVec 32, x + 0 = x := BitVec.add_zero
  rw [Covers, hsw, Switch.openSlot_visit hslots hctl hout, if_pos hlocal,
    (MyIngress.apply_control hctl hout).globalSeqNo, hlocal, hzero, htoken hctl, h.count]
  exact hn

/-- As long as nobody draws a number, what the open slot covers it goes on covering. -/
theorem Inv.covers_step (h : R.Inv) (hlt : R.arrived < 2 ^ 32) (hA : e.Arrives Headers.Enters)
    (hquiet : o.switch = i → ¬ o.pass.flight.hdr.Draws)
    (hs : (machine N).step R e = some (R', o)) (hno : NoBatch i R) (hn : n ≤ R.issued.length)
    (hcov : Covers i n R) : Covers i n R' := by
  by_cases hi : o.switch = i
  · subst hi
    obtain ⟨s₀, hpres, -, hw, -, -, hout, hsw⟩ := h.step_at hA hs
    by_cases hctl : o.pass.flight.hdr.IsControl
    · exact h.covers_visit hlt hA hs hctl hno hn
    · have hun : ¬ o.pass.flight.hdr.IsUnnumbered := by
        rintro ⟨happ, hzero⟩
        exact hquiet rfl ⟨happ.1, (hw happ.1).2 (.inl happ.2), hzero⟩
      have hopen : s₀.openSlot = (R.sw o.switch).openSlot := by
        rw [Switch.openSlot, Switch.openSlot, hpres.regs]
      rw [Covers, hsw, Switch.openSlot_pass hw hctl hout, if_neg hun, hopen]
      exact hcov
  · rw [Covers, (step_switch hs).2 i (Ne.symm hi)]
    exact hcov

/-! ## Two visits -/

theorem Inv.run (h : R.Inv) (hr : (machine N).Run R tr R')
    (hA : ∀ x ∈ tr, x.1.Arrives Headers.Enters) (hlt : R'.arrived < 2 ^ 32) : R'.Inv :=
  hr.invariant (I := fun _ R => R.Inv) (B := fun R => R.arrived < 2 ^ 32)
    (fun _ _ _ _ _ hs hlt => Nat.lt_of_le_of_lt (step_arrived_le hs) hlt)
    (fun _ _ _ _ _ hA h hlt hs => h.step hA hlt hs) hA h hlt

/-- While nobody draws a number at switch `i`, one visit leaves no batch open, and a visit that finds
none makes the open slot cover all numbers issued before. -/
theorem Inv.quiet_run (h : R.Inv) (hr : (machine N).Run R tr R')
    (hA : ∀ x ∈ tr, x.1.Arrives Headers.Enters) (hlt : R'.arrived < 2 ^ 32)
    (hn : n ≤ R.issued.length) (hquiet : QuietAt i tr) :
    (NoBatch i R ∨ i ∈ controlVisits tr → NoBatch i R') ∧
      (NoBatch i R → i ∈ controlVisits tr → Covers i n R') := by
  refine (hr.invariant (I := fun tr R' => R'.Inv ∧ n ≤ R'.issued.length ∧ (QuietAt i tr →
      (NoBatch i R ∨ i ∈ controlVisits tr → NoBatch i R') ∧
        (NoBatch i R → i ∈ controlVisits tr → Covers i n R')))
    (B := fun R' => R'.arrived < 2 ^ 32)
    (fun _ _ _ _ _ hs hlt => Nat.lt_of_le_of_lt (step_arrived_le hs) hlt) ?_ hA
    ⟨h, hn, fun _ => by simp [controlVisits]⟩ hlt).2.2 hquiet
  rintro tr R₁ e R₂ o hA ⟨h₁, hn, hsofar⟩ hlt hs
  have hgrows : R₁.issued <+: R₂.issued := step_issued_prefix hs
  refine ⟨h₁.step hA hlt hs, Nat.le_trans hn hgrows.length_le, fun hq => ?_⟩
  rw [QuietAt.append, QuietAt.cons] at hq
  obtain ⟨hclear, hcover⟩ := hsofar hq.1
  have hlt₁ : R₁.arrived < 2 ^ 32 := Nat.lt_of_le_of_lt (step_arrived_le hs) hlt
  rw [controlVisits_snoc, List.mem_append, Option.mem_toList]
  by_cases hv : e.visited = some i
  · obtain ⟨rfl, htoken⟩ := step_visit hv hs
    refine ⟨fun _ => h₁.noBatch_visit hlt₁ hA hv hs, fun hno _ => ?_⟩
    exact h₁.covers_visit hlt₁ hA hs (htoken ▸ h₁.token) (hclear (.inl hno)) hn
  · simp only [hv, or_false]
    refine ⟨fun hno => h₁.noBatch_step hA hq.2.1 hs (hclear hno), fun hno hmem => ?_⟩
    exact h₁.covers_step hlt₁ hA hq.2.1 hs (hclear (.inl hno)) hn (hcover hno hmem)

/-! ## Release -/

/-- A response is released when the open slot covers it. -/
theorem Inv.released_iff (h : R.Inv) (hA : e.Arrives Headers.Enters)
    (hs : (machine N).step R e = some (R', o)) (hresp : o.pass.flight.hdr.IsAppendResp) :
    MyIngress.Released o.pass.out ↔
      Covers o.switch o.pass.flight.hdr.append.gIdx.toNat R := by
  obtain ⟨s₀, hpres, -, hw, -, -, hout, -⟩ := h.step_at hA hs
  have hvalid := (hw hresp.1).2 (.inr hresp.2)
  rw [(MyIngress.apply_response hresp hvalid hout).released_iff, MyIngress.Ready, hpres.regs]
  exact BitVec.le_def

/-- At a switch whose visits all close a batch the open slot stays empty. -/
theorem openSlot_of_closing (hr : (machine N).Run (start hdr) tr R)
    (hA : ∀ x ∈ tr, x.1.Arrives Headers.Enters) (hlt : R.arrived < 2 ^ 32)
    (hclosing : ∀ x ∈ tr, x.1.visited = some i → x.2.pass.found.localSeqNo ≠ 0) :
    (R.sw i).openSlot = 0 := by
  refine (hr.invariant (I := fun tr R => R.Inv ∧
      ((∀ x ∈ tr, x.1.visited = some i → x.2.pass.found.localSeqNo ≠ 0) → (R.sw i).openSlot = 0))
    (B := fun R => R.arrived < 2 ^ 32)
    (fun _ _ _ _ _ hs hlt => Nat.lt_of_le_of_lt (step_arrived_le hs) hlt) ?_ hA
    ⟨inv_start hdr, fun _ => rfl⟩ hlt).2 hclosing
  rintro tr R e R' o hA ⟨h, hempty⟩ hlt hs
  refine ⟨h.step hA hlt hs, fun hclosing => ?_⟩
  rw [List.forall_mem_append, List.forall_mem_singleton] at hclosing
  have hempty := hempty hclosing.1
  by_cases hi : o.switch = i
  · subst hi
    obtain ⟨s₀, hpres, hslots, hw, hfound, -, hout, hsw⟩ := h.step_at hA hs
    rw [hsw]
    by_cases hctl : o.pass.flight.hdr.IsControl
    · rw [Switch.openSlot_visit hslots hctl hout, if_neg]
      rw [← hfound]
      exact hclosing.2 (h.visited_of_control hA hs hctl)
    · rw [Switch.openSlot_pass hw hctl hout, Switch.openSlot, hpres.regs]
      exact ite_eq_left_iff.2 fun _ => hempty
  · rw [(step_switch hs).2 i (Ne.symm hi)]
    exact hempty

/-- **An acknowledgement waits for two rounds.** A response whose number has been issued is released
when it comes back after two rounds in which nobody has drawn a number at its switch. A switch where
every visit of the control packet closes a batch releases no number. -/
theorem acks_within_two_rounds [Fintype ι] {next : Equiv.Perm ι} {entry : ι} {id : BitVec 16}
    {C₁ C : Circuit ι} {tr₁ tr₂ : List (Event ι × Served ι)} (hring : ControlRing N next id)
    (hid : hdr.cntrl.pktId = id) (hr₁ : (circuit N).Run ⟨start hdr, some entry⟩ tr₁ C₁)
    (hr₂ : (circuit N).Run C₁ (tr₂ ++ [(e, o)]) C)
    (hA : ∀ x ∈ tr₁ ++ (tr₂ ++ [(e, o)]), x.1.Arrives Headers.Enters)
    (hlt : C.ring.arrived < 2 ^ 32) (hresp : o.pass.flight.hdr.IsAppendResp) :
    (o.pass.flight.hdr.append.gIdx.toNat ≤ C₁.ring.issued.length →
      2 * Fintype.card ι ≤ (controlVisits tr₂).length → QuietAt o.switch tr₂ →
      MyIngress.Released o.pass.out) ∧
    (o.pass.flight.hdr.append.gIdx ≠ 0 →
      (∀ x ∈ tr₁ ++ tr₂, x.1.visited = some o.switch → x.2.pass.found.localSeqNo ≠ 0) →
      ¬ MyIngress.Released o.pass.out) := by
  rw [List.forall_mem_append, List.forall_mem_append, List.forall_mem_singleton] at hA
  obtain ⟨hA₁, hA₂, he⟩ := hA
  obtain ⟨C₂, hr₂, hs⟩ := hr₂.snoc_inv
  have hs := circuit_step hs
  have hlt₂ : C₂.ring.arrived < 2 ^ 32 := Nat.lt_of_le_of_lt (step_arrived_le hs) hlt
  have hlt₁ : C₁.ring.arrived < 2 ^ 32 :=
    Nat.lt_of_le_of_lt (arrived_le_run (circuit_run hr₂)) hlt₂
  have hrun := circuit_run (hr₁.append hr₂)
  have hA₁₂ : ∀ x ∈ tr₁ ++ tr₂, x.1.Arrives Headers.Enters :=
    List.forall_mem_append.2 ⟨hA₁, hA₂⟩
  rw [(inv_run hrun hA₁₂ hlt₂).released_iff he hs hresp]
  constructor
  · intro hn hlen hquiet
    have hc := circulates_run hring hid (hr₁.append hr₂) hA₁₂ hlt₂
    -- the first round closes the batch, the second one finds none
    obtain ⟨u, v, rfl, hu, hv⟩ := List.filterMap_eq_append_iff.1
      (List.take_append_drop (Fintype.card ι) (controlVisits tr₂)).symm
    change controlVisits u = _ at hu
    change controlVisits v = _ at hv
    have hulen : Fintype.card ι ≤ (controlVisits u).length := by
      rw [hu, List.length_take]
      omega
    have hvlen : Fintype.card ι ≤ (controlVisits v).length := by
      rw [hv, List.length_drop]
      omega
    have hvisits : controlVisits (tr₁ ++ (u ++ v)) =
        controlVisits tr₁ ++ controlVisits u ++ controlVisits v := by simp [controlVisits]
    have hmem_u := hc.mem_round hring.cycle hvisits hulen o.switch
    have hmem_v := hc.mem_round (w := []) hring.cycle (by rw [hvisits, List.append_nil]) hvlen
      o.switch
    obtain ⟨Cm, hru, hrv⟩ := hr₂.split
    have hru := circuit_run hru
    have hrv := circuit_run hrv
    rw [List.forall_mem_append] at hA₂
    rw [QuietAt.append] at hquiet
    have hltm : Cm.ring.arrived < 2 ^ 32 := Nat.lt_of_le_of_lt (arrived_le_run hrv) hlt₂
    have h₁ := inv_run (circuit_run hr₁) hA₁ hlt₁
    have hno := (h₁.quiet_run hru hA₂.1 hltm hn hquiet.1).1 (.inr hmem_u)
    have hnm := Nat.le_trans hn (issued_prefix_run hru).length_le
    exact ((h₁.run hru hA₂.1 hltm).quiet_run hrv hA₂.2 hlt₂ hnm hquiet.2).2 hno hmem_v
  · intro hne hclosing
    rw [Covers, openSlot_of_closing hrun hA₁₂ hlt₂ hclosing]
    have hpos : o.pass.flight.hdr.append.gIdx.toNat ≠ 0 := fun h0 => hne (BitVec.eq_of_toNat_eq h0)
    exact fun hle => hpos (Nat.le_zero.1 hle)

/-- The response to the first append waits while the control packet goes around twice. -/
theorem acks_within_two_rounds_two : ∃ C₁ C, ∃ tr₁ tr₂ : List (Event Bool × Served Bool), ∃ e o,
    (circuit circuitOfTwo).Run ⟨start { cntrl := { pktId := 1 } }, some true⟩ tr₁ C₁ ∧
      (circuit circuitOfTwo).Run C₁ (tr₂ ++ [(e, o)]) C ∧
      controlVisits tr₂ = [false, true, false, true] ∧ MyIngress.Released o.pass.out := by
  have hx₁ : (circuit circuitOfTwo).exec ⟨start { cntrl := { pktId := 1 } }, some true⟩
    [.arrive true 0 .appendPkt, .control true 0, .arrive true 0 (.responsePkt 1)] =
    some (_, _) := rfl
  obtain ⟨C₁, C, tr₁, tr₂, e, o, hr₁, hr₂, hA, hlt, hresp, hn, hvisits, hquiet⟩ : ∃ C₁ C,
      ∃ tr₁ tr₂ : List (Event Bool × Served Bool), ∃ e o,
      (circuit circuitOfTwo).Run ⟨start { cntrl := { pktId := 1 } }, some true⟩ tr₁ C₁ ∧
      (circuit circuitOfTwo).Run C₁ (tr₂ ++ [(e, o)]) C ∧
      (∀ x ∈ tr₁ ++ (tr₂ ++ [(e, o)]), x.1.Arrives Headers.Enters) ∧ C.ring.arrived < 2 ^ 32 ∧
      o.pass.flight.hdr.IsAppendResp ∧
      o.pass.flight.hdr.append.gIdx.toNat ≤ C₁.ring.issued.length ∧
      controlVisits tr₂ = [false, true, false, true] ∧ QuietAt o.switch tr₂ :=
    ⟨_, _, _, [_, _, _, _], _, _, .of_exec hx₁,
      .of_exec (show (circuit circuitOfTwo).exec _ [.control false 0, .control true 0,
        .control false 0, .control true 0, .recirc true 0 1] = some (_, _) from rfl),
      by simp [Event.Arrives]; decide, by decide, by decide, by decide, rfl,
      by simp [QuietAt]; decide⟩
  have hrounds : 2 * Fintype.card Bool ≤ (controlVisits tr₂).length := by
    rw [hvisits]
    decide
  exact ⟨C₁, C, tr₁, tr₂, e, o, hr₁, hr₂, hvisits,
    (acks_within_two_rounds controlRing_two rfl hr₁ hr₂ hA hlt hresp).1 hn hrounds hquiet⟩

end

end Ring

end Pringles.P4
