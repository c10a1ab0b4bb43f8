import Pringles.Ring.Invariant

/-!
# Acknowledgements stay behind the control packet

Whatever the slot of the open batch holds (a number that the control packet left there, or zero), it
is at most the number that the control packet carries now. So a response, even one with an invented
number, is released only below that number, and so is everything in `highest_replicated_seq_no`.
-/

namespace Pringles.P4

namespace Ring

variable {ι : Type} [DecidableEq ι] {N : Net ι} {R R' : Ring ι} {e : Event ι} {o : Served ι}
  {hdr : Headers} {tr : List (Event ι × Served ι)}

theorem Inv.released_le (h : R.Inv) (hA : e.Arrives Headers.Enters)
    (hs : (machine N).step R e = some (R', o)) (hresp : o.pass.flight.hdr.IsAppendResp)
    (hrel : MyIngress.Released o.pass.out) :
    o.pass.flight.hdr.append.gIdx.toNat ≤ R.token.cntrl.globalSeqNo.toNat := by
  obtain ⟨i, ev, R₀, f, s₀, out, hdisp, hp, hout, -, rfl⟩ := step_eq_some hs
  have hf := h.fit hA hdisp hp
  have hvalid : f.hdr.append.isValid = true := (hf.wellFormed hresp.1).2 (.inr hresp.2)
  have hready := (MyIngress.apply_response hresp hvalid hout).released_iff.1 hrel
  rw [MyIngress.Ready, (Ring.dispatched hdisp).sw] at hready
  rw [h.count]
  exact Nat.le_trans (BitVec.le_def.1 hready) (h.known i _)

/-- **No append is acknowledged ahead of the sequencer.** In every reachable state no switch has
recorded a number beyond the control packet's, and the next step releases no response beyond it. -/
theorem acks_below_token (hr : (machine N).Run (start hdr) tr R)
    (hA : ∀ x ∈ tr, x.1.Arrives Headers.Enters) (hlt : R.arrived < 2 ^ 32) :
    (∀ i, (R.sw i).regs.highestReplicatedSeqNo.toNat ≤ R.token.cntrl.globalSeqNo.toNat) ∧
      ∀ e R' o, e.Arrives Headers.Enters → (machine N).step R e = some (R', o) →
        o.pass.flight.hdr.IsAppendResp → MyIngress.Released o.pass.out →
        o.pass.flight.hdr.append.gIdx.toNat ≤ R.token.cntrl.globalSeqNo.toNat := by
  have h := inv_run hr hA hlt
  refine ⟨?_, fun e R' o he hs hresp hrel => h.released_le he hs hresp hrel⟩
  intro i
  rw [h.count]
  exact h.replicated i

/-- A response is released and recorded behind the second control visit. -/
theorem acks_below_token_released : ∃ tr R R' o,
    (machine (twoSwitches .sequencingOnly)).Run (start {}) tr R ∧
      (machine (twoSwitches .sequencingOnly)).step R (.arrive true 0 (.responsePkt 1)) =
        some (R', o) ∧ MyIngress.Released o.pass.out ∧
      o.pass.flight.hdr.append.gIdx.toNat ≤ R.token.cntrl.globalSeqNo.toNat := by
  have hx : (machine (twoSwitches .sequencingOnly)).exec (start {}) [.arrive true 0 .appendPkt,
    .control true 0, .control true 0] = some (_, _) := rfl
  obtain ⟨tr, R, hr, hA, hlt, R', o, hs, hresp, hrel⟩ : ∃ tr R,
      (machine (twoSwitches .sequencingOnly)).Run (start {}) tr R ∧
        (∀ x ∈ tr, x.1.Arrives Headers.Enters) ∧ R.arrived < 2 ^ 32 ∧
        ∃ R' o, (machine (twoSwitches .sequencingOnly)).step R
            (.arrive true 0 (.responsePkt 1)) = some (R', o) ∧
          o.pass.flight.hdr.IsAppendResp ∧ MyIngress.Released o.pass.out :=
    ⟨_, _, .of_exec hx, by simp [Event.Arrives]; decide, by decide, _, _, rfl, by decide,
      by decide⟩
  have hA' : (Event.arrive true 0 (.responsePkt 1) : Event Bool).Arrives Headers.Enters := by
    simp only [Event.Arrives]
    decide
  exact ⟨tr, R, R', o, hr, hs, hrel, (acks_below_token hr hA hlt).2 _ R' o hA' hs hresp hrel⟩

end Ring

end Pringles.P4
