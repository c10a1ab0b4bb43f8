import Pringles.Switch.Basic

/-!
# Which registers a packet touches

Each kind of packet has registers of its own: the batch counter belongs to control packets and to
append requests without a number, the slot counter and the slot table to control packets and append
requests, the acknowledgement cells and the replicated tail to append responses on their way out.
The pipeline keeps this for every packet but two. The guard of the batch counter tests the append
header and not the type, so a response without a number draws one; and a read request goes through
the acknowledgement check of the responses.
-/

namespace Pringles.P4

namespace Switch

open MyIngress (PassKind Released)

variable {p : Program} {t : Tables} {s s' : Switch} {e : Event} {x : Pass}
  {tr : List (Event × Pass)}

/-- A register that the pass changed belongs to the kind of its packet. -/
structure OwnRegisters (x : Pass) : Prop where
  localSeqNo : x.out.regs.localSeqNo ≠ x.found.localSeqNo →
    x.flight.hdr.IsControl ∨ x.flight.hdr.IsUnnumbered
  cntrlPktIt : x.out.regs.cntrlPktIt ≠ x.found.cntrlPktIt →
    x.flight.hdr.IsControl ∨ x.flight.hdr.IsAppend
  mapFromGsn : x.out.regs.mapFromGsn ≠ x.found.mapFromGsn →
    x.flight.hdr.IsControl ∨ x.flight.hdr.IsAppend
  ackArray : x.out.regs.ackArray ≠ x.found.ackArray →
    x.flight.hdr.IsAppendResp ∧ Released x.out
  highest : x.out.regs.highestReplicatedSeqNo ≠ x.found.highestReplicatedSeqNo →
    x.flight.hdr.IsAppendResp ∧ Released x.out

/-! ## What a pass changes -/

/-- Counting an acknowledgement changes the array. -/
theorem ackArray_set_ne (acks : RegArray maxInflightAcks 32) (hdr : Headers) :
    acks.set (getAckIdx hdr).toNat (acks.get (getAckIdx hdr).toNat + 1) ≠ acks := by
  intro heq
  have hget := congrArg (fun a => a.get (getAckIdx hdr).toNat) heq
  simp only [RegArray.get_set_self (MyIngress.getAckIdx_lt hdr)] at hget
  bv_omega

/-- The batch counter changes exactly as its guards say: by header validity and `g_idx`. -/
theorem localSeqNo_changed (hk : PassKind x.found x.flight.hdr x.out)
    (h : x.out.regs.localSeqNo ≠ x.found.localSeqNo) :
    x.flight.hdr.IsControl ∨ x.flight.hdr.IsUnnumbered ∨
      x.flight.hdr.IsAppendResp ∧ x.flight.hdr.append.gIdx = 0 := by
  cases hk with
  | control kind => exact .inl kind
  | fresh kind draws => exact .inr (.inl ⟨kind, draws.2.2⟩)
  | circulating _ _ pass => exact absurd pass.localSeqNo h
  | response kind _ pass =>
    by_cases h0 : x.flight.hdr.append.gIdx = 0
    · exact .inr (.inr ⟨kind, h0⟩)
    · exact absurd (pass.localSeqNo.trans (if_neg h0)) h
  | idle _ _ _ _ pass => exact absurd pass.localSeqNo h

theorem slots_changed (hk : PassKind x.found x.flight.hdr x.out)
    (h : x.out.regs.cntrlPktIt ≠ x.found.cntrlPktIt ∨
      x.out.regs.mapFromGsn ≠ x.found.mapFromGsn) :
    x.flight.hdr.IsControl ∨ x.flight.hdr.IsAppend := by
  cases hk with
  | control kind => exact .inl kind
  | fresh kind => exact .inr kind
  | circulating kind => exact .inr kind
  | response _ _ pass =>
    rcases h with h | h
    · exact absurd pass.cntrlPktIt h
    · exact absurd pass.mapFromGsn h
  | idle _ _ _ _ pass =>
    rcases h with h | h
    · exact absurd pass.cntrlPktIt h
    · exact absurd pass.mapFromGsn h

theorem acks_changed (hk : PassKind x.found x.flight.hdr x.out)
    (h : x.out.regs.ackArray ≠ x.found.ackArray ∨
      x.out.regs.highestReplicatedSeqNo ≠ x.found.highestReplicatedSeqNo) :
    x.flight.hdr.IsRead ∨ x.flight.hdr.IsAppendResp ∧ Released x.out := by
  cases hk with
  | control _ pass =>
    rcases h with h | h
    · exact absurd pass.ackArray h
    · exact absurd pass.highest h
  | fresh _ _ pass =>
    rcases h with h | h
    · exact absurd pass.ackArray h
    · exact absurd pass.highest h
  | circulating _ _ pass =>
    rcases h with h | h
    · exact absurd pass.ackArray h
    · exact absurd pass.highest h
  | response kind _ pass =>
    by_cases hr : MyIngress.Ready x.found x.flight.hdr
    · exact .inr ⟨kind, pass.released_iff.2 hr⟩
    · obtain ⟨-, -, -, hhigh, hack⟩ := pass.held hr
      rcases h with h | h
      · exact absurd hack h
      · exact absurd hhigh h
  | idle notControl _ _ _ pass =>
    by_cases hread : x.flight.hdr.ringType.type = typeRead
    · exact .inl ⟨notControl, hread⟩
    · rcases h with h | h
      · exact absurd (pass.ackArray.trans (if_neg hread)) h
      · exact absurd pass.highest h

/-! ## The two leaks -/

/-- A response without a number draws one. -/
theorem response_draws (hk : PassKind x.found x.flight.hdr x.out)
    (hr : x.flight.hdr.IsAppendResp) (h0 : x.flight.hdr.append.gIdx = 0) :
    x.out.regs.localSeqNo ≠ x.found.localSeqNo := by
  cases hk with
  | control kind => exact absurd hr.1 kind.not_data
  | fresh kind => exact absurd kind hr.not_append
  | circulating kind => exact absurd kind hr.not_append
  | response _ _ pass =>
    rw [pass.localSeqNo, if_pos h0]
    bv_omega
  | idle _ _ _ notResp => exact absurd hr.2 notResp

/-- A read request counts as an acknowledgement. -/
theorem read_acks (hk : PassKind x.found x.flight.hdr x.out) (hr : x.flight.hdr.IsRead) :
    x.out.regs.ackArray ≠ x.found.ackArray := by
  cases hk with
  | control kind => exact absurd hr.1 kind.not_data
  | fresh kind => exact absurd kind hr.not_append
  | circulating kind => exact absurd kind hr.not_append
  | response kind => exact absurd kind hr.not_resp
  | idle _ _ _ _ pass =>
    rw [pass.ackArray, if_pos hr.2]
    exact ackArray_set_ne _ _

theorem ownRegisters_iff (hk : PassKind x.found x.flight.hdr x.out) : OwnRegisters x ↔
    ¬ (x.flight.hdr.IsAppendResp ∧ x.flight.hdr.append.gIdx = 0) ∧ ¬ x.flight.hdr.IsRead := by
  constructor
  · intro h
    constructor
    · intro hresp
      rcases h.localSeqNo (response_draws hk hresp.1 hresp.2) with hc | hu
      · exact hc.not_data hresp.1.1
      · exact hresp.1.not_append hu.1
    · intro hread
      exact hread.not_resp (h.ackArray (read_acks hk hread)).1
  · rintro ⟨hresp, hread⟩
    constructor
    · intro h
      rcases localSeqNo_changed hk h with hc | hu | hr
      · exact .inl hc
      · exact .inr hu
      · exact absurd hr hresp
    · exact fun h => slots_changed hk (.inl h)
    · exact fun h => slots_changed hk (.inr h)
    · exact fun h => (acks_changed hk (.inl h)).resolve_left hread
    · exact fun h => (acks_changed hk (.inr h)).resolve_left hread

/-- The step lemma: a step from a state whose loopback port holds well-formed packets. -/
theorem Slots.ownRegisters_iff (h : s.Slots) (hA : e.Arrives Headers.WellFormed)
    (hs : (machine p t).step s e = some (s', x)) : OwnRegisters x ↔
      ¬ (x.flight.hdr.IsAppendResp ∧ x.flight.hdr.append.gIdx = 0) ∧ ¬ x.flight.hdr.IsRead := by
  obtain ⟨f, s₀, out, hp, hout, -, rfl⟩ := step_eq_some hs
  exact Switch.ownRegisters_iff (MyIngress.passKind (h.present hA hp) hout)

/-- **Every pass of every run touches the registers of its kind alone, unless it is the pass of a
response without a number or of a read request.** -/
theorem run_ownRegisters_iff (hr : (machine p t).Run {} tr s)
    (hA : ∀ x ∈ tr, x.1.Arrives Headers.WellFormed) :
    ∀ x ∈ tr, (OwnRegisters x.2 ↔
      ¬ (x.2.flight.hdr.IsAppendResp ∧ x.2.flight.hdr.append.gIdx = 0) ∧
        ¬ x.2.flight.hdr.IsRead) := by
  intro x hx
  obtain ⟨tr₁, tr₂, rfl⟩ := List.append_of_mem hx
  obtain ⟨s₁, s₂, hr₁, hs, -⟩ := hr.split_cons
  have hslots : s₁.Slots := slots_run hr₁ fun y hy => hA y (List.mem_append_left _ hy)
  exact hslots.ownRegisters_iff (hA x hx) hs

/-- An append request, whose pass touches the batch counter and the slot table. -/
theorem run_ownRegisters_iff_append : ∃ tr s, (machine .sequencingOnly {}).Run {} tr s ∧
    tr.length = 1 ∧ ∀ x ∈ tr, (OwnRegisters x.2 ↔
      ¬ (x.2.flight.hdr.IsAppendResp ∧ x.2.flight.hdr.append.gIdx = 0) ∧
        ¬ x.2.flight.hdr.IsRead) := by
  have hx : (machine .sequencingOnly {}).exec {} [.arrive 0 ⟨0, .appendPkt⟩] =
    some (_, _) := rfl
  have hr := Machine.Run.of_exec hx
  exact ⟨_, _, hr, rfl, run_ownRegisters_iff hr (by simp [Event.Arrives]; decide)⟩

/-- A response without a number, as `test_subscribe_one_switch` sends it, in the initial state. -/
theorem response_not_own : ¬ ∀ tr s, (machine .sequencingOnly {}).Run {} tr s →
    (∀ x ∈ tr, x.1.Arrives Headers.WellFormed) → ∀ x ∈ tr, OwnRegisters x.2 := by
  intro hall
  have hx : (machine .sequencingOnly {}).exec {} [.arrive 0 ⟨0, .responsePkt 0⟩] =
    some (_, _) := rfl
  have hown := hall _ _ (.of_exec hx) (by simp [Event.Arrives]; decide) _ (.head _)
  rcases hown.localSeqNo (by decide) with hc | hu
  · exact absurd hc (by decide)
  · exact absurd hu (by decide)

end Switch

end Pringles.P4
