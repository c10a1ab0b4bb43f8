import Pringles.Switch.GsnTable

/-!
# The answer to a view change comes back

`failure.p4` leaves a view-change packet alone when it carries the identity in the metadata. That
identity is looked up in the branch behind this test, so at the test it is still zero: a switch knows
its own answer again only if its identity is zero. Any other switch answers its own answer, with the
number that it reports then (`reply_settled_iff`).
-/

namespace Pringles.P4

namespace MyIngress

variable {t : Tables} {tstamp : BitVec 48} {regs : Registers} {hdr : Headers} {out : Pipe}
  {s s' : Pipe}

/-- The headers of a packet that asks for a view change, or answers. -/
structure ViewHeaders (hdr : Headers) : Prop where
  isView : hdr.IsView
  viewValid : hdr.startView.isValid = true
  appendInvalid : hdr.append.isValid = false
  tailInvalid : hdr.tail.isValid = false

/-- What the switch reports: the slot before the current one. -/
def reported (regs : Registers) : BitVec 32 :=
  regs.mapFromGsn.get (latestCompleteCntrlPktIt regs.cntrlPktIt).toNat

theorem ViewHeaders.wellFormed (h : ViewHeaders hdr) : hdr.WellFormed := by
  refine fun _ => iff_of_false ?_ ?_
  · rw [h.appendInvalid]
    exact Bool.false_ne_true
  · rw [h.isView.2]
    rintro (heq | heq)
    · exact typeView_ne_append heq
    · exact typeView_ne_resp heq

theorem answered_failure_iff :
    Answered .failure hdr ↔ ViewHeaders hdr ∧ hdr.startView.switchId ≠ 0 :=
  ⟨fun ⟨h1, h2, h3, h4, h5⟩ => ⟨⟨h1, h2, h3, h4⟩, h5 rfl⟩,
    fun ⟨⟨h1, h2, h3, h4⟩, h5⟩ => ⟨h1, h2, h3, h4, fun _ => h5⟩⟩

/-- A packet that is answered: it goes to the client with the identity and the view of the switch,
and with what the switch reports. -/
structure AnswerPass (t : Tables) (regs : Registers) (out : Pipe) : Prop where
  inRange : (latestCompleteCntrlPktIt regs.cntrlPktIt).toNat < maxGsnMapSize
  headers : ViewHeaders out.hdr
  switchId : out.hdr.startView.switchId = t.getSwitchId
  oldRingView : out.hdr.startView.oldRingView = t.getRingView
  highest : out.hdr.startView.highestSeenSeqNo = reported regs
  routeToClient : out.metadata.routeToClient = true

theorem viewBranch_answers (h : viewBranch .failure t s = some s') :
    s'.hdr.startView = { s.hdr.startView with
      highestSeenSeqNo := reported s.regs, switchId := t.getSwitchId
      oldRingView := t.getRingView } ∧
    s'.hdr.tail = s.hdr.tail ∧ s'.metadata.routeToClient = true := by
  simp only [viewBranch, Option.bind_eq_bind, Option.bind_eq_some_iff, Option.pure_def,
    Option.some.injEq] at h
  obtain ⟨⟨gsn, highest⟩, he, rfl⟩ := h
  obtain ⟨-, -, rfl⟩ := RegArray.execute_eq_some.1 he
  exact ⟨rfl, rfl, rfl⟩

theorem apply_answers (hh : Answered .failure hdr)
    (h : apply .failure t tstamp regs hdr = some out) : AnswerPass t regs out := by
  rw [apply_view_eq hh, Option.map_eq_some_iff] at h
  obtain ⟨s, hs, rfl⟩ := h
  obtain ⟨⟨⟨hc, hty⟩, hv, ha, htl⟩, -⟩ := answered_failure_iff.1 hh
  obtain ⟨hlt, -, hcntrl, hring, happ, -, -⟩ := viewBranch_some hs
  obtain ⟨hview, htail, hclient⟩ := viewBranch_answers hs
  have hr := routed_route t s
  constructor
  · exact hlt
  · constructor
    · exact ⟨by rw [hr.cntrlValid, hcntrl]; exact hc, by rw [hr.ringType, hring]; exact hty⟩
    · rw [hr.startView, hview]
      exact hv
    · rw [hr.append, happ]
      exact ha
    · rw [hr.tail, htail]
      exact htl
  · rw [hr.startView, hview]
  · rw [hr.startView, hview]
  · rw [hr.startView, hview]
    rfl
  · rw [hr.routeToClient, hclient]

/-- A packet without an identity is left alone. -/
theorem apply_unanswered (hh : ViewHeaders hdr) (h0 : hdr.startView.switchId = 0) (t : Tables)
    (tstamp : BitVec 48) (regs : Registers) : ∃ out, apply .failure t tstamp regs hdr = some out ∧
      out.hdr.startView = hdr.startView ∧ out.metadata.routeToClient = false := by
  obtain ⟨⟨hc, hty⟩, -, ha, htl⟩ := hh
  have hb : ∀ x, typeView ≠ x → (hdr.ringType.type == x) = false := by
    intro x hx
    rw [hty]
    exact beq_eq_false_iff_ne.2 hx
  have hans : answersView .failure (start { regs := regs, hdr := hdr }) = false := by
    simp [answersView, start, h0]
  have hr := routed_route t (start { regs := regs, hdr := hdr })
  refine ⟨_, ?_, hr.startView, hr.routeToClient⟩
  rw [apply, localSeqNoReg_idle (by exact hc) (by exact ha)]
  simp only [process]
  rw [hans]
  simp only [start, hc, hb _ typeView_ne_append, hb _ typeView_ne_resp, hb _ typeView_ne_read,
    hb _ typeView_ne_readResp, htl, Bool.false_eq_true, ↓reduceIte, Bool.false_and, Bool.or_self,
    Option.map_some]

/-- The answer comes out as it went in, and does not go back to the client again. -/
structure Settled (hdr : Headers) (out : Pipe) : Prop where
  switchId : out.hdr.startView.switchId = hdr.startView.switchId
  oldRingView : out.hdr.startView.oldRingView = hdr.startView.oldRingView
  highest : out.hdr.startView.highestSeenSeqNo = hdr.startView.highestSeenSeqNo
  leftAlone : out.metadata.routeToClient = false

/-- An answer that comes back, with whatever is in the registers by then. -/
theorem AnswerPass.again (h : AnswerPass t regs out) {regs' : Registers}
    (hne : regs'.cntrlPktIt.toNat ≠ 0) (tstamp : BitVec 48) :
    ∃ out', apply .failure t tstamp regs' out.hdr = some out' ∧
      (Settled out.hdr out' ↔ t.getSwitchId = 0) ∧
      (out'.hdr.startView.highestSeenSeqNo = out.hdr.startView.highestSeenSeqNo ↔
        t.getSwitchId = 0 ∨ reported regs' = reported regs) := by
  by_cases hid : t.getSwitchId = 0
  · obtain ⟨out', hout', hview, hclient⟩ :=
      apply_unanswered h.headers (h.switchId.trans hid) t tstamp regs'
    refine ⟨out', hout', iff_of_true ?_ hid, iff_of_true ?_ (.inl hid)⟩
    · exact ⟨by rw [hview], by rw [hview], by rw [hview], hclient⟩
    · rw [hview]
  · have hans : Answered .failure out.hdr :=
      answered_failure_iff.2 ⟨h.headers, by rw [h.switchId]; exact hid⟩
    obtain ⟨out', hout'⟩ := Switch.exists_answer hans hne t tstamp
    have h' := apply_answers hans hout'
    refine ⟨out', hout', iff_of_false ?_ hid, ?_⟩
    · intro hsettled
      exact nomatch h'.routeToClient.symm.trans hsettled.leftAlone
    · rw [h'.highest, h.highest, or_iff_right hid]

end MyIngress

namespace Switch

open MyIngress

variable {p : Program} {t : Tables} {ts ts' : BitVec 48} {s s' m : Switch} {f : Flight} {o : Pass}
  {tr tr' : List (Event × Pass)}

theorem step_arrive {hdr : Headers} {out : Pipe} (h : apply p t ts s.regs hdr = some out)
    (n : Nat) : (machine p t).step s (.arrive ts ⟨n, hdr⟩) =
      some (s.after ⟨n, hdr⟩ out, ⟨⟨n, hdr⟩, s.regs, out⟩) := by
  have hpass : (apply p t ts s.regs hdr).map (fun out =>
      (s.after ⟨n, hdr⟩ out, (⟨⟨n, hdr⟩, s.regs, out⟩ : Pass))) =
        some (s.after ⟨n, hdr⟩ out, ⟨⟨n, hdr⟩, s.regs, out⟩) := by
    rw [h]
    rfl
  exact hpass

/-- **An answer to a view change is settled exactly at a switch with the identity zero.** From any
reachable state, the switch answers a view change and gets its answer back after any further run. The
number in it stays the same at other switches too as long as the switch reports the same. -/
theorem reply_settled_iff (hr : (machine .failure t).Run {} tr s)
    (hA : ∀ x ∈ tr, x.1.Arrives Headers.WellFormed) (hq : Answered .failure f.hdr)
    (hs : (machine .failure t).step s (.arrive ts f) = some (m, o))
    (hr' : (machine .failure t).Run m tr' s')
    (hA' : ∀ x ∈ tr', x.1.Arrives Headers.WellFormed) (n : Nat) (ts' : BitVec 48) :
    ∃ s'' o', (machine .failure t).step s' (.arrive ts' ⟨n, o.out.hdr⟩) = some (s'', o') ∧
      (Settled o.out.hdr o'.out ↔ t.getSwitchId = 0) ∧
      (o'.out.hdr.startView.highestSeenSeqNo = o.out.hdr.startView.highestSeenSeqNo ↔
        t.getSwitchId = 0 ∨ reported s'.regs = reported s.regs) := by
  have hslots := slots_run hr hA
  obtain ⟨g, s₀, out, hp, hout, rfl, rfl⟩ := step_eq_some hs
  cases hp
  have hanswer := apply_answers hq hout
  have hwell : f.hdr.WellFormed := (answered_failure_iff.1 hq).1.wellFormed
  have hrun := (hr.snoc hs).append hr'
  have hslots' := slots_run hrun <| by
    intro x hx
    rcases List.mem_append.1 hx with hx | hx
    · rcases List.mem_append.1 hx with hx | hx
      · exact hA x hx
      · rw [List.mem_singleton.1 hx]
        exact hwell
    · exact hA' x hx
  have hne : s.batches ≠ [] := by
    have hlt := (latestComplete_lt_iff _).1 hanswer.inRange
    rw [hslots.count] at hlt
    exact List.ne_nil_of_length_pos (Nat.pos_of_ne_zero hlt)
  have hne' : s'.regs.cntrlPktIt.toNat ≠ 0 := by
    have hle := ((batches_isPrefixOf (.single hs)).trans (batches_isPrefixOf hr')).length_le
    have hpos := List.length_pos_iff.2 hne
    rw [hslots'.count]
    omega
  obtain ⟨out', hout', hsettled, hhighest⟩ := hanswer.again hne' ts'
  exact ⟨_, _, step_arrive hout' n, hsettled, hhighest⟩

/-- The identity zero: the answer comes back after another batch, and is settled. -/
theorem reply_settled_iff_zero : ∃ tr s m o tr' s' s'' o',
    (machine .failure { getSwitchId := 0 }).Run {} tr s ∧
    (machine .failure { getSwitchId := 0 }).step s (.arrive 0 ⟨2, .viewPkt 3⟩) = some (m, o) ∧
    (machine .failure { getSwitchId := 0 }).Run m tr' s' ∧
    (machine .failure { getSwitchId := 0 }).step s' (.arrive 0 ⟨5, o.out.hdr⟩) = some (s'', o') ∧
      reported s.regs = 0 ∧ reported s'.regs = 5 ∧ Settled o.out.hdr o'.out := by
  have hx : (((machine .failure { getSwitchId := 0 }).exec {} [.arrive 0 ⟨0, .appendPkt⟩,
      .arrive 0 ⟨1, .controlPkt 0⟩]).any fun q₁ =>
    ((machine .failure { getSwitchId := 0 }).step q₁.1 (.arrive 0 ⟨2, .viewPkt 3⟩)).any fun q₂ =>
    ((machine .failure { getSwitchId := 0 }).exec q₂.1 [.arrive 0 ⟨3, .appendPkt⟩,
      .arrive 0 ⟨4, .controlPkt 5⟩]).any fun q₃ =>
        decide (reported q₁.1.regs = 0 ∧ reported q₃.1.regs = 5)) = true := rfl
  obtain ⟨⟨s, tr⟩, hr, hx⟩ := (Option.any_eq_true ..).1 hx
  obtain ⟨⟨m, o⟩, hs, hx⟩ := (Option.any_eq_true ..).1 hx
  obtain ⟨⟨s', tr'⟩, hr', hx⟩ := (Option.any_eq_true ..).1 hx
  obtain ⟨hreported, hreported'⟩ := of_decide_eq_true hx
  have hA : ∀ x ∈ tr, x.1.Arrives Headers.WellFormed := Machine.forall_of_exec hr <| by
    simp [Event.Arrives]
    decide
  have hA' : ∀ x ∈ tr', x.1.Arrives Headers.WellFormed := Machine.forall_of_exec hr' <| by
    simp [Event.Arrives]
    decide
  obtain ⟨s'', o', hs', hsettled, -⟩ :=
    reply_settled_iff (.of_exec hr) hA (by decide) hs (.of_exec hr') hA' 5 0
  exact ⟨tr, s, m, o, tr', s', s'', o', .of_exec hr, hs, .of_exec hr', hs', hreported, hreported',
    hsettled.2 rfl⟩

/-- The identity that `get_switch_id` has by default: the answer is answered again, immediately and
after another batch, and then has another number. -/
theorem reply_not_settled : ∃ tr s m o tr' s',
    (machine .failure {}).Run {} tr s ∧
    (machine .failure {}).step s (.arrive 0 ⟨2, .viewPkt 3⟩) = some (m, o) ∧
    (∃ s'' o', (machine .failure {}).step m (.arrive 0 ⟨5, o.out.hdr⟩) = some (s'', o') ∧
      ¬ Settled o.out.hdr o'.out) ∧
    (machine .failure {}).Run m tr' s' ∧
    ∃ s'' o', (machine .failure {}).step s' (.arrive 0 ⟨5, o.out.hdr⟩) = some (s'', o') ∧
      o'.out.hdr.startView.highestSeenSeqNo ≠ o.out.hdr.startView.highestSeenSeqNo := by
  have hx : (((machine .failure {}).exec {} [.arrive 0 ⟨0, .appendPkt⟩,
      .arrive 0 ⟨1, .controlPkt 0⟩]).any fun q₁ =>
    ((machine .failure {}).step q₁.1 (.arrive 0 ⟨2, .viewPkt 3⟩)).any fun q₂ =>
    ((machine .failure {}).step q₂.1 (.arrive 0 ⟨5, q₂.2.out.hdr⟩)).any fun q₃ =>
    ((machine .failure {}).exec q₂.1 [.arrive 0 ⟨3, .appendPkt⟩,
      .arrive 0 ⟨4, .controlPkt 5⟩]).any fun q₄ =>
    ((machine .failure {}).step q₄.1 (.arrive 0 ⟨5, q₂.2.out.hdr⟩)).any fun q₅ =>
      decide (q₃.2.out.metadata.routeToClient = true ∧
        q₅.2.out.hdr.startView.highestSeenSeqNo ≠
          q₂.2.out.hdr.startView.highestSeenSeqNo)) = true := rfl
  obtain ⟨⟨s, tr⟩, hr, hx⟩ := (Option.any_eq_true ..).1 hx
  obtain ⟨⟨m, o⟩, hs, hx⟩ := (Option.any_eq_true ..).1 hx
  obtain ⟨⟨s₃, o₃⟩, hs₃, hx⟩ := (Option.any_eq_true ..).1 hx
  obtain ⟨⟨s', tr'⟩, hr', hx⟩ := (Option.any_eq_true ..).1 hx
  obtain ⟨⟨s₅, o₅⟩, hs₅, hx⟩ := (Option.any_eq_true ..).1 hx
  obtain ⟨hclient, hhighest⟩ := of_decide_eq_true hx
  refine ⟨tr, s, m, o, tr', s', .of_exec hr, hs, ⟨s₃, o₃, hs₃, ?_⟩, .of_exec hr', s₅, o₅, hs₅,
    hhighest⟩
  intro hsettled
  exact nomatch hclient.symm.trans hsettled.leftAlone

end Switch

end Pringles.P4
