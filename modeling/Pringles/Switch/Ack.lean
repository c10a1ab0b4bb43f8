import Pringles.Switch.Basic

/-!
# Acknowledgements

`check_ack` counts in the slot of the response's number and then answers one: the comparison with
`meta.ack_threshold` is commented out, and so is the application of `get_ack_threshold`. So the
readiness test alone decides. Every response that passes it goes out and is recorded, also the
second and later ones for one number, and the branch that would drop them is never taken. The
counters are not set back, so a number counts on from whatever has used its slot before.

That is a quorum only where one response is enough and no second one comes
(`acknowledges_on_quorum_iff`).
-/

namespace Pringles.P4

namespace Switch

variable {p : Program} {t : Tables} {tstamp : BitVec 48} {s s' s₀ : Switch} {f : Flight}
  {out : Pipe} {e : Event} {o : Pass} {tr : List (Event × Pass)} {i : Nat}

/-- An append response that passes the readiness test. -/
def ReadyResponse (o : Pass) : Prop :=
  o.flight.hdr.IsAppendResp ∧ MyIngress.Ready o.found o.flight.hdr

/-- The packet consults the acknowledgement counter `i`: a ready response or a read request. -/
def Counted (i : Nat) (o : Pass) : Prop :=
  (ReadyResponse o ∨ o.flight.hdr.cntrl.isValid = false ∧ o.flight.hdr.ringType.type = typeRead) ∧
    (getAckIdx o.flight.hdr).toNat = i

instance (o : Pass) : Decidable (ReadyResponse o) := inferInstanceAs (Decidable (_ ∧ _))
instance (i : Nat) (o : Pass) : Decidable (Counted i o) := inferInstanceAs (Decidable (_ ∧ _))

/-- The response goes to the client and, unless the packet generator made it, to the subscribers and
into `highest_replicated_seq_no`. -/
structure Acknowledged (o : Pass) : Prop where
  client : o.out.metadata.routeToClient = true
  notHeld : o.out.metadata.circulate = false
  subscribers : o.out.metadata.sendAcks = !o.flight.hdr.timer.isValid
  recorded : o.flight.hdr.timer.isValid = false → o.out.regs.highestReplicatedSeqNo.toNat =
    max o.found.highestReplicatedSeqNo.toNat o.flight.hdr.append.gIdx.toNat

theorem writeReplicatedSeqNo_max (hdr : Headers) (cur : BitVec 32) :
    (writeReplicatedSeqNo hdr cur).toNat = max cur.toNat hdr.append.gIdx.toNat := by
  unfold writeReplicatedSeqNo
  split
  · rename_i h
    have := BitVec.lt_def.1 h
    omega
  · rename_i h
    rw [gt_iff_lt, BitVec.lt_def] at h
    omega

theorem acknowledged_of_ready (hw : f.hdr.WellFormed) (hr : ReadyResponse ⟨f, s.regs, out⟩)
    (hp : MyIngress.apply p t tstamp s.regs f.hdr = some out) :
    Acknowledged ⟨f, s.regs, out⟩ := by
  obtain ⟨hresp, hready⟩ := hr
  have pass := MyIngress.apply_response hresp ((hw hresp.1).2 (.inr hresp.2)) hp
  obtain ⟨hcirc, hclient, hacks, hhigh, -⟩ := pass.released hready
  refine ⟨hclient, hcirc, hacks, ?_⟩
  intro htimer
  simp only at htimer
  simp only [hhigh, htimer, Bool.false_eq_true, ↓reduceIte, writeReplicatedSeqNo_max]

/-! ## The counters -/

theorem ackArray_set (r : RegArray maxInflightAcks 32) (hdr : Headers) (hi : i < maxInflightAcks) :
    (r.set (getAckIdx hdr).toNat (r.get (getAckIdx hdr).toNat + 1)).get i =
      r.get i + if (getAckIdx hdr).toNat = i then 1 else 0 := by
  rw [RegArray.get_set (MyIngress.getAckIdx_lt hdr)]
  by_cases h : i = (getAckIdx hdr).toNat
  · subst h; simp
  · simp [h, Ne.symm h]

theorem Counted.type (h : Counted i o) : o.flight.hdr.cntrl.isValid = false ∧
    (o.flight.hdr.ringType.type = typeAppendResp ∨ o.flight.hdr.ringType.type = typeRead) := by
  obtain ⟨⟨hresp, -⟩ | ⟨hc, hread⟩, -⟩ := h
  · exact ⟨hresp.1, .inl hresp.2⟩
  · exact ⟨hc, .inr hread⟩

/-- What a pass adds to a counter. -/
theorem ackArray_pass (hw : f.hdr.WellFormed) (hi : i < maxInflightAcks)
    (hp : MyIngress.apply p t tstamp s.regs f.hdr = some out) : out.regs.ackArray.get i =
      s.regs.ackArray.get i + if Counted i ⟨f, s.regs, out⟩ then 1 else 0 := by
  have hquiet : ¬ Counted i ⟨f, s.regs, out⟩ → out.regs.ackArray = s.regs.ackArray →
      out.regs.ackArray.get i =
        s.regs.ackArray.get i + if Counted i ⟨f, s.regs, out⟩ then 1 else 0 := by
    intro hn heq
    rw [heq, if_neg hn]
    exact (BitVec.add_zero _).symm
  cases MyIngress.passKind hw hp with
  | control kind pass =>
    exact hquiet (fun hc => kind.not_data hc.type.1) pass.ackArray
  | fresh kind draws pass =>
    refine hquiet ?_ pass.ackArray
    intro hc
    have htype := hc.type.2
    simp [kind.2, Ne.symm typeRead_ne_append] at htype
  | circulating kind numbered pass =>
    refine hquiet ?_ pass.ackArray
    intro hc
    have htype := hc.type.2
    simp [kind.2, Ne.symm typeRead_ne_append] at htype
  | response kind valid pass =>
    by_cases hready : MyIngress.Ready s.regs f.hdr
    · rw [(pass.released hready).2.2.2.2, ackArray_set _ _ hi]
      simp [Counted, ReadyResponse, kind, hready]
    · refine hquiet ?_ (pass.held hready).2.2.2.2
      intro hc
      obtain ⟨hresp | hread, -⟩ := hc
      · exact hready hresp.2
      · exact absurd (hread.2.symm.trans kind.2) typeRead_ne_resp
  | idle notControl _ _ notResp pass =>
    have hresp : ¬ ReadyResponse ⟨f, s.regs, out⟩ := fun hr => notResp hr.1.2
    by_cases hread : f.hdr.ringType.type = typeRead
    · rw [pass.ackArray, if_pos hread, ackArray_set _ _ hi]
      simp [Counted, hresp, notControl, hread]
    · refine hquiet ?_ (pass.ackArray.trans (if_neg hread))
      intro hc
      obtain ⟨hr | hr, -⟩ := hc
      · exact hresp hr
      · exact hread hr.2

/-- The threshold that the control plane installs makes no difference. -/
theorem machine_setupAckConst (ackThreshold : BitVec 32) :
    machine p (t.setupAckConst ackThreshold) = machine p t := rfl

/-- **Readiness alone decides.** In every run, whatever threshold is installed, every response that
passes the readiness test is acknowledged, and a counter holds the number of ready responses and
read requests that used its slot, whatever their numbers. -/
theorem ready_responses_acknowledged (ackThreshold : BitVec 32)
    (hr : (machine p (t.setupAckConst ackThreshold)).Run {} tr s)
    (hA : ∀ x ∈ tr, x.1.Arrives Headers.WellFormed) :
    (∀ x ∈ tr, ReadyResponse x.2 → Acknowledged x.2) ∧
      ∀ i < maxInflightAcks, s.regs.ackArray.get i =
        BitVec.ofNat 32 (tr.countP fun x => Counted i x.2) := by
  rw [machine_setupAckConst] at hr
  induction hr with
  | nil => exact ⟨by simp, fun i _ => RegArray.get_init⟩
  | @snoc s s' tr e o hr hs ih =>
    simp only [List.forall_mem_append, List.forall_mem_singleton] at hA ⊢
    have hslots := slots_run hr hA.1
    obtain ⟨hacks, hcount⟩ := ih hA.1
    obtain ⟨f, s₀, out, hp, hout, rfl, rfl⟩ := step_eq_some hs
    have hw := hslots.present hA.2 hp
    refine ⟨⟨hacks, fun hready => acknowledged_of_ready hw hready hout⟩, ?_⟩
    intro i hi
    rw [regs_after, ackArray_pass hw hi hout, hcount i hi, List.countP_append,
      List.countP_singleton, BitVec.ofNat_add]
    by_cases hc : Counted i ⟨f, s.regs, out⟩ <;> simp [hc]

/-! ## The quorum -/

/-- The ready responses to the number `n`. -/
def acks (n : BitVec 32) (tr : List (Event × Pass)) : Nat :=
  tr.countP fun x => ReadyResponse x.2 ∧ x.2.flight.hdr.append.gIdx = n

/-- The response is dropped, and leaves no trace outside of its counter. -/
structure Absorbed (o : Pass) : Prop where
  client : o.out.metadata.routeToClient = false
  notHeld : o.out.metadata.circulate = false
  subscribers : o.out.metadata.sendAcks = false
  unrecorded : o.out.regs.highestReplicatedSeqNo = o.found.highestReplicatedSeqNo

/-- The ready response `o`, which came behind `tr`, is acknowledged if it is the one that makes up
the quorum, and absorbed otherwise; and up to the quorum it finds the responses to its own number
counted, and no others. -/
structure OnQuorum (quorum : Nat) (tr : List (Event × Pass)) (o : Pass) : Prop where
  quorate : acks o.flight.hdr.append.gIdx tr + 1 = quorum → Acknowledged o
  others : acks o.flight.hdr.append.gIdx tr + 1 ≠ quorum → Absorbed o
  count : acks o.flight.hdr.append.gIdx tr < quorum →
    o.found.ackArray.get (getAckIdx o.flight.hdr).toNat =
      BitVec.ofNat 32 (acks o.flight.hdr.append.gIdx tr)

/-- All ready responses of a run are acknowledged on a quorum. -/
def AcknowledgesOnQuorum (quorum : Nat) (tr : List (Event × Pass)) : Prop :=
  ∀ tr₁ x tr₂, tr = tr₁ ++ x :: tr₂ → ReadyResponse x.2 → OnQuorum quorum tr₁ x.2

/-- The ready response is the first to its number, and nothing has used its counter before: a
multiple of 2^32 passes, as far as a counter can tell. -/
structure FirstInSlot (tr : List (Event × Pass)) (o : Pass) : Prop where
  first : acks o.flight.hdr.append.gIdx tr = 0
  unused : 2 ^ 32 ∣ tr.countP fun x => Counted (getAckIdx o.flight.hdr).toNat x.2

instance (tr : List (Event × Pass)) (o : Pass) : Decidable (FirstInSlot tr o) :=
  decidable_of_iff (_ ∧ _) ⟨fun h => ⟨h.1, h.2⟩, fun h => ⟨h.first, h.unused⟩⟩

theorem not_absorbed (h : Acknowledged o) : ¬ Absorbed o := by
  intro habsorbed
  exact absurd (habsorbed.client.symm.trans h.client) (by decide)

theorem ofNat_eq_zero_iff (n : Nat) : BitVec.ofNat 32 n = 0 ↔ 2 ^ 32 ∣ n := by
  rw [← BitVec.toNat_inj, BitVec.toNat_ofNat]
  exact Nat.dvd_iff_mod_eq_zero.symm

/-- A ready response in a run is acknowledged, and finds what has used its counter counted. -/
theorem ready_response_at (ackThreshold : BitVec 32) {tr₁ tr₂ : List (Event × Pass)}
    {x : Event × Pass} (hr : (machine p (t.setupAckConst ackThreshold)).Run {}
      (tr₁ ++ x :: tr₂) s)
    (hA : ∀ y ∈ tr₁ ++ x :: tr₂, y.1.Arrives Headers.WellFormed) (hready : ReadyResponse x.2) :
    Acknowledged x.2 ∧ x.2.found.ackArray.get (getAckIdx x.2.flight.hdr).toNat =
      BitVec.ofNat 32 (tr₁.countP fun y => Counted (getAckIdx x.2.flight.hdr).toNat y.2) := by
  obtain ⟨hacks, -⟩ := ready_responses_acknowledged ackThreshold hr hA
  obtain ⟨s₁, s₂, hr₁, hs, -⟩ := hr.split_cons
  have hA₁ : ∀ y ∈ tr₁, y.1.Arrives Headers.WellFormed := fun y hy =>
    hA y (List.mem_append_left _ hy)
  obtain ⟨-, hcount⟩ := ready_responses_acknowledged ackThreshold hr₁ hA₁
  obtain ⟨f, s₀, out, -, -, -, hx⟩ := step_eq_some hs
  refine ⟨hacks x (by simp) hready, ?_⟩
  rw [hx]
  exact hcount _ (MyIngress.getAckIdx_lt _)

/-- Where every ready response is acknowledged, a quorum is one response. -/
theorem AcknowledgesOnQuorum.first {quorum : Nat} (h : AcknowledgesOnQuorum quorum tr)
    (hacks : ∀ x ∈ tr, ReadyResponse x.2 → Acknowledged x.2) {tr₁ tr₂ : List (Event × Pass)}
    {x : Event × Pass} (heq : tr = tr₁ ++ x :: tr₂) (hready : ReadyResponse x.2) :
    quorum = 1 ∧ acks x.2.flight.hdr.append.gIdx tr₁ = 0 := by
  -- each ready response has to be the one that makes up the quorum of its number
  have hquorate : ∀ tr₁ y tr₂, tr = tr₁ ++ y :: tr₂ → ReadyResponse y.2 →
      acks y.2.flight.hdr.append.gIdx tr₁ + 1 = quorum := by
    intro tr₁ y tr₂ heq hy
    by_contra hne
    exact not_absorbed (hacks y (by simp [heq]) hy) ((h tr₁ y tr₂ heq hy).others hne)
  have hx := hquorate tr₁ x tr₂ heq hready
  suffices hzero : acks x.2.flight.hdr.append.gIdx tr₁ = 0 by omega
  by_contra hne
  obtain ⟨y, hy, hcond⟩ := List.countP_pos_iff.1 (Nat.pos_of_ne_zero hne)
  obtain ⟨hyready, hsame⟩ := of_decide_eq_true hcond
  obtain ⟨l, l', rfl⟩ := List.append_of_mem hy
  have hearlier := hquorate l y (l' ++ x :: tr₂) (by rw [heq, List.append_assoc]; rfl) hyready
  rw [hsame] at hearlier
  simp only [acks, List.countP_append, List.countP_cons, hyready, hsame, and_self, decide_true,
    if_true] at hx hearlier
  omega

/-- **The switch acknowledges on a quorum exactly where the first response is one.** In every run the
ready responses are acknowledged on the quorum that is installed, and absorbed before and after it,
if and only if for each of them the threshold is one, no other response to its number was ready
before, and nothing has used its counter. -/
theorem acknowledges_on_quorum_iff (ackThreshold : BitVec 32)
    (hr : (machine p (t.setupAckConst ackThreshold)).Run {} tr s)
    (hA : ∀ x ∈ tr, x.1.Arrives Headers.WellFormed) :
    AcknowledgesOnQuorum ackThreshold.toNat tr ↔
      ∀ tr₁ x tr₂, tr = tr₁ ++ x :: tr₂ → ReadyResponse x.2 →
        ackThreshold.toNat = 1 ∧ FirstInSlot tr₁ x.2 := by
  constructor
  · intro h tr₁ x tr₂ heq hready
    have hacks := (ready_responses_acknowledged ackThreshold hr hA).1
    obtain ⟨hone, hfirst⟩ := h.first hacks heq hready
    have hcount := (h tr₁ x tr₂ heq hready).count (by omega)
    subst heq
    rw [(ready_response_at ackThreshold hr hA hready).2, hfirst] at hcount
    exact ⟨hone, hfirst, (ofNat_eq_zero_iff _).1 hcount⟩
  · intro h tr₁ x tr₂ heq hready
    obtain ⟨hone, hfirst, hunused⟩ := h tr₁ x tr₂ heq hready
    subst heq
    obtain ⟨hack, hfound⟩ := ready_response_at ackThreshold hr hA hready
    refine ⟨fun _ => hack, fun hne => absurd ?_ hne, fun _ => ?_⟩
    · rw [hfirst, hone]
    · rw [hfound, hfirst]
      exact (ofNat_eq_zero_iff _).2 hunused

/-- One response each to two numbers, with the threshold at one; a third response has to wait. -/
theorem acknowledges_on_quorum_iff_two : ∃ tr s,
    (machine .sequencingOnly (Tables.setupAckConst {} 1)).Run {} tr s ∧
      (tr.countP fun x => ReadyResponse x.2) = 2 ∧ AcknowledgesOnQuorum 1 tr := by
  have hx : ((machine .sequencingOnly (Tables.setupAckConst {} 1)).exec {}
      [.arrive 0 ⟨0, .controlPkt 2⟩, .arrive 0 ⟨1, .responsePkt 2⟩, .arrive 0 ⟨2, .responsePkt 3⟩,
        .arrive 0 ⟨3, .responsePkt 1⟩]).any (fun q =>
    decide ((q.2.countP fun x => ReadyResponse x.2) = 2 ∧ ∀ i : Fin q.2.length,
      ReadyResponse q.2[i].2 → FirstInSlot (q.2.take i) q.2[i].2)) = true := by decide +kernel
  obtain ⟨⟨s, tr⟩, hr, hx⟩ := (Option.any_eq_true ..).1 hx
  obtain ⟨htwo, hfirst⟩ := of_decide_eq_true hx
  have hA : ∀ x ∈ tr, x.1.Arrives Headers.WellFormed := Machine.forall_of_exec hr <| by
    simp [Event.Arrives]
    decide
  refine ⟨tr, s, .of_exec hr, htwo, (acknowledges_on_quorum_iff 1 (.of_exec hr) hA).2 ?_⟩
  intro tr₁ x tr₂ heq hready
  subst heq
  have hi := hfirst ⟨tr₁.length, by simp⟩
  simp only [Fin.getElem_fin, List.getElem_append_right (Nat.le_refl _), Nat.sub_self,
    List.getElem_cons_zero, List.take_left'] at hi
  exact ⟨rfl, hi hready⟩

/-- With the threshold at two, the first of two responses to the same number is already forwarded. -/
theorem first_response_forwarded : ¬ ∀ tr s,
    (machine .sequencingOnly (Tables.setupAckConst {} 2)).Run {} tr s →
    (∀ x ∈ tr, x.1.Arrives Headers.WellFormed) →
    (∀ x ∈ tr, ReadyResponse x.2 → x.2.flight.hdr.append.gIdx.toNat < maxInflightAcks) →
    (∀ n, acks n tr ≤ 2) → AcknowledgesOnQuorum 2 tr := by
  intro hall
  have hx : (machine .sequencingOnly (Tables.setupAckConst {} 2)).exec {}
    [.arrive 0 ⟨0, .controlPkt 1⟩, .arrive 0 ⟨1, .responsePkt 1⟩,
      .arrive 0 ⟨2, .responsePkt 1⟩] = some (_, _) := rfl
  have hle : ∀ n tr, acks n tr ≤ tr.countP fun x => ReadyResponse x.2 := fun n tr =>
    List.countP_mono_left fun x _ h => decide_eq_true (of_decide_eq_true h).1
  have h := hall _ _ (.of_exec hx) (by simp [Event.Arrives]; decide) (by decide)
    (fun n => (hle n _).trans (by decide)) [_] _ [_] rfl (by decide)
  exact absurd (h.others (by decide)).client (by decide)

end Switch

end Pringles.P4
