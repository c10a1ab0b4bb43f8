import Pringles.P4.Shape

/-!
# Subscriptions in the pipeline

A subscription request goes to all switches or to the own control plane, by its flag, which the pass
turns over first. A response that is released is mirrored to the session that
`route_subscriber_acks` holds for its stream.
-/

namespace Pringles.P4

/-- A subscription request. -/
def Headers.IsSub (hdr : Headers) : Prop :=
  hdr.cntrl.isValid = false ∧ hdr.ringType.type = typeSub

/-- The flag of a request behind the pass. -/
def toggle (subscribe : BitVec 32) : BitVec 32 :=
  if subscribe = 0 then 1 else if subscribe = 1 then 0 else subscribe

/-- The request with its flag turned over. -/
def Headers.toggled (hdr : Headers) : Headers :=
  { hdr with sub := { hdr.sub with subscribe := toggle hdr.sub.subscribe } }

/-- The mirror session of `route_subscriber_acks` for a stream. -/
def Tables.subscriberSession (t : Tables) (streamId : BitVec 32) : Option (BitVec 10) :=
  match t.routeSubscriberAcks streamId with
  | .forwardToSubscribers session => some session
  | .noAction => none

/-- The session to which the ingress deparser sends a copy. -/
def Pipe.mirrorSession (out : Pipe) : Option (BitVec 10) :=
  if out.dprsr.mirrorType = mirrorTypeI2E then some out.metadata.ingMirSes else none

namespace MyIngress

variable {p : Program} {t : Tables} {tstamp : BitVec 48} {regs : Registers} {hdr : Headers}
  {s out : Pipe}

/-! ## Released responses -/

theorem mirrorType_ipv4Lpm (t : Tables) (s : Pipe) :
    (ipv4Lpm t s).dprsr.mirrorType = s.dprsr.mirrorType ∧
      (ipv4Lpm t s).hdr.append = s.hdr.append ∧ (ipv4Lpm t s).hdr.sub = s.hdr.sub ∧
      (ipv4Lpm t s).metadata = s.metadata := by
  unfold ipv4Lpm
  split
  · exact ⟨rfl, rfl, rfl, rfl⟩
  · exact ⟨rfl, rfl, rfl, rfl⟩
  · exact ⟨rfl, rfl, rfl, rfl⟩

theorem mirrorSession_routeSubscriberAcks (h : s.dprsr.mirrorType = 0) :
    (routeSubscriberAcks t s).mirrorSession = t.subscriberSession s.hdr.append.streamId := by
  unfold routeSubscriberAcks Tables.subscriberSession
  cases t.routeSubscriberAcks s.hdr.append.streamId with
  | forwardToSubscribers session => rfl
  | noAction =>
    simp only [Pipe.mirrorSession, h]
    rfl

/-- A packet that goes to a client is mirrored when acknowledgements are sent. -/
theorem mirrorSession_route (h0 : s.dprsr.mirrorType = 0)
    (hclient : s.metadata.routeToClient = true) (hcntrl : s.metadata.isCntrl = false)
    (hcirc : s.metadata.circulate = false) (hshard : s.metadata.routeToShard = false)
    (hsub : s.hdr.sub.isValid = false) : (route t s).mirrorSession =
      if s.metadata.sendAcks then t.subscriberSession s.hdr.append.streamId else none := by
  obtain ⟨hmirror, happ, hsub', hmeta⟩ := mirrorType_ipv4Lpm t s
  simp only [route, routeClient, hclient, ↓reduceIte, hmeta, hcntrl, hcirc, hshard, hsub', hsub,
    Bool.false_eq_true]
  split
  · rw [mirrorSession_routeSubscriberAcks (hmirror.trans h0), happ]
  · simp only [Pipe.mirrorSession, hmirror, h0]
    rfl

/-- **A response that is released is mirrored to its stream's session**, unless the packet generator
made it. -/
theorem apply_released (hr : hdr.IsAppendResp) (hv : hdr.append.isValid = true)
    (hsub : hdr.sub.isValid = false) (hlt : regs.cntrlPktIt.toNat < maxGsnMapSize)
    (hready : Ready regs hdr) (p : Program) (t : Tables) (tstamp : BitVec 48) :
    ∃ out, apply p t tstamp regs hdr = some out ∧ Released out ∧ out.mirrorSession =
      if hdr.timer.isValid then none else t.subscriberSession hdr.append.streamId := by
  suffices h : ∃ out, apply p t tstamp regs hdr = some out ∧ out.mirrorSession =
      if hdr.timer.isValid then none else t.subscriberSession hdr.append.streamId by
    obtain ⟨out, ha, hout⟩ := h
    exact ⟨out, ha, (apply_response hr hv ha).released_iff.2 hready, hout⟩
  obtain ⟨hc, ha⟩ := hr
  obtain ⟨reg, n, heq⟩ := apply_data hc p t tstamp regs
  rw [heq]
  generalize hs : start { regs := { regs with localSeqNo := n }, hdr := hdr } = s₀
  have hready' : readyForAck s₀ = some 1 := by
    subst hs
    unfold Ready at hready
    simp only [readyForAck, start, ha, ↓reduceIte, getCntrlPktIt, RegArray.execute_of_lt _ hlt,
      compareGsn, Option.map_some, gt_iff_lt, ← BitVec.not_lt] at hready ⊢
    rw [if_neg hready]
  have hprocess : process p t tstamp reg s₀ = responseBranch tstamp s₀ := by
    subst hs
    simp [process, start, hc, ha, hv]
  rw [hprocess, responseBranch_ready hready', Option.map_some]
  refine ⟨_, rfl, ?_⟩
  subst hs
  simp only [release, start, hv, Bool.true_and]
  cases htimer : hdr.timer.isValid with
  | true => exact mirrorSession_route rfl rfl rfl rfl rfl hsub
  | false => exact mirrorSession_route rfl rfl rfl rfl rfl hsub

/-! ## Requests -/

/-- Where the lookup sends a request. -/
def submitted (t : Tables) (flag : BitVec 32) : TmMetadata :=
  match t.submitSubscription flag with
  | .sendSubscriptionToAll groupId => { mcastGrpA := some groupId }
  | .sendSubscriptionToSelf port => { ucastEgressPort := some port }
  | .noAction => {}

theorem submitSubscription_spec (htm : s.tm = {}) :
    (submitSubscription t s).hdr = s.hdr.toggled ∧
      (submitSubscription t s).tm = submitted t (toggle s.hdr.sub.subscribe) ∧
      (submitSubscription t s).dprsr = s.dprsr := by
  have hflag : (if s.hdr.sub.subscribe = 0 then 1 else if s.hdr.sub.subscribe = 1 then 0
      else s.hdr.sub.subscribe) = toggle s.hdr.sub.subscribe := rfl
  simp only [MyIngress.submitSubscription, hflag, submitted]
  cases t.submitSubscription (toggle s.hdr.sub.subscribe) with
  | sendSubscriptionToAll groupId => exact ⟨rfl, by rw [htm], rfl⟩
  | sendSubscriptionToSelf port => exact ⟨rfl, by rw [htm], rfl⟩
  | noAction => exact ⟨rfl, htm, rfl⟩

/-- **A request leaves with its flag turned over, to where the new flag sends it.** -/
theorem apply_subscription (hp : hdr.Parsed) (hs : hdr.IsSub) (p : Program) (t : Tables)
    (tstamp : BitVec 48) (regs : Registers) : ∃ out, apply p t tstamp regs hdr = some out ∧
      out.hdr = hdr.toggled ∧ out.tm = submitted t (toggle hdr.sub.subscribe) ∧
      out.dprsr = {} := by
  obtain ⟨hc, hty⟩ := hs
  obtain ⟨reg, n, heq⟩ := apply_data hc p t tstamp regs
  have hsub : hdr.sub.isValid = true := by rw [hp.sub, hc, hty]; rfl
  have happ : hdr.append.isValid = false := by rw [hp.append, hc, hty]; rfl
  have htail : hdr.tail.isValid = false := by rw [hp.tail, hc, hty]; rfl
  have hview : hdr.startView.isValid = false := by rw [hp.startView, hc, hty]; rfl
  rw [heq]
  generalize hstart : start { regs := { regs with localSeqNo := n }, hdr := hdr } = s₀
  have hprocess : process p t tstamp reg s₀ = some s₀ := by
    subst hstart
    have hne : ∀ x, typeSub ≠ x → (hdr.ringType.type == x) = false := by
      intro x hx
      rw [hty]
      exact beq_eq_false_iff_ne.2 hx
    cases p <;> simp [process, start, hc, happ, htail, hview, answersView,
      hne typeAppend (by decide), hne typeAppendResp (by decide), hne typeRead (by decide),
      hne typeReadResp (by decide)]
  have hroute : route t s₀ = MyIngress.submitSubscription t s₀ := by
    subst hstart
    simp [route, routeClient, start, hsub]
  rw [hprocess, Option.map_some, hroute]
  refine ⟨_, rfl, ?_⟩
  subst hstart
  exact submitSubscription_spec rfl

end MyIngress

end Pringles.P4
