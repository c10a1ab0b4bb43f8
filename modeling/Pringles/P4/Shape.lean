import Pringles.P4.IngressSpec

/-!
# The shape of a packet

Which headers a packet has, and the two fields that announce them: the ethernet type and the ring
type. A pass through the ingress leaves the shape alone, except that a generated append may become a
response (`Retyped`); so a packet that the parser has accepted is still of the form that a parser
accepts (`apply_parsed`).
-/

namespace Pringles.P4

namespace Headers

/-- The ethernet type and the validity bits. -/
def shape (hdr : Headers) : BitVec 16 × List Bool :=
  (hdr.ethernet.etherType, [hdr.timer.isValid, hdr.ethernet.isValid, hdr.cntrl.isValid,
    hdr.ipv4.isValid, hdr.udp.isValid, hdr.startView.isValid, hdr.ringType.isValid,
    hdr.append.isValid, hdr.read.isValid, hdr.tail.isValid, hdr.sub.isValid,
    hdr.cntrlCheck.isValid])

variable {hdr hdr' hdr'' : Headers}

/-- The ring type is the same, or that of an append has become that of a response. -/
def Retyped (hdr hdr' : Headers) : Prop :=
  hdr'.ringType.type = hdr.ringType.type ∨
    hdr.ringType.type = typeAppend ∧ hdr'.ringType.type = typeAppendResp

structure Reshaped (hdr hdr' : Headers) : Prop where
  shape : hdr'.shape = hdr.shape
  type : Retyped hdr hdr'

theorem Reshaped.refl (hdr : Headers) : Reshaped hdr hdr := ⟨rfl, .inl rfl⟩

theorem Reshaped.of_type (hs : hdr'.shape = hdr.shape)
    (ht : hdr'.ringType.type = hdr.ringType.type) : Reshaped hdr hdr' := ⟨hs, .inl ht⟩

/-- A change in front that keeps the ring type. -/
theorem Reshaped.trans_left (hs : hdr'.shape = hdr.shape)
    (ht : hdr'.ringType.type = hdr.ringType.type) (h : Reshaped hdr' hdr'') :
    Reshaped hdr hdr'' :=
  ⟨h.shape.trans hs, by unfold Retyped; rw [← ht]; exact h.type⟩

/-- A change behind that keeps the ring type. -/
theorem Reshaped.trans_right (h : Reshaped hdr hdr') (hs : hdr''.shape = hdr'.shape)
    (ht : hdr''.ringType.type = hdr'.ringType.type) : Reshaped hdr hdr'' :=
  ⟨hs.trans h.shape, by unfold Retyped; rw [ht]; exact h.type⟩

/-- A response has the same headers as an append. -/
theorem Parsed.reshaped (h : hdr.Parsed) (hr : Reshaped hdr hdr') : hdr'.Parsed := by
  obtain ⟨hs, ht⟩ := hr
  simp only [Headers.shape, Prod.mk.injEq, List.cons.injEq, and_true] at hs
  obtain ⟨hetype, -, heth, hcntrl, hipv4, hudp, hview, hring, happ, hread, htail, hsub, hcheck⟩ := hs
  have hcontrol : hdr'.cntrl.isValid = (hdr'.ethernet.etherType == typeControl) := by
    rw [hcntrl, hetype, h.cntrl]
  rcases ht with ht | ⟨ha, hr⟩
  · constructor
    · rw [heth, h.ethernet]
    · exact hcontrol
    · rw [hipv4, hcntrl, h.ipv4]
    · rw [hudp, hcntrl, h.udp]
    · rw [hring, hcntrl, h.ringType]
    · rw [hcheck, hcntrl, ht, h.cntrlCheck]
    · rw [happ, hcntrl, ht, h.append]
    · rw [hread, hcntrl, ht, h.read]
    · rw [htail, hcntrl, ht, h.tail]
    · rw [hsub, hcntrl, ht, h.sub]
    · rw [hview, hcntrl, ht, h.startView]
  · constructor
    · rw [heth, h.ethernet]
    · exact hcontrol
    · rw [hipv4, hcntrl, h.ipv4]
    · rw [hudp, hcntrl, h.udp]
    · rw [hring, hcntrl, h.ringType]
    · rw [hcheck, hcntrl, hr, h.cntrlCheck, ha]; rfl
    · rw [happ, hcntrl, hr, h.append, ha]; rfl
    · rw [hread, hcntrl, hr, h.read, ha]; rfl
    · rw [htail, hcntrl, hr, h.tail, ha]; rfl
    · rw [hsub, hcntrl, hr, h.sub, ha]; rfl
    · rw [hview, hcntrl, hr, h.startView, ha]; rfl

end Headers

namespace MyIngress

open Headers (Reshaped)

variable {p : Program} {t : Tables} {tstamp : BitVec 48} {regs : Registers} {hdr : Headers}
  {s s' out : Pipe}

/-! ## The routing logic -/

theorem shape_ipv4Lpm (t : Tables) (s : Pipe) : (ipv4Lpm t s).hdr.shape = s.hdr.shape := by
  unfold ipv4Lpm
  split <;> rfl

theorem shape_cntrlIdToIp (t : Tables) (s : Pipe) : (cntrlIdToIp t s).hdr.shape = s.hdr.shape := by
  unfold cntrlIdToIp
  split <;> rfl

theorem shape_circulateTable (t : Tables) (s : Pipe) :
    (circulateTable t s).hdr.shape = s.hdr.shape := by
  unfold circulateTable
  split <;> rfl

theorem shape_getShardPort (t : Tables) (s : Pipe) : (getShardPort t s).hdr.shape = s.hdr.shape := by
  unfold getShardPort
  split <;> rfl

theorem shape_submitSubscription (t : Tables) (s : Pipe) :
    (submitSubscription t s).hdr.shape = s.hdr.shape := by
  unfold submitSubscription
  simp only
  split <;> rfl

theorem shape_routeSubscriberAcks (t : Tables) (s : Pipe) :
    (routeSubscriberAcks t s).hdr.shape = s.hdr.shape := by
  unfold routeSubscriberAcks
  split <;> rfl

theorem shape_routeClient (t : Tables) (s : Pipe) : (routeClient t s).hdr.shape = s.hdr.shape := by
  unfold routeClient
  split
  · exact shape_ipv4Lpm t s
  · rfl

theorem shape_route (t : Tables) (s : Pipe) : (route t s).hdr.shape = s.hdr.shape := by
  refine Eq.trans ?_ (shape_routeClient t s)
  unfold route
  simp only
  split
  · exact shape_cntrlIdToIp t _
  split
  · exact shape_circulateTable t _
  split
  · exact shape_getShardPort t _
  split
  · exact shape_submitSubscription t _
  split
  · exact shape_routeSubscriberAcks t _
  · rfl

/-! ## The branches -/

theorem reshaped_controlBranch {reg : BitVec 32} (h : controlBranch tstamp reg s = some s') :
    Reshaped s.hdr s'.hdr := by
  simp only [controlBranch, Option.map_eq_some_iff] at h
  obtain ⟨m, hm, rfl⟩ := h
  unfold recordGsn at hm
  split at hm
  · simp only [Option.bind_eq_bind, Option.bind_eq_some_iff, Option.pure_def, Option.some.injEq] at hm
    obtain ⟨_, -, rfl⟩ := hm
    exact .of_type rfl rfl
  · simp only [Option.bind_eq_bind, Option.bind_eq_some_iff, Option.pure_def, Option.some.injEq] at hm
    obtain ⟨_, -, rfl⟩ := hm
    exact .of_type rfl rfl

theorem shape_numberAppend {reg : BitVec 32} (h : numberAppend tstamp reg s = some s') :
    s'.hdr.shape = s.hdr.shape ∧ s'.hdr.ringType.type = s.hdr.ringType.type := by
  simp only [numberAppend] at h
  split at h
  · simp only [Option.bind_eq_bind, Option.bind_eq_some_iff, Option.pure_def, Option.some.injEq] at h
    obtain ⟨_, -, rfl⟩ := h
    exact ⟨rfl, rfl⟩
  · simp only [Option.bind_eq_bind, Option.bind_eq_some_iff, Option.pure_def, Option.some.injEq] at h
    obtain ⟨_, -, rfl⟩ := h
    exact ⟨rfl, rfl⟩

/-- Only here does the ring type change. -/
theorem reshaped_routeAppend (h : s.hdr.ringType.type = typeAppend) :
    Reshaped s.hdr (routeAppend tstamp s).hdr := by
  unfold routeAppend
  split
  · exact .refl _
  split
  · exact ⟨rfl, .inr ⟨h, rfl⟩⟩
  · exact .of_type rfl rfl

theorem reshaped_release (tstamp : BitVec 48) (s : Pipe) :
    Reshaped s.hdr (release tstamp s).hdr := by
  unfold release
  split
  · exact .of_type rfl rfl
  split
  · exact .of_type rfl rfl
  split
  · exact .of_type rfl rfl
  · exact .refl _

theorem reshaped_responseBranch (h : responseBranch tstamp s = some s') :
    Reshaped s.hdr s'.hdr := by
  simp only [responseBranch, Option.bind_eq_bind, Option.bind_eq_some_iff, Option.pure_def] at h
  obtain ⟨ready, -, h⟩ := h
  split at h
  · simp only [Option.bind_eq_some_iff, Option.some.injEq] at h
    obtain ⟨⟨acks, ackReady⟩, -, rfl⟩ := h
    split
    · exact reshaped_release tstamp { s with regs := { s.regs with ackArray := acks } }
    · exact .refl _
  · simp only [Option.some.injEq] at h
    subst h
    exact .refl _

theorem reshaped_tailBranch (t : Tables) (s : Pipe) : Reshaped s.hdr (tailBranch t s).hdr := by
  unfold tailBranch
  simp only
  split
  · exact .of_type rfl rfl
  · exact .of_type rfl rfl

theorem reshaped_viewBranch (h : viewBranch p t s = some s') : Reshaped s.hdr s'.hdr := by
  simp only [viewBranch, Option.bind_eq_bind, Option.bind_eq_some_iff, Option.pure_def,
    Option.some.injEq] at h
  obtain ⟨_, -, rfl⟩ := h
  exact .of_type rfl rfl

theorem reshaped_process {reg : BitVec 32} (h : process p t tstamp reg s = some s') :
    Reshaped s.hdr s'.hdr := by
  unfold process at h
  split at h
  · exact reshaped_controlBranch h
  split at h
  · rename_i ha
    simp only [Bool.and_eq_true, beq_iff_eq] at ha
    simp only [appendBranch, Option.map_eq_some_iff] at h
    obtain ⟨m, hm, rfl⟩ := h
    obtain ⟨hshape, htype⟩ := shape_numberAppend hm
    exact .trans_left hshape htype (reshaped_routeAppend (htype.trans ha.1))
  split at h
  · exact reshaped_responseBranch h
  split at h
  · simp only [Option.some.injEq] at h
    subst h
    exact .refl _
  split at h
  · simp only [Option.some.injEq] at h
    subst h
    exact reshaped_tailBranch t s
  split at h
  · exact reshaped_viewBranch h
  · simp only [Option.some.injEq] at h
    subst h
    exact .refl _

/-- A pass leaves the shape of the packet alone. -/
theorem reshaped_apply (h : apply p t tstamp regs hdr = some out) : Reshaped hdr out.hdr := by
  have hhdr := (localSeqNoReg_frame (start { regs := regs, hdr := hdr })).1
  simp only [apply, Option.map_eq_some_iff] at h
  obtain ⟨s, hs, rfl⟩ := h
  have hp := reshaped_process hs
  rw [hhdr] at hp
  refine hp.trans_right (shape_route t s) ?_
  rw [(routed_route t s).ringType]

/-- **What the parser has accepted stays of the form that a parser accepts.** -/
theorem apply_parsed (hp : hdr.Parsed) (h : apply p t tstamp regs hdr = some out) :
    out.hdr.Parsed := hp.reshaped (reshaped_apply h)

end MyIngress

end Pringles.P4
