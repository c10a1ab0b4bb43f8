import Pringles.Ring.Basic

/-!
# The invariant of the ring

The control packet carries the number of numbers issued; the numbers and the open batches form a
well-ordered batch order; a closed batch occupies the positions from its base on; and no switch holds
a number beyond the control packet's, neither in its table nor in `highest_replicated_seq_no`.

A step first hands out a packet, which changes nothing that the invariant speaks of
(`Inv.dispatched`), and then settles its pass (`Inv.settle`). What settling needs to know of the
packet is `Fit`.
-/

namespace Pringles.P4

namespace Ring

variable {ι : Type} {N : Net ι} {R R' R₀ : Ring ι} {e : Event ι} {o : Served ι} {i j : ι}
  {f : Flight} {s₀ : Switch} {out : Pipe} {ev : Switch.Event} {found : Registers}
  {tstamp : BitVec 48}

structure Inv (R : Ring ι) : Prop where
  numbered : ∀ i, (R.sw i).Numbered
  token : R.token.IsControl
  count : R.token.cntrl.globalSeqNo.toNat = R.issued.length
  order : R.order.Wf
  drawn_lt : ∀ i a, R.order.Drawn i a → a < R.arrived
  based : ∀ i, ∀ b ∈ (R.sw i).batches, ∀ j f, b.tickets[j]? = some f →
    R.issued[b.base.toNat + j]? = some (i, f)
  base_le : ∀ i, ∀ b ∈ (R.sw i).batches, b.base.toNat + b.tickets.length ≤ R.issued.length
  increasing : ∀ i, (R.sw i).batches.Pairwise fun b b' =>
    b.base.toNat + b.tickets.length ≤ b'.base.toNat
  known : ∀ i k, ((R.sw i).regs.mapFromGsn.get k).toNat ≤ R.issued.length
  replicated : ∀ i, (R.sw i).regs.highestReplicatedSeqNo.toNat ≤ R.issued.length
  circ_lt : ∀ i, ∀ g ∈ (R.sw i).circ, g.id < R.arrived
  wire : ∀ x ∈ R.wire, x.2.hdr.IsTail ∧ x.2.hdr.append.isValid = false ∧ x.2.id < R.arrived

theorem inv_start (hdr : Headers) : Inv (start hdr : Ring ι) where
  numbered _ := Switch.numbered_init
  token := rfl
  count := rfl
  order := BatchOrder.wf_empty
  drawn_lt _ _ h := absurd h BatchOrder.not_drawn_empty
  based _ := by simp [start]
  base_le _ := by simp [start]
  increasing _ := by simp [start]
  known _ _ := by simp [start]
  replicated _ := by simp [start]
  circ_lt _ := by simp [start]
  wire := by simp [start]

/-! ## Handing out a packet -/

theorem Inv.dispatched (h : R.Inv) (hd : Dispatched R R₀) : R₀.Inv where
  numbered := by rw [hd.sw]; exact h.numbered
  token := by rw [hd.token]; exact h.token
  count := by rw [hd.token, hd.issued]; exact h.count
  order := by rw [order_dispatched hd]; exact h.order
  drawn_lt i a ha := by
    rw [order_dispatched hd] at ha
    exact Nat.lt_of_lt_of_le (h.drawn_lt i a ha) hd.arrived
  based := by rw [hd.sw, hd.issued]; exact h.based
  base_le := by rw [hd.sw, hd.issued]; exact h.base_le
  increasing := by rw [hd.sw]; exact h.increasing
  known := by rw [hd.sw, hd.issued]; exact h.known
  replicated := by rw [hd.sw, hd.issued]; exact h.replicated
  circ_lt i g hg := by
    rw [hd.sw] at hg
    exact Nat.lt_of_lt_of_le (h.circ_lt i g hg) hd.arrived
  wire x hx := by
    obtain ⟨h1, h2, h3⟩ := h.wire x (hd.wire.subset hx)
    exact ⟨h1, h2, Nat.lt_of_lt_of_le h3 hd.arrived⟩

/-- What the switch `i` may be handed. -/
structure Fit (R : Ring ι) (i : ι) (f : Flight) (s₀ : Switch) : Prop where
  presented : Switch.Presented (R.sw i) f s₀
  wellFormed : f.hdr.WellFormed
  offset : f.hdr.IsAppend → f.hdr.append.gIdx ≠ 0 → (R.sw i).HasOffset f
  draws : f.hdr.Draws → ∀ j a, R.order.Drawn j a → a < f.id
  control : f.hdr.IsControl → f.hdr = R.token
  id_lt : f.hdr.cntrl.isValid = false → f.id < R.arrived

theorem Inv.fit (h : R.Inv) (hA : e.Arrives Headers.Enters)
    (hd : R.dispatch e = some (i, ev, R₀)) (hp : (R₀.sw i).present ev = some (f, s₀)) :
    R₀.Fit i f s₀ := by
  have hdisp := Ring.dispatched hd
  have hpres := Switch.presented hp
  cases e with
  | arrive k ts hdr =>
    obtain ⟨rfl, rfl, rfl, -⟩ := dispatch_arrive hd hp
    obtain ⟨hc, hw, hfresh⟩ : hdr.Enters := hA
    refine ⟨hpres, hw, fun ha hne => absurd (hfresh ha) hne, ?_, ?_,
      fun _ => Nat.lt_succ_self _⟩
    · intro _ j a ha
      rw [order_dispatched hdisp] at ha
      exact h.drawn_lt j a ha
    · intro hcn
      exact absurd hc hcn.not_data
  | recirc k ts n =>
    simp only [dispatch, Option.some.injEq, Prod.mk.injEq] at hd
    obtain ⟨rfl, rfl, rfl⟩ := hd
    have hmem : f ∈ (R.sw k).circ := by
      simp only [Switch.present, Option.map_eq_some_iff, Prod.mk.injEq] at hp
      obtain ⟨g, hg, rfl, -⟩ := hp
      exact List.mem_of_getElem? hg
    obtain ⟨hw, hc, -⟩ := (h.numbered k).slots.circ f hmem
    have hoff := (h.numbered k).offsets f hmem
    refine ⟨hpres, hw, fun _ _ => hoff, fun hdr => absurd hdr.2.2 hoff.1,
      fun hcn => absurd hc hcn.not_data, fun _ => h.circ_lt k f hmem⟩
  | control k ts =>
    simp only [dispatch, Option.some.injEq, Prod.mk.injEq] at hd
    obtain ⟨rfl, rfl, rfl⟩ := hd
    simp only [Switch.present, Option.some.injEq, Prod.mk.injEq] at hp
    obtain ⟨rfl, -⟩ := hp
    have hc := h.token
    refine ⟨hpres, hc.wellFormed, fun ha => absurd ha hc.not_append,
      fun hdr => absurd hdr hc.not_draws, fun _ => rfl,
      fun hcn => absurd hcn hc.not_data⟩
  | hop ts n =>
    simp only [dispatch, Option.map_eq_some_iff, Prod.mk.injEq] at hd
    obtain ⟨⟨k, g⟩, hg, rfl, rfl, rfl⟩ := hd
    simp only [Switch.present, Option.some.injEq, Prod.mk.injEq] at hp
    obtain ⟨rfl, -⟩ := hp
    obtain ⟨htail, hv, hlt⟩ := h.wire _ (List.mem_of_getElem? hg)
    simp only at htail hv hlt
    have hw : g.hdr.WellFormed := fun _ => by simp [hv, htail.2]
    refine ⟨hpres, hw, fun ha => absurd ha htail.not_append,
      fun hdr => absurd hdr (Headers.not_draws_of_invalid hv),
      fun hcn => absurd htail hcn.not_tail, fun _ => hlt⟩

/-- Where the packet of a step comes from: it enters, it comes back from the loopback port, or it is
a control packet or a tail request on its way around the ring. -/
inductive Origin (R : Ring ι) (i : ι) (f : Flight) (s₀ : Switch) : Event ι → Prop
  | entered (tstamp : BitVec 48) (hdr : Headers) (same : s₀ = R.sw i)
      (flight : f = ⟨R.arrived, hdr⟩) : Origin R i f s₀ (.arrive i tstamp hdr)
  | returned (tstamp : BitVec 48) (k : Nat) (perm : (f :: s₀.circ).Perm (R.sw i).circ) :
      Origin R i f s₀ (.recirc i tstamp k)
  | visiting (tstamp : BitVec 48) (same : s₀ = R.sw i) (kind : f.hdr.IsControl) :
      Origin R i f s₀ (.control i tstamp)
  | travelling (tstamp : BitVec 48) (k : Nat) (same : s₀ = R.sw i) (kind : f.hdr.IsTail)
      (mem : (i, f) ∈ R.wire) : Origin R i f s₀ (.hop tstamp k)

theorem Inv.origin (h : R.Inv) (hd : R.dispatch e = some (i, ev, R₀))
    (hp : (R₀.sw i).present ev = some (f, s₀)) : R.Origin i f s₀ e := by
  cases e with
  | arrive k ts hdr =>
    obtain ⟨rfl, -, rfl, rfl⟩ := dispatch_arrive hd hp
    exact .entered ts hdr rfl rfl
  | recirc k ts n =>
    simp only [dispatch, Option.some.injEq, Prod.mk.injEq] at hd
    obtain ⟨rfl, rfl, rfl⟩ := hd
    exact .returned ts n (Switch.present_recirc hp)
  | control k ts =>
    simp only [dispatch, Option.some.injEq, Prod.mk.injEq] at hd
    obtain ⟨rfl, rfl, rfl⟩ := hd
    simp only [Switch.present, Option.some.injEq, Prod.mk.injEq] at hp
    obtain ⟨rfl, rfl⟩ := hp
    exact .visiting ts rfl h.token
  | hop ts n =>
    simp only [dispatch, Option.map_eq_some_iff, Prod.mk.injEq] at hd
    obtain ⟨⟨k, g⟩, hg, rfl, rfl, rfl⟩ := hd
    simp only [Switch.present, Option.some.injEq, Prod.mk.injEq] at hp
    obtain ⟨rfl, rfl⟩ := hp
    have hmem := List.mem_of_getElem? hg
    exact .travelling ts n rfl (h.wire _ hmem).1 hmem

/-! ## Bounds -/

theorem Inv.issued_le (h : R.Inv) : R.issued.length ≤ R.arrived := by
  rw [← order_issued_length]
  exact h.order.length_issued_le h.drawn_lt

theorem Inv.pending_le (h : R.Inv) (i : ι) : (R.sw i).pending.length ≤ R.arrived := by
  have := h.order.length_pending_le h.drawn_lt i
  simpa [Ring.order] using this

theorem Inv.bounded (h : R.Inv) (hlt : R.arrived < 2 ^ 32) (i : ι) : (R.sw i).Bounded where
  pending := Nat.lt_of_le_of_lt (h.pending_le i) hlt
  closed b hb := by
    have := h.base_le i b hb
    have := h.issued_le
    omega

/-- There is room for the number that a packet draws. -/
theorem Inv.draw_room (h : R.Inv) (hlt : R.arrived < 2 ^ 32) (hf : R.Fit i f s₀)
    (hd : f.hdr.Draws) : (R.sw i).pending.length + 1 < 2 ^ 32 := by
  have hle := h.order.length_pending_le (hf.draws hd) i
  have hid := hf.id_lt hd.1
  simp only [Ring.order, List.length_map] at hle
  omega

/-! ## Settling a pass -/

/-- A pass writes no number beyond the control packet's into a slot. -/
theorem Inv.slot_le (h : R.Inv) (hf : R.Fit i f s₀)
    (hk : MyIngress.PassKind s₀.regs f.hdr out) (n : Nat) :
    (out.regs.mapFromGsn.get n).toNat ≤ R.issued.length := by
  rcases hk.mapFromGsn n with hold | hzero | ⟨hctl, hnew⟩
  · rw [hold, hf.presented.regs]
    exact h.known i n
  · simp [hzero]
  · rw [hnew, hf.control hctl, h.count]

/-- A pass records no number beyond the control packet's. -/
theorem Inv.highest_le (h : R.Inv) (hf : R.Fit i f s₀)
    (hk : MyIngress.PassKind s₀.regs f.hdr out) :
    out.regs.highestReplicatedSeqNo.toNat ≤ R.issued.length := by
  rcases hk.highest with hold | ⟨-, hready, -, hnew⟩
  · rw [hold, hf.presented.regs]
    exact h.replicated i
  · rw [hnew]
    have hle := BitVec.le_def.1 hready
    rw [hf.presented.regs] at hle
    exact Nat.le_trans hle (h.known i _)

/-- Only packets that have arrived go to the loopback port. -/
theorem Fit.circ_lt (hf : R.Fit i f s₀) (hk : MyIngress.PassKind s₀.regs f.hdr out)
    (hcirc : out.metadata.circulate = true) : f.id < R.arrived := by
  refine hf.id_lt ?_
  cases hk with
  | control _ pass => simp [pass.circulate] at hcirc
  | fresh kind => exact kind.1
  | circulating kind => exact kind.1
  | response kind => exact kind.1
  | idle notControl => exact notControl

/-- What travels on is a tail request again. -/
theorem Fit.wire (hf : R.Fit i f s₀) (hk : MyIngress.PassKind s₀.regs f.hdr out) {x : ι × Flight}
    (hx : forwarded N i ⟨f, found, out⟩ = some x) :
    x.2.hdr.IsTail ∧ x.2.hdr.append.isValid = false ∧ x.2.id < R.arrived := by
  obtain ⟨htail, -, hx, -⟩ := forwarded_eq_some hx
  rw [hx]
  have hv : f.hdr.append.isValid = false := htail.append_invalid hf.wellFormed
  cases hk with
  | control kind => exact absurd htail kind.not_tail
  | fresh kind => exact absurd kind htail.not_append
  | circulating kind => exact absurd kind htail.not_append
  | response kind => exact absurd kind htail.not_resp
  | idle _ _ _ _ pass =>
    exact ⟨⟨pass.notControl, pass.type.trans htail.2⟩, pass.append ▸ hv, hf.id_lt htail.1⟩

section
variable [DecidableEq ι]

theorem mem_batches_settle (hp : Switch.Presented (R.sw i) f s₀) {b : Batch}
    (hb : b ∈ ((R.settle N i (s₀.after f out) ⟨f, found, out⟩).sw j).batches) :
    b ∈ (R.sw j).batches ∨
      j = i ∧ (R.sw i).Closes f.hdr ∧ b = ⟨f.hdr.cntrl.globalSeqNo, (R.sw i).pending⟩ := by
  by_cases hj : j = i
  · subst hj
    rw [settle_self] at hb
    by_cases hc : (R.sw j).Closes f.hdr
    · rw [Switch.batches_closes ((closes_iff hp).2 hc), List.mem_append, List.mem_singleton,
        hp.batches, hp.pending] at hb
      exact hb.imp_right fun hb => ⟨rfl, hc, hb⟩
    · rw [Switch.batches_quiet (mt (closes_iff hp).1 hc), hp.batches] at hb
      exact .inl hb
  · rw [settle_ne hj] at hb
    exact .inl hb

theorem Inv.order_settle (h : R.Inv) (hf : R.Fit i f s₀) :
    (R.settle N i (s₀.after f out) ⟨f, found, out⟩).order.Wf := by
  by_cases hc : (R.sw i).Closes f.hdr
  · rw [order_closes hf.presented hc]
    exact h.order.close
  by_cases hd : f.hdr.Draws
  · rw [order_draws hf.presented hd]
    exact h.order.draw (hf.draws hd)
  · rw [order_quiet hf.presented hc hd]
    exact h.order

/-- A pass draws at most the number of its own packet. -/
theorem drawn_settle (hp : Switch.Presented (R.sw i) f s₀) {a : Nat} :
    (R.settle N i (s₀.after f out) ⟨f, found, out⟩).order.Drawn j a ↔
      R.order.Drawn j a ∨ f.hdr.Draws ∧ j = i ∧ a = f.id := by
  by_cases hc : (R.sw i).Closes f.hdr
  · rw [order_closes hp hc, BatchOrder.drawn_close]
    simp [Switch.not_draws_of_closes hc]
  by_cases hd : f.hdr.Draws
  · rw [order_draws hp hd, BatchOrder.drawn_draw]
    simp [hd]
  · rw [order_quiet hp hc hd]
    simp [hd]

theorem Inv.drawn_lt_settle (h : R.Inv) (hf : R.Fit i f s₀) {k : ι} {a : Nat}
    (ha : (R.settle N i (s₀.after f out) ⟨f, found, out⟩).order.Drawn k a) : a < R.arrived := by
  rcases (drawn_settle hf.presented).1 ha with ha | ⟨hd, -, rfl⟩
  · exact h.drawn_lt k a ha
  · exact hf.id_lt hd.1

/-- The control packet goes on counting the numbers issued. -/
theorem Inv.count_settle (h : R.Inv) (hlt : R.arrived < 2 ^ 32) (hf : R.Fit i f s₀)
    (hout : MyIngress.apply N.program (N.tables i) tstamp s₀.regs f.hdr = some out) :
    (R.settle N i (s₀.after f out) ⟨f, found, out⟩).token.cntrl.globalSeqNo.toNat =
      (R.settle N i (s₀.after f out) ⟨f, found, out⟩).issued.length := by
  by_cases hctl : f.hdr.IsControl
  · have htoken : (R.settle N i (s₀.after f out) ⟨f, found, out⟩).token = out.hdr := by
      simp [settle, hctl]
    have pass := MyIngress.apply_control hctl hout
    rw [htoken, pass.globalSeqNo, hf.control hctl, hf.presented.regs]
    by_cases h0 : (R.sw i).regs.localSeqNo = 0
    · rw [issued_quiet (fun hc => hc.2 h0), h0, ← h.count]
      exact congrArg BitVec.toNat (BitVec.add_zero _)
    · have hc : (R.sw i).Closes f.hdr := ⟨hctl, h0⟩
      have hwf : (R.settle N i (s₀.after f out) ⟨f, found, out⟩).order.Wf := h.order_settle hf
      have hle := hwf.length_issued_le fun k a ha => h.drawn_lt_settle hf ha
      rw [order_issued_length, issued_closes hc, List.length_append, List.length_map] at hle
      rw [issued_closes hc, List.length_append, List.length_map, BitVec.toNat_add, h.count,
        (h.numbered i).slots.drawn, BitVec.toNat_ofNat]
      omega
  · have htoken : (R.settle N i (s₀.after f out) ⟨f, found, out⟩).token = R.token := by
      simp [settle, hctl]
    rw [htoken, issued_quiet (fun hc => hctl hc.1)]
    exact h.count

/-- The number at a position is the number that its packet drew, also in the closing batch. -/
theorem Inv.based_settle (h : R.Inv) (hf : R.Fit i f s₀) {k : ι} {b : Batch} {n : Nat} {g : Flight}
    (hb : b ∈ ((R.settle N i (s₀.after f out) ⟨f, found, out⟩).sw k).batches)
    (hn : b.tickets[n]? = some g) :
    (R.settle N i (s₀.after f out) ⟨f, found, out⟩).issued[b.base.toNat + n]? = some (k, g) := by
  rcases mem_batches_settle hf.presented hb with hb | ⟨rfl, hc, rfl⟩
  · exact BatchOrder.getElem?_of_prefix issued_prefix (h.based k b hb n g hn)
  · have hbase : f.hdr.cntrl.globalSeqNo.toNat = R.issued.length := by
      rw [hf.control hc.1, h.count]
    have hle : R.issued.length ≤ f.hdr.cntrl.globalSeqNo.toNat + n := by omega
    rw [issued_closes hc, List.getElem?_append_right hle, hbase, Nat.add_sub_cancel_left,
      List.getElem?_map, hn]
    rfl

theorem Inv.increasing_settle (h : R.Inv) (hf : R.Fit i f s₀) (k : ι) :
    ((R.settle N i (s₀.after f out) ⟨f, found, out⟩).sw k).batches.Pairwise fun b b' =>
      b.base.toNat + b.tickets.length ≤ b'.base.toNat := by
  refine forall_settle (P := fun _ s => s.batches.Pairwise fun b b' =>
    b.base.toNat + b.tickets.length ≤ b'.base.toNat) ?_ (fun k _ => h.increasing k) k
  by_cases hc : (R.sw i).Closes f.hdr
  · rw [Switch.batches_closes ((closes_iff hf.presented).2 hc), hf.presented.batches,
      List.pairwise_append]
    refine ⟨h.increasing i, List.pairwise_singleton .., ?_⟩
    intro b hb b' hb'
    rw [List.mem_singleton.1 hb', hf.control hc.1, h.count]
    exact h.base_le i b hb
  · rw [Switch.batches_quiet (mt (closes_iff hf.presented).1 hc), hf.presented.batches]
    exact h.increasing i

/-- **Settling a pass keeps the invariant.** -/
theorem Inv.settle (h : R.Inv) (hlt : R.arrived < 2 ^ 32) (hf : R.Fit i f s₀)
    (hout : MyIngress.apply N.program (N.tables i) tstamp s₀.regs f.hdr = some out) :
    (R.settle N i (s₀.after f out) ⟨f, found, out⟩).Inv := by
  have hp := hf.presented
  have hk := MyIngress.passKind hf.wellFormed hout
  have hlen : R.issued.length ≤ (R.settle N i (s₀.after f out) ⟨f, found, out⟩).issued.length :=
    issued_prefix.length_le
  constructor
  case numbered =>
    refine forall_settle ?_ fun k _ => h.numbered k
    have hroom : f.hdr.Draws → s₀.pending.length + 1 < 2 ^ 32 := by
      rw [hp.pending]
      exact h.draw_room hlt hf
    exact ((h.numbered i).presented hp).pass ((h.bounded hlt i).presented hp) hf.wellFormed hroom
      (fun ha hne => (hf.offset ha hne).presented hp) hout
  case token =>
    by_cases hctl : f.hdr.IsControl
    · have pass := MyIngress.apply_control hctl hout
      simp only [Ring.settle, hctl, ↓reduceIte]
      exact pass.isControl
    · simpa [Ring.settle, hctl] using h.token
  case count => exact h.count_settle hlt hf hout
  case order => exact h.order_settle hf
  case drawn_lt => exact fun k a ha => h.drawn_lt_settle hf ha
  case based => exact fun k b hb n g hn => h.based_settle hf hb hn
  case base_le =>
    intro k b hb
    rcases mem_batches_settle hp hb with hb | ⟨rfl, hc, rfl⟩
    · exact Nat.le_trans (h.base_le k b hb) hlen
    · rw [issued_closes hc, List.length_append, List.length_map, hf.control hc.1, h.count]
  case increasing => exact h.increasing_settle hf
  case known =>
    intro k n
    refine Nat.le_trans ?_ hlen
    exact forall_settle (P := fun _ s => ∀ n, (s.regs.mapFromGsn.get n).toNat ≤ R.issued.length)
      (h.slot_le hf hk) (fun k _ => h.known k) k n
  case replicated =>
    intro k
    refine Nat.le_trans ?_ hlen
    exact forall_settle (P := fun _ s => s.regs.highestReplicatedSeqNo.toNat ≤ R.issued.length)
      (h.highest_le hf hk) (fun k _ => h.replicated k) k
  case circ_lt =>
    refine forall_settle (P := fun _ s => ∀ g ∈ s.circ, g.id < R.arrived) ?_
      fun k _ => h.circ_lt k
    intro g hg
    rcases (Switch.mem_circ_after s₀ f out).1 hg with hg | ⟨hcirc, rfl⟩
    · exact h.circ_lt i g (hp.circ.subset hg)
    · exact hf.circ_lt hk hcirc
  case wire =>
    intro x hx
    rcases List.mem_append.1 hx with hx | hx
    · exact h.wire x hx
    · exact hf.wire hk (Option.mem_toList.1 hx)

/-! ## Runs -/

theorem step_arrived_le (hs : (machine N).step R e = some (R', o)) : R.arrived ≤ R'.arrived := by
  obtain ⟨i, ev, R₀, f, s₀, out, hd, -, -, rfl, -⟩ := step_eq_some hs
  exact (Ring.dispatched hd).arrived

theorem step_issued_prefix (hs : (machine N).step R e = some (R', o)) :
    R.issued <+: R'.issued := by
  obtain ⟨i, ev, R₀, f, s₀, out, hd, -, -, rfl, -⟩ := step_eq_some hs
  rw [← (Ring.dispatched hd).issued]
  exact issued_prefix

theorem Inv.step (h : R.Inv) (hA : e.Arrives Headers.Enters) (hlt : R'.arrived < 2 ^ 32)
    (hs : (machine N).step R e = some (R', o)) : R'.Inv := by
  obtain ⟨i, ev, R₀, f, s₀, out, hd, hp, hout, rfl, -⟩ := step_eq_some hs
  have hf := h.fit hA hd hp
  rw [← hf.presented.regs] at hout
  exact (h.dispatched (Ring.dispatched hd)).settle hlt hf hout

variable {tr : List (Event ι × Served ι)} {hdr : Headers}

/-- **The invariant holds in every reachable state of a ring, whatever enters it.** -/
theorem inv_run (hr : (machine N).Run (start hdr) tr R)
    (hA : ∀ x ∈ tr, x.1.Arrives Headers.Enters) (hlt : R.arrived < 2 ^ 32) : R.Inv :=
  hr.invariant (I := fun _ R => R.Inv) (B := fun R => R.arrived < 2 ^ 32)
    (fun _ _ _ _ _ hs hlt => Nat.lt_of_le_of_lt (step_arrived_le hs) hlt)
    (fun _ _ _ _ _ hA h hlt hs => h.step hA hlt hs) hA (inv_start hdr) hlt

theorem arrived_le_run (hr : (machine N).Run R tr R') : R.arrived ≤ R'.arrived :=
  hr.mono (R := fun R R' : Ring ι => R.arrived ≤ R'.arrived) (A := fun _ => True)
    (fun _ => Nat.le_refl _) (fun _ _ _ => Nat.le_trans) (fun _ _ _ _ _ hs => step_arrived_le hs)
    (fun _ _ => trivial)

/-- A number, once issued, stays with its packet. -/
theorem issued_prefix_run (hr : (machine N).Run R tr R') : R.issued <+: R'.issued :=
  hr.mono (R := fun R R' : Ring ι => R.issued <+: R'.issued) (A := fun _ => True)
    (fun _ => List.prefix_rfl) (fun _ _ _ => List.IsPrefix.trans)
    (fun _ _ _ _ _ hs => step_issued_prefix hs) (fun _ _ => trivial)

end

end Ring

end Pringles.P4
