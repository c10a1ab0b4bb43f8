import Pringles.Lib.BatchOrder
import Pringles.Switch.Numbering

/-!
# The ring

Any number of switches and one control packet, which visits the switches in any order. Packets
arrive at any switch, packets come back from the loopback port of the switch that put them there,
and a tail request that a switch forwards travels to the switch behind the egress port.

An arriving packet is identified by the number of packets that arrived before it. The history of the
ring is the list `issued`: every control visit that closes a batch appends the batch to it, so the
packet at position `m - 1` is the one whose number is `m`. The list, together with the open batches
of the switches, is a `BatchOrder`.
-/

namespace Pringles.P4

/-- The switches' program, their tables, and the switch behind each port. -/
structure Net (ι : Type) where
  program : Program
  tables : ι → Tables
  link : ι → BitVec 9 → Option ι

/-- Two switches that are connected to nothing. -/
def twoSwitches (p : Program) : Net Bool := ⟨p, fun _ => {}, fun _ _ => none⟩

structure Ring (ι : Type) where
  sw : ι → Switch
  token : Headers
  wire : List (ι × Flight) := []
  arrived : Nat := 0
  issued : List (ι × Flight) := []

namespace Ring

inductive Event (ι : Type) where
  | arrive (i : ι) (tstamp : BitVec 48) (hdr : Headers)
  | recirc (i : ι) (tstamp : BitVec 48) (k : Nat)
  | control (i : ι) (tstamp : BitVec 48)
  | hop (tstamp : BitVec 48) (k : Nat)

/-- A pass, and the switch that made it. -/
structure Served (ι : Type) where
  switch : ι
  event : Switch.Event
  pass : Pass

variable {ι : Type}

/-- What arrives satisfies `P`. -/
def Event.Arrives (P : Headers → Prop) : Event ι → Prop
  | arrive _ _ hdr => P hdr
  | _ => True

theorem Event.Arrives.imp {P Q : Headers → Prop} {e : Event ι} (hPQ : ∀ hdr, P hdr → Q hdr)
    (h : e.Arrives P) : e.Arrives Q := by
  cases e with
  | arrive _ _ hdr => exact hPQ hdr h
  | recirc | control | hop => trivial

/-- The initial state: the registers are zero and the control packet carries zero. -/
def start (hdr : Headers) : Ring ι where
  sw _ := {}
  token := { hdr with cntrl := { hdr.cntrl with isValid := true, globalSeqNo := 0 } }

/-- The switch that an event concerns and what it sees, with the ring as it is until then. -/
def dispatch (R : Ring ι) : Event ι → Option (ι × Switch.Event × Ring ι)
  | .arrive i tstamp hdr =>
    some (i, .arrive tstamp ⟨R.arrived, hdr⟩, { R with arrived := R.arrived + 1 })
  | .recirc i tstamp k => some (i, .recirc tstamp k, R)
  | .control i tstamp => some (i, .arrive tstamp ⟨R.arrived, R.token⟩, R)
  | .hop tstamp k =>
    (R.wire[k]?).map fun x => (x.1, .arrive tstamp x.2, { R with wire := R.wire.eraseIdx k })

/-- Where a tail request goes that is not returned to its client. -/
def forwarded (N : Net ι) (i : ι) (o : Pass) : Option (ι × Flight) :=
  if o.flight.hdr.IsTail ∧ o.out.metadata.routeToClient = false then
    o.out.tm.ucastEgressPort.bind fun port =>
      (N.link i port).map fun j => (j, ⟨o.flight.id, o.out.hdr⟩)
  else none

variable {N : Net ι} {R R' R₀ : Ring ι} {e : Event ι} {o : Served ι} {i j : ι} {f : Flight}
  {s₀ : Switch} {out : Pipe} {ev : Switch.Event} {found : Registers}

/-- Handing out a packet changes no switch, no number and not the control packet. -/
structure Dispatched (R R₀ : Ring ι) : Prop where
  sw : R₀.sw = R.sw
  token : R₀.token = R.token
  issued : R₀.issued = R.issued
  arrived : R.arrived ≤ R₀.arrived
  wire : R₀.wire.Sublist R.wire

theorem dispatched (h : R.dispatch e = some (i, ev, R₀)) : Dispatched R R₀ := by
  cases e with
  | arrive j ts hdr =>
    simp only [dispatch, Option.some.injEq, Prod.mk.injEq] at h
    obtain ⟨-, -, rfl⟩ := h
    exact ⟨rfl, rfl, rfl, Nat.le_succ _, .refl _⟩
  | recirc j ts k =>
    simp only [dispatch, Option.some.injEq, Prod.mk.injEq] at h
    obtain ⟨-, -, rfl⟩ := h
    exact ⟨rfl, rfl, rfl, Nat.le_refl _, .refl _⟩
  | control j ts =>
    simp only [dispatch, Option.some.injEq, Prod.mk.injEq] at h
    obtain ⟨-, -, rfl⟩ := h
    exact ⟨rfl, rfl, rfl, Nat.le_refl _, .refl _⟩
  | hop ts k =>
    simp only [dispatch, Option.map_eq_some_iff, Prod.mk.injEq] at h
    obtain ⟨_, -, -, -, rfl⟩ := h
    exact ⟨rfl, rfl, rfl, Nat.le_refl _, List.eraseIdx_sublist ..⟩

theorem dispatch_arrive {tstamp : BitVec 48} {hdr : Headers}
    (hd : R.dispatch (.arrive j tstamp hdr) = some (i, ev, R₀))
    (hp : (R₀.sw i).present ev = some (f, s₀)) :
    i = j ∧ R₀ = { R with arrived := R.arrived + 1 } ∧ f = ⟨R.arrived, hdr⟩ ∧ s₀ = R.sw j := by
  simp only [dispatch, Option.some.injEq, Prod.mk.injEq] at hd
  obtain ⟨rfl, rfl, rfl⟩ := hd
  simp only [Switch.present, Option.some.injEq, Prod.mk.injEq] at hp
  obtain ⟨rfl, rfl⟩ := hp
  exact ⟨rfl, rfl, rfl, rfl⟩

/-- What travels is a tail request that its switch did not return. -/
theorem forwarded_eq_some {o : Pass} {x : ι × Flight} (h : forwarded N i o = some x) :
    o.flight.hdr.IsTail ∧ o.out.metadata.routeToClient = false ∧
      x.2 = ⟨o.flight.id, o.out.hdr⟩ ∧
      ∃ port, o.out.tm.ucastEgressPort = some port ∧ N.link i port = some x.1 := by
  unfold forwarded at h
  split at h
  · rename_i hc
    simp only [Option.bind_eq_some_iff, Option.map_eq_some_iff] at h
    obtain ⟨port, hport, j, hj, rfl⟩ := h
    exact ⟨hc.1, hc.2, rfl, port, hport, hj⟩
  · cases h

/-! ## The order of the numbers -/

/-- The numbers issued and the open batches, by the identities of the packets. -/
def order (R : Ring ι) : BatchOrder ι Nat where
  issued := R.issued.map fun x => (x.1, x.2.id)
  pending i := (R.sw i).pending.map Flight.id

theorem order_dispatched (h : Dispatched R R₀) : R₀.order = R.order := by
  simp [order, h.sw, h.issued]

@[simp] theorem order_issued_length : R.order.issued.length = R.issued.length := by simp [order]

theorem order_issued_getElem {m : Nat} (h : R.issued[m]? = some (i, f)) :
    R.order.issued[m]? = some (i, f.id) := by
  simp [order, h]

theorem drawn_of_issued {m : Nat} (h : R.issued[m]? = some (i, f)) : R.order.Drawn i f.id :=
  .inl (List.mem_of_getElem? (order_issued_getElem h))

theorem closes_iff (hp : Switch.Presented (R.sw i) f s₀) :
    s₀.Closes f.hdr ↔ (R.sw i).Closes f.hdr := by
  unfold Switch.Closes
  rw [hp.regs]

/-! ## Steps -/

section
variable [DecidableEq ι]

/-- The ring behind a pass at switch `i` that left the switch in state `s`. -/
def settle (N : Net ι) (R : Ring ι) (i : ι) (s : Switch) (o : Pass) : Ring ι where
  sw := Function.update R.sw i s
  token := if o.flight.hdr.IsControl then o.out.hdr else R.token
  wire := R.wire ++ (forwarded N i o).toList
  arrived := R.arrived
  issued := if (R.sw i).Closes o.flight.hdr then R.issued ++ (R.sw i).pending.map (i, ·)
    else R.issued

def step (N : Net ι) (R : Ring ι) (e : Event ι) : Option (Ring ι × Served ι) :=
  (R.dispatch e).bind fun d =>
    (Switch.step N.program (N.tables d.1) (d.2.2.sw d.1) d.2.1).map fun q =>
      (d.2.2.settle N d.1 q.1 q.2, ⟨d.1, d.2.1, q.2⟩)

def machine (N : Net ι) : Machine (Ring ι) (Event ι) (Served ι) := ⟨step N⟩

/-- A step hands a packet to a switch and settles its pass. -/
theorem step_eq_some (h : (machine N).step R e = some (R', o)) :
    ∃ i ev R₀ f s₀ out, R.dispatch e = some (i, ev, R₀) ∧ (R₀.sw i).present ev = some (f, s₀) ∧
      MyIngress.apply N.program (N.tables i) ev.tstamp (R₀.sw i).regs f.hdr = some out ∧
      R' = R₀.settle N i (s₀.after f out) ⟨f, (R₀.sw i).regs, out⟩ ∧
      o = ⟨i, ev, ⟨f, (R₀.sw i).regs, out⟩⟩ := by
  simp only [machine, step, Option.bind_eq_some_iff, Option.map_eq_some_iff, Prod.mk.injEq] at h
  obtain ⟨⟨i, ev, R₀⟩, hd, ⟨s', pass⟩, hs, rfl, rfl⟩ := h
  obtain ⟨f, s₀, out, hp, hout, rfl, rfl⟩ := Switch.step_eq_some hs
  exact ⟨i, ev, R₀, f, s₀, out, hd, hp, hout, rfl, rfl⟩

/-- A step of the ring is a step of one switch, and the other switches stay as they are. -/
theorem step_switch (h : (machine N).step R e = some (R', o)) :
    (Switch.machine N.program (N.tables o.switch)).step (R.sw o.switch) o.event =
      some (R'.sw o.switch, o.pass) ∧ ∀ j, j ≠ o.switch → R'.sw j = R.sw j := by
  simp only [machine, step, Option.bind_eq_some_iff, Option.map_eq_some_iff, Prod.mk.injEq] at h
  obtain ⟨⟨i, ev, R₀⟩, hd, ⟨s', pass⟩, hs, rfl, rfl⟩ := h
  rw [(dispatched hd).sw] at hs
  constructor
  · simpa [settle, Switch.machine] using hs
  · intro j hj
    simp [settle, hj, (dispatched hd).sw]

/-! ### The history behind a step -/

@[simp] theorem settle_self {s : Switch} {o : Pass} : (R.settle N i s o).sw i = s := by
  simp [settle]

theorem settle_ne {s : Switch} {o : Pass} (h : j ≠ i) : (R.settle N i s o).sw j = R.sw j := by
  simp [settle, h]

/-- What holds of the switch behind a pass and held of the others holds of all. -/
theorem forall_settle {P : ι → Switch → Prop} {s : Switch} {o : Pass} (hself : P i s)
    (hother : ∀ k, k ≠ i → P k (R.sw k)) (k : ι) : P k ((R.settle N i s o).sw k) := by
  by_cases hk : k = i
  · subst hk
    rw [settle_self]
    exact hself
  · rw [settle_ne hk]
    exact hother k hk

theorem issued_closes (h : (R.sw i).Closes f.hdr) :
    (R.settle N i (s₀.after f out) ⟨f, found, out⟩).issued =
      R.issued ++ (R.sw i).pending.map (i, ·) := by
  simp [settle, h]

theorem issued_quiet (h : ¬ (R.sw i).Closes f.hdr) :
    (R.settle N i (s₀.after f out) ⟨f, found, out⟩).issued = R.issued := by
  simp [settle, h]

/-- Numbers are only added. -/
theorem issued_prefix {s : Switch} {o : Pass} : R.issued <+: (R.settle N i s o).issued := by
  by_cases h : (R.sw i).Closes o.flight.hdr
  · simp [settle, h]
  · simp [settle, h]

theorem order_closes (hp : Switch.Presented (R.sw i) f s₀) (h : (R.sw i).Closes f.hdr) :
    (R.settle N i (s₀.after f out) ⟨f, found, out⟩).order = R.order.close i := by
  ext1
  · simp [order, issued_closes h, Function.comp_def]
  · funext j
    by_cases hj : j = i
    · subst hj
      rw [BatchOrder.pending_close_self]
      simp [order, Switch.pending_closes ((closes_iff hp).2 h)]
    · rw [BatchOrder.pending_close_ne hj]
      simp [order, settle_ne hj]

theorem order_draws (hp : Switch.Presented (R.sw i) f s₀) (h : f.hdr.Draws) :
    (R.settle N i (s₀.after f out) ⟨f, found, out⟩).order = R.order.draw i f.id := by
  ext1
  · simp [order, issued_quiet (Switch.not_closes h.1)]
  · funext j
    by_cases hj : j = i
    · subst hj
      rw [BatchOrder.pending_draw_self]
      simp [order, Switch.pending_draws h, hp.pending]
    · rw [BatchOrder.pending_draw_ne hj]
      simp [order, settle_ne hj]

theorem order_quiet (hp : Switch.Presented (R.sw i) f s₀) (hc : ¬ (R.sw i).Closes f.hdr)
    (hd : ¬ f.hdr.Draws) :
    (R.settle N i (s₀.after f out) ⟨f, found, out⟩).order = R.order := by
  ext1
  · simp [order, issued_quiet hc]
  · funext j
    by_cases hj : j = i
    · subst hj
      simp [order, Switch.pending_quiet (mt (closes_iff hp).1 hc) hd, hp.pending]
    · simp [order, settle_ne hj]

end

end Ring

end Pringles.P4
