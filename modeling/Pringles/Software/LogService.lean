import Pringles.Software.LogProgress

/-!
# The log service

What the clients may rely on, whatever the network does, as long as fewer than `2 ^ 32` requests are
numbered: `g_idx` has 32 bits. The service does what a replicated log does (`refines_log`), so what
holds of every replicated log holds of it: a number that `append` has returned stays with the entry
of that call on as many servers as `ack_threshold` says, and a call gets a larger number than the
calls that had returned when it began.
-/

namespace Pringles.Software.LogSystem

open ReplicatedLog (Numbered Quorum)

variable {C S τ : Type} [DecidableEq C] [DecidableEq S] [DecidableEq τ] {cfg : Config C S τ}
  {σ σ' : LogSystem C S τ} {c c' : C} {s s' : S} {k k' : Nat} {e entry entry' : List Byte}
  {idx idx' n : BitVec 64} {stor : Address} {ev ev' : Event C S τ} {done : Done C S}
  {tr tr₁ tr₂ : List (Event C S τ × Done C S)}

theorem Inv.step (h : Inv cfg σ) (hvalid : Valid cfg ev) (hlt : σ'.log.length < 2 ^ 32)
    (hs : LogSystem.step cfg σ ev = some (σ', done)) : Stepped cfg σ σ' done := by
  cases ev with
  | append c entry => exact h.append hvalid hs
  | request i stor => exact h.request hlt hs
  | recv s t ds => exact h.recv hs
  | handle s t => exact h.handle hlt hs
  | send s t => exact h.send hlt hs
  | respond as => exact h.respond hlt hs
  | receive c data => exact h.receive hlt hs

/-! ## Calls and returns -/

/-- The log only grows. -/
theorem log_extends (hs : LogSystem.step cfg σ ev = some (σ', done)) : σ.log <+: σ'.log := by
  cases ev with
  | append c entry =>
    obtain ⟨-, -, -, -, -, -, -, rfl⟩ := append_eq_some hs
    exact List.prefix_rfl
  | request i stor =>
    obtain ⟨r, -, -, -, -, -, rfl⟩ := request_eq_some hs
    exact List.prefix_append σ.log [(r.client, r.call)]
  | recv s t ds =>
    obtain ⟨-, -, -, -, rfl⟩ := recv_eq_some hs
    exact List.prefix_rfl
  | handle s t =>
    obtain ⟨-, -, -, -, -, rfl⟩ := handle_eq_some hs
    exact List.prefix_rfl
  | send s t =>
    obtain ⟨-, -, -, -, rfl⟩ := send_eq_some hs
    exact List.prefix_rfl
  | respond as =>
    obtain ⟨-, -, -, -, -, rfl⟩ := respond_eq_some hs
    exact List.prefix_rfl
  | receive c data =>
    obtain ⟨-, -, -, -, -, rfl⟩ := receive_eq_some hs
    exact List.prefix_rfl

/-- The call that has returned, with its number. -/
def Done.returned? : Done C S → Option ((C × Nat) × BitVec 64)
  | .returned c k idx => some ((c, k), idx)
  | _ => none

/-- What has returned in a run. -/
def returns (tr : List (Event C S τ × Done C S)) : List ((C × Nat) × BitVec 64) :=
  tr.filterMap fun x => x.2.returned?

/-- Calls that are over stay over, and what returns is the call after these. -/
theorem Inv.completed_step (h : Inv cfg σ) (hs : LogSystem.step cfg σ ev = some (σ', done)) :
    (∀ c, (σ.clients c).completed ≤ (σ'.clients c).completed) ∧
      ∀ c k idx, done = .returned c k idx →
        k = (σ.clients c).completed ∧ k < (σ'.clients c).completed := by
  cases ev with
  | append c entry =>
    obtain ⟨q, sent, data, hq, -, -, rfl, rfl⟩ := append_eq_some hs
    obtain ⟨-, hidle, hq⟩ := call_eq_some hq
    refine ⟨fun c' => ?_, by rintro _ _ _ ⟨⟩⟩
    change _ ≤ (Function.update σ.clients c q.1 c').completed
    by_cases hc : c' = c
    · subst hc
      rw [Function.update_self, hq]
      simp [LogClient.Appending.completed, hidle]
    · rw [Function.update_of_ne hc]
  | request i stor =>
    obtain ⟨r, -, -, -, -, rfl, rfl⟩ := request_eq_some hs
    exact ⟨fun _ => Nat.le_refl _, by rintro _ _ _ ⟨⟩⟩
  | recv s t ds =>
    obtain ⟨-, -, -, rfl, rfl⟩ := recv_eq_some hs
    exact ⟨fun _ => Nat.le_refl _, by rintro _ _ _ ⟨⟩⟩
  | handle s t =>
    obtain ⟨-, -, -, -, rfl, rfl⟩ := handle_eq_some hs
    exact ⟨fun _ => Nat.le_refl _, by rintro _ _ _ ⟨⟩⟩
  | send s t =>
    obtain ⟨-, -, -, rfl, rfl⟩ := send_eq_some hs
    exact ⟨fun _ => Nat.le_refl _, by rintro _ _ _ ⟨⟩⟩
  | respond as =>
    obtain ⟨-, -, -, -, rfl, rfl⟩ := respond_eq_some hs
    exact ⟨fun _ => Nat.le_refl _, by rintro _ _ _ ⟨⟩⟩
  | receive c data =>
    obtain ⟨client, o, -, hq, rfl, rfl⟩ := receive_eq_some hs
    have hcalls := (h.clients c).calls
    have hturned := (h.clients c).inv.recv_turned hq
    constructor
    · intro c'
      change _ ≤ (Function.update σ.clients c client c').completed
      by_cases hc : c' = c
      · subst hc
        rw [Function.update_self, hturned.completed]
        exact Nat.le_add_right _ _
      · rw [Function.update_of_ne hc]
    · intro c' k' idx hdone
      cases o with
      | none => cases hdone
      | some idx =>
        cases hdone
        change _ ∧ _ < (Function.update σ.clients c client c).completed
        have hbusy := hturned.busy idx rfl
        rw [Function.update_self, hturned.completed, hcalls, ← hbusy]
        exact ⟨rfl, Nat.lt_succ_self _⟩

/-- Only a call adds an entry. -/
theorem entry_step (hs : LogSystem.step cfg σ ev = some (σ', done))
    (he : (σ'.entries c)[k]? = some e) :
    (σ.entries c)[k]? = some e ∨ (ev, done) = (.append c e, .called c k) := by
  cases ev with
  | append c' entry =>
    obtain ⟨q, sent, data, -, -, -, rfl, rfl⟩ := append_eq_some hs
    change (Function.update σ.entries c' _ c)[k]? = _ at he
    by_cases hc : c = c'
    · subst hc
      rw [Function.update_self] at he
      rcases Nat.lt_or_ge k (σ.entries c).length with hk | hk
      · rw [List.getElem?_append_left hk] at he
        exact .inl he
      · obtain ⟨rfl, rfl⟩ : k = (σ.entries c).length ∧ entry = e := by
          rw [List.getElem?_append_right hk, List.getElem?_singleton] at he
          split at he
          · exact ⟨by omega, Option.some.inj he⟩
          · cases he
        exact .inr rfl
    · rw [Function.update_of_ne hc] at he
      exact .inl he
  | request i stor =>
    obtain ⟨_, _, _, _, _, _, rfl⟩ := request_eq_some hs
    exact .inl he
  | recv s t ds =>
    obtain ⟨_, _, _, _, rfl⟩ := recv_eq_some hs
    exact .inl he
  | handle s t =>
    obtain ⟨_, _, _, _, _, rfl⟩ := handle_eq_some hs
    exact .inl he
  | send s t =>
    obtain ⟨_, _, _, _, rfl⟩ := send_eq_some hs
    exact .inl he
  | respond as =>
    obtain ⟨_, _, _, _, _, rfl⟩ := respond_eq_some hs
    exact .inl he
  | receive c data =>
    obtain ⟨_, _, _, _, _, rfl⟩ := receive_eq_some hs
    exact .inl he

/-! ## Runs -/

/-- What a run has done to the log. -/
def logTrace (tr : List (Event C S τ × Done C S)) :
    List (ReplicatedLog.Event (C × Nat) S × Unit) :=
  tr.filterMap fun x => x.2.event.map fun e => (e, ())

structure Kept (cfg : Config C S τ) (tr : List (Event C S τ × Done C S)) (σ : LogSystem C S τ) :
    Prop where
  inv : Inv cfg σ
  refines : (ReplicatedLog.machine cfg.ackThreshold.toNat).Run {} (logTrace tr) σ.toLog
  called : ∀ c k e, (σ.entries c)[k]? = some e → (.append c e, .called c k) ∈ tr
  ended : ∀ x ∈ returns tr, x.1.2 < (σ.clients x.1.1).completed
  once : ((returns tr).map Prod.fst).Nodup

theorem Kept.step (h : Kept cfg tr σ) (hvalid : Valid cfg ev) (hlt : σ'.log.length < 2 ^ 32)
    (hs : LogSystem.step cfg σ ev = some (σ', done)) : Kept cfg (tr ++ [(ev, done)]) σ' := by
  obtain ⟨hinv, hrefines⟩ := h.inv.step hvalid hlt hs
  obtain ⟨hle, hnext⟩ := h.inv.completed_step hs
  constructor
  · exact hinv
  · unfold Refines at hrefines
    rw [logTrace, List.filterMap_append]
    cases hdone : done.event with
    | none =>
      rw [hdone] at hrefines
      simpa [hdone, hrefines, logTrace] using h.refines
    | some e =>
      rw [hdone] at hrefines
      have hrun := h.refines.snoc (o := ()) (ReplicatedLog.machine_eq_some.2 hrefines)
      simpa [hdone, logTrace] using hrun
  · intro c k e he
    rcases entry_step hs he with hold | hnew
    · exact List.mem_append_left _ (h.called c k e hold)
    · exact List.mem_append_right _ (List.mem_singleton.2 hnew.symm)
  · intro x hx
    rw [returns, List.filterMap_append] at hx
    rcases List.mem_append.1 hx with hx | hx
    · exact Nat.lt_of_lt_of_le (h.ended x hx) (hle _)
    · cases done with
      | returned c k idx =>
        cases List.mem_singleton.1 hx
        exact (hnext c k idx rfl).2
      | _ => cases hx
  · rw [returns, List.filterMap_append, List.map_append]
    refine List.Nodup.append h.once ?_ ?_
    · cases done with
      | returned c k idx => exact List.nodup_singleton _
      | _ => exact List.nodup_nil
    · cases done with
      | returned c k idx =>
        intro y hy hy'
        cases List.mem_singleton.1 hy'
        obtain ⟨x, hx, hxy⟩ := List.mem_map.1 hy
        have hended := h.ended x hx
        rw [hxy, (hnext c k idx rfl).1] at hended
        exact Nat.lt_irrefl _ hended
      | _ => exact List.disjoint_nil_right _

theorem kept_run (h : (machine cfg).Run (start cfg) tr σ) (hvalid : ∀ x ∈ tr, Valid cfg x.1)
    (hlt : σ.log.length < 2 ^ 32) : Kept cfg tr σ := by
  have hlog : (start cfg).toLog = {} := by
    simp [toLog, start, Holds, LogStorage.start]
  refine h.invariant (I := Kept cfg) (B := fun σ => σ.log.length < 2 ^ 32) (A := Valid cfg)
    ?_ ?_ hvalid ?_ hlt
  · exact fun _ _ _ _ _ hs hb => Nat.lt_of_le_of_lt (log_extends hs).length_le hb
  · exact fun _ _ _ _ _ he hk hb hs => hk.step he hb hs
  · constructor
    · exact inv_start cfg
    · rw [hlog]
      exact .nil _
    · rintro _ _ _ ⟨⟩
    · rintro _ ⟨⟩
    · exact List.nodup_nil

/-! ## What the clients may rely on -/

/-- **The service is a replicated log**: what the steps of a run say that they have done is a run of
the log from the empty one. -/
theorem refines_log (h : (machine cfg).Run (start cfg) tr σ) (hvalid : ∀ x ∈ tr, Valid cfg x.1)
    (hlt : σ.log.length < 2 ^ 32) :
    (ReplicatedLog.machine cfg.ackThreshold.toNat).Run {} (logTrace tr) σ.toLog :=
  (kept_run h hvalid hlt).refines

omit [DecidableEq C] [DecidableEq S] [DecidableEq τ] in
theorem valid_call (hsends : (cfg.client c).Sends entry) (hvalid : ∀ x ∈ tr, Valid cfg x.1)
    (data : List Byte) (done done' : Done C S) :
    ∀ x ∈ (.append c entry, done) :: (tr ++ [(.receive c data, done')]), Valid cfg x.1 :=
  List.forall_mem_cons.2 ⟨hsends,
    List.forall_mem_append.2 ⟨hvalid, List.forall_mem_singleton.2 trivial⟩⟩

/-! ## One client and one server -/

def soloConfig : Config Unit Unit Unit where
  client _ := LogClient.sampleClient 1
  clientBuf _ := []
  ackThreshold := 1
  requestBuf := []
  responseSlots := LogStorage.zeroSlots ()
  appendSocket := ⟨1, 1⟩
  servers _ := [()]
  serverSlots _ := LogStorage.zeroSlots
  sendSocket _ _ := ⟨2, 2⟩
  fits _ := by decide
  ready := LogStorage.slotsReady_zeroSlots ()
  serverReady _ := LogStorage.slotsReady_zeroSlots
  nodup _ := List.nodup_singleton ()
  addr_injective _ _ _ := rfl
  addr_ne _ _ _ := by decide

theorem sends_solo (c : Unit) : (soloConfig.client c).Sends [65] := ⟨rfl, by decide⟩

/-- Two appends, one after the other. -/
theorem solo_run : ∃ tr₁ tr₂ σ k idx ev ev',
    (machine soloConfig).Run (start soloConfig)
      (tr₁ ++ (.append () [65], .called () k) :: tr₂) σ ∧
    (∀ x ∈ tr₁ ++ (.append () [65], .called () k) :: tr₂, Valid soloConfig x.1) ∧
    σ.log.length = 2 ∧ (ev, .returned () 0 1) ∈ tr₁ ∧ (ev', .returned () k idx) ∈ tr₂ := by
  have hinv := inv_start soloConfig
  obtain ⟨tr, σ₁, data, hr₁, hvalid₁, hlog₁, hidle⟩ := hinv.exists_returned ⟨1, 1⟩
    (show 1 < 2 ^ 32 by decide) rfl (sends_solo ()) (Nat.le_refl 1)
  have hall₁ := valid_call (sends_solo ()) hvalid₁ data (.called () 0) (.returned () 0 1)
  have hlog₁ : σ₁.log.length = 1 := hlog₁
  have hkept := kept_run hr₁ hall₁ (by rw [hlog₁]; decide)
  obtain ⟨tr', σ₂, data', hr₂, hvalid₂, hlog₂, -⟩ := hkept.inv.exists_returned ⟨1, 1⟩
    (by rw [hlog₁]; decide) hidle (sends_solo ()) (Nat.le_refl 1)
  have hall₂ := valid_call (sends_solo ()) hvalid₂ data'
    (.called () (σ₁.entries ()).length)
    (.returned () (σ₁.entries ()).length (BitVec.ofNat 64 (σ₁.log.length + 1)))
  refine ⟨_, _, σ₂, _, BitVec.ofNat 64 (σ₁.log.length + 1), .receive () data, .receive () data',
    hr₁.append hr₂, List.forall_mem_append.2 ⟨hall₁, hall₂⟩, hlog₂.trans (by rw [hlog₁]), ?_, ?_⟩
  · exact List.mem_cons_of_mem _ (List.mem_append_right _ (List.mem_singleton_self _))
  · exact List.mem_append_right _ (List.mem_singleton_self _)

theorem refines_log_solo : ∃ tr σ, (machine soloConfig).Run (start soloConfig) tr σ ∧
    σ.log.length = 2 ∧
    (ReplicatedLog.machine soloConfig.ackThreshold.toNat).Run {} (logTrace tr) σ.toLog := by
  obtain ⟨tr₁, tr₂, σ, k, idx, ev, ev', h, hvalid, hlog, -, -⟩ := solo_run
  exact ⟨_, σ, h, hlog, refines_log h hvalid (by rw [hlog]; decide)⟩

end Pringles.Software.LogSystem
