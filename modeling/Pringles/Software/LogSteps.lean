import Pringles.Software.LogInvariant

/-!
# The steps of the log service

Every step keeps the invariant and does to the log, as `ReplicatedLog` has it, what it says that it
has done (`Stepped`): one theorem for each kind of step.
-/

namespace Pringles.Software.LogSystem

open ReplicatedLog (Numbered Quorum)

variable {C S τ : Type}

/-! ## The log that the service stands for -/

def toLog (σ : LogSystem C S τ) : ReplicatedLog (C × Nat) S where
  called := {r | r.2 < (σ.entries r.1).length}
  entries := σ.log
  holders n := {s | n < 2 ^ 64 ∧ Holds σ (BitVec.ofNat 64 n) s}

def Done.event : Done C S → Option (ReplicatedLog.Event (C × Nat) S)
  | .internal => none
  | .called c k => some (.call (c, k))
  | .numbered c k => some (.assign (c, k))
  | .stored s n => some (.copy s n.toNat)
  | .returned c k idx => some (.answer (c, k) idx.toNat)

/-- What a step of the service is for the log: the step that it names, or none. -/
def Refines (cfg : Config C S τ) (σ σ' : LogSystem C S τ) (done : Done C S) : Prop :=
  match done.event with
  | some e => ReplicatedLog.step cfg.ackThreshold.toNat σ.toLog e = some σ'.toLog
  | none => σ'.toLog = σ.toLog

structure Stepped (cfg : Config C S τ) (σ σ' : LogSystem C S τ) (done : Done C S) : Prop where
  inv : Inv cfg σ'
  refines : Refines cfg σ σ' done

variable {cfg : Config C S τ} {σ σ' : LogSystem C S τ} {c : C} {s : S} {t : τ} {i n : Nat}
  {k : Nat} {stor : Address} {e entry data : List Byte} {ds : List (List Byte)}
  {as : List (S × Datagram)} {done : Done C S}

theorem toLog_congr (hentries : σ'.entries = σ.entries) (hlog : σ'.log = σ.log)
    (hstor : ∀ s, (σ'.servers s).stor = (σ.servers s).stor) : σ'.toLog = σ.toLog := by
  simp only [toLog, Holds, hentries, hlog, hstor]

theorem custody_congr (hcopies : σ'.copies = σ.copies) (hservers : σ'.servers = σ.servers)
    (hacks : σ'.acks = σ.acks) : σ'.custody = σ.custody := by
  funext p
  cases p with
  | copies => simp only [custody, hcopies]
  | batch s t => simp only [custody, hservers]
  | acks => simp only [custody, hacks]

/-! ## A call -/

theorem call_eq_some {s : LogClient.Appending}
    {q : LogClient.Appending × Option (BitVec 64)} (h : s.step (.call .append) = some q) :
    s.call .append = some q.1 ∧ s.waiting = none ∧ q.1 = { s with
      client := s.client
      waiting := some .append
      requests := s.requests ++ [s.client.headers] } := by
  obtain ⟨s', hcall, rfl⟩ := Option.map_eq_some_iff.1 h
  exact ⟨hcall, LogClient.Appending.call_eq_some hcall⟩

section
variable [DecidableEq C] [DecidableEq S] [DecidableEq τ]

omit [DecidableEq S] [DecidableEq τ] in
theorem Inv.append (h : Inv cfg σ) (hsends : (cfg.client c).Sends entry)
    (hs : σ.append c entry = some (σ', done)) : Stepped cfg σ σ' done := by
  obtain ⟨q, sent, data, hq, hsent, hdata, rfl, hσ'⟩ := append_eq_some hs
  obtain ⟨hcall, hidle, hq⟩ := call_eq_some hq
  have hclient := h.clients c
  have hcompleted : (σ.clients c).completed = (σ.entries c).length := by
    rw [hclient.calls, LogClient.Appending.completed, hidle]
    rfl
  rw [hclient.client, LogClient.append_request hsends (cfg.fits c), Option.some.injEq] at hsent
  subst hsent
  obtain rfl : (cfg.client c).request (σ.clients c).completed entry = data := by
    rw [Sent.whole, if_pos (LogClient.length_request hsends _), Option.some.injEq] at hdata
    exact hdata
  have hself : σ'.clients c = q.1 ∧ σ'.entries c = σ.entries c ++ [entry] := by
    rw [hσ']
    exact ⟨Function.update_self .., Function.update_self ..⟩
  have hother : ∀ c', c' ≠ c → σ'.clients c' = σ.clients c' ∧ σ'.entries c' = σ.entries c' := by
    intro c' hc
    rw [hσ']
    exact ⟨Function.update_of_ne hc .., Function.update_of_ne hc ..⟩
  have hentries : ∀ c', σ.entries c' <+: σ'.entries c' := by
    intro c'
    by_cases hc : c' = c
    · subst hc
      rw [hself.2]
      exact List.prefix_append _ _
    · rw [(hother c' hc).2]
  have hservers : σ'.servers = σ.servers := by rw [hσ']
  have hlog : σ'.log = σ.log := by rw [hσ']
  have hg : Grows σ σ' := by
    refine ⟨by rw [hlog], hentries, ?_⟩
    rw [hservers]
    exact fun _ _ _ he => he
  have hinv : ClientInv cfg σ' c := by
    obtain ⟨hinv, hsame⟩ := hclient.inv.call hcall
    have hcompleted' : (σ'.clients c).completed = (σ.clients c).completed := by
      rw [hself.1, hsame]
    constructor
    · rw [hself.1]
      exact hinv
    · rw [hcompleted', hself.1, hq]
      exact hclient.client
    · rw [hself.1, hself.2, hq, List.length_append, List.length_append, hclient.calls]
      rfl
    · rw [hself.2]
      exact List.forall_mem_append.2 ⟨hclient.sends, List.forall_mem_singleton.2 hsends⟩
    · intro k hk
      rw [hcompleted'] at hk
      rw [hlog]
      exact hclient.done k hk
  constructor
  · constructor
    · intro c'
      by_cases hc : c' = c
      · subst hc
        exact hinv
      · exact (h.clients c').mono hg (hother c' hc).1 (hother c' hc).2
    · exact fun s => (h.servers s).mono hg (by rw [hservers])
    · rw [hlog, hσ']
      exact h.maxIdx
    · rw [hlog]
      exact fun x hx => Nat.lt_of_lt_of_le (h.log x hx) (hentries x.1).length_le
    · refine h.messages.mono hg ?_ (by rw [hσ']; exact fun _ => .inl)
        (by rw [hσ']; exact fun _ => .inl) (by rw [hσ']; exact fun _ => .inl)
      have hrequests : σ'.requests = σ.requests ++ [⟨c, (σ.entries c).length,
          (cfg.client c).request (σ.clients c).completed entry⟩] := by rw [hσ']
      rw [hrequests]
      refine List.forall_mem_append.2 ⟨fun _ => .inl, List.forall_mem_singleton.2 (.inr ?_)⟩
      refine ⟨entry, ?_, hsends, by rw [hcompleted]⟩
      rw [hself.2]
      exact List.getElem?_concat_length
    · rw [hσ']
      exact ⟨h.counting.ready, h.counting.count⟩
    · have hcounted : σ'.counted = σ.counted := by rw [hσ']
      rw [hcounted]
      exact fun x hx => (h.held x hx).mono hg
    · have hcustody : σ'.custody = σ.custody :=
        custody_congr (by rw [hσ']) hservers (by rw [hσ'])
      rw [hcustody, hσ']
      exact h.custody
  · have hfresh : (c, (σ.entries c).length) ∉ σ.toLog.called := Nat.lt_irrefl _
    simp only [Refines, Done.event, ReplicatedLog.step, if_pos hfresh, Option.some.injEq]
    have hcalled : insert (c, (σ.entries c).length) σ.toLog.called = σ'.toLog.called := by
      ext ⟨c', k⟩
      simp only [toLog, Set.mem_insert_iff, Prod.mk.injEq, Set.mem_ofPred_eq]
      by_cases hc : c' = c
      · subst hc
        rw [hself.2, List.length_append, List.length_singleton]
        simp only [true_and]
        omega
      · simp only [(hother c' hc).2, hc, false_and, false_or]
    rw [hcalled]
    simp only [toLog, Holds, hlog, hservers]

/-! ## A number -/

omit [DecidableEq C] [DecidableEq S] [DecidableEq τ] in
/-- The copies that the switch sends of a request. -/
theorem copiesOf_request (hsends : (cfg.client c).Sends e) (k n : Nat) (stor : Address)
    (normBuf : List Byte) :
    copiesOf cfg (LogSoftwareSwitch.appendRequest true normBuf
      ⟨(cfg.client c).request k e, BitVec.ofNat 64 n, stor⟩).2 =
        some ((cfg.servers stor).map fun s => (s, numbered ((cfg.client c).request k e) n)) := by
  rw [LogSoftwareSwitch.appendRequest_request hsends (cfg.fits c)]
  have hlen : (numbered ((cfg.client c).request k e) n).length = (cfg.client c).packetSize := by
    rw [length_numbered, LogClient.length_request hsends]
  rw [copiesOf, Sent.whole, if_pos hlen]
  rfl

omit [DecidableEq C] in
theorem Inv.request (h : Inv cfg σ) (hlt : σ'.log.length < 2 ^ 32)
    (hs : σ.request cfg i stor = some (σ', done)) : Stepped cfg σ σ' done := by
  obtain ⟨r, normBuf, copies, hr, hcopies, rfl, hσ'⟩ := request_eq_some hs
  obtain ⟨e, he, hsends, hdata⟩ := h.messages.requests r (List.mem_of_getElem? hr)
  have hmaxIdx : σ.maxIdx + 1 = BitVec.ofNat 64 (σ.log.length + 1) := by
    rw [h.maxIdx]
    exact (BitVec.ofNat_add ..).symm
  rw [hmaxIdx, hdata, copiesOf_request hsends, Option.some.injEq] at hcopies
  have hlog : σ'.log = σ.log ++ [(r.client, r.call)] := by rw [hσ']
  have hservers : σ'.servers = σ.servers := by rw [hσ']
  have hentries : σ'.entries = σ.entries := by rw [hσ']
  have hlen : σ.log.length + 1 < 2 ^ 32 := by
    rw [hlog, List.length_append] at hlt
    exact hlt
  have hg : Grows σ σ' := by
    refine ⟨by rw [hlog]; exact List.prefix_append _ _, ?_, ?_⟩
    · rw [hentries]
      exact fun _ => List.prefix_rfl
    · rw [hservers]
      exact fun _ _ _ he => he
  have hlogged : Logged cfg σ' (σ.log.length + 1) r.client r.call e := by
    refine ⟨⟨σ.log.length, rfl, ?_⟩, by rw [hentries]; exact he, hsends⟩
    rw [hlog]
    exact List.getElem?_concat_length
  have hcall : r.call < (σ.entries r.client).length := (List.getElem?_eq_some_iff.1 he).1
  constructor
  · constructor
    · exact fun c => (h.clients c).mono hg (by rw [hσ']) (by rw [hσ'])
    · exact fun s => (h.servers s).mono hg (by rw [hσ'])
    · rw [hlog, List.length_append, List.length_singleton, ← hmaxIdx, hσ']
    · rw [hlog, hentries]
      exact List.forall_mem_append.2 ⟨h.log, List.forall_mem_singleton.2 hcall⟩
    · refine h.messages.mono hg (by rw [hσ']; exact fun _ => .inl) ?_
        (by rw [hσ']; exact fun _ => .inl) (by rw [hσ']; exact fun _ => .inl)
      have hall : σ'.copies = σ.copies ++ copies := by rw [hσ']
      rw [hall, ← hcopies]
      refine List.forall_mem_append.2 ⟨fun _ => .inl, List.forall_mem_map.2 fun s _ => .inr ?_⟩
      exact ⟨_, _, _, _, hlogged, rfl⟩
    · rw [hσ']
      exact ⟨h.counting.ready, h.counting.count⟩
    · have hcounted : σ'.counted = σ.counted := by rw [hσ']
      rw [hcounted]
      exact fun x hx => (h.held x hx).mono hg
    · -- the new number is nowhere yet
      let as := (cfg.servers stor).map fun s => (s, BitVec.ofNat 64 (σ.log.length + 1))
      have hbig : ∀ x ∈ as, σ.log.length < x.2.toNat := by
        refine List.forall_mem_map.2 fun s _ => ?_
        rw [toNat_ofNat_lt hlen]
        exact Nat.lt_succ_self _
      have henter : Custody (Function.update σ.custody .copies (σ.custody .copies ++ as))
          σ.counted := h.custody.enterAll
        ((cfg.nodup stor).map fun s s' hss => (Prod.mk.inj hss).1)
        (fun x hx p hp => absurd (h.le_of_mem_custody (Nat.lt_of_succ_lt hlen) hp)
          (Nat.not_le.2 (hbig x hx)))
        (fun x hx hc => absurd (h.le_of_mem_counted hc) (Nat.not_le.2 (hbig x hx)))
      have htokens : σ'.custody = Function.update σ.custody .copies (σ.custody .copies ++ as) := by
        funext p
        cases p with
        | copies =>
          rw [Function.update_self]
          have hall : σ'.copies = σ.copies ++ copies := by rw [hσ']
          simp only [LogSystem.custody, hall, List.map_append, ← hcopies, List.map_map, as]
          congr 1
          refine List.map_congr_left fun s _ => Prod.ext rfl ?_
          exact seqNo_copy hlogged hlt ⟨0, 0⟩
        | batch s t =>
          rw [Function.update_of_ne (by simp)]
          simp only [LogSystem.custody, hservers]
        | acks =>
          rw [Function.update_of_ne (by simp), hσ']
          rfl
      rw [htokens, hσ']
      exact henter
  · have hcalled : (r.client, r.call) ∈ σ.toLog.called := hcall
    simp only [Refines, Done.event, ReplicatedLog.step, if_pos hcalled, Option.some.injEq]
    simp only [toLog, Holds, hlog, hentries, hservers]

/-! ## A server -/

omit [DecidableEq C] in
/-- One thread of one server has moved. -/
theorem threads_update {stor : Stor} {thread : LogStorage.Thread}
    (hservers : σ'.servers = Function.update σ.servers s
      (LogStorage.setThread { σ.servers s with stor := stor } t thread)) (s' : S) (t' : τ) :
    (σ'.servers s').threads t' =
      if s' = s ∧ t' = t then thread else (σ.servers s').threads t' := by
  rw [hservers]
  by_cases hs : s' = s
  · subst hs
    rw [Function.update_self]
    by_cases ht : t' = t
    · subst ht
      rw [LogStorage.setThread_self, if_pos ⟨rfl, rfl⟩]
    · rw [LogStorage.setThread_ne _ _ ht, if_neg fun h => ht h.2]
  · rw [Function.update_of_ne hs, if_neg fun h => hs h.1]

omit [DecidableEq C] in
theorem stor_update (stor : Stor) {thread : LogStorage.Thread}
    (hservers : σ'.servers = Function.update σ.servers s
      (LogStorage.setThread { σ.servers s with stor := stor } t thread)) (s' : S) :
    (σ'.servers s').stor = if s' = s then stor else (σ.servers s').stor := by
  rw [hservers]
  by_cases hs : s' = s
  · subst hs
    rw [Function.update_self, if_pos rfl]
    rfl
  · rw [Function.update_of_ne hs, if_neg hs]

omit [DecidableEq C] in
/-- Nothing but the batch of the thread is elsewhere. -/
theorem custody_batch (stor : Stor) {thread : LogStorage.Thread}
    (hservers : σ'.servers = Function.update σ.servers s
      (LogStorage.setThread { σ.servers s with stor := stor } t thread)) (s' : S) (t' : τ) :
    σ'.custody (.batch s' t') =
      Function.update σ.custody (.batch s t) ((pending thread).map fun d => (s, d.seqNo))
        (.batch s' t') := by
  simp only [custody, threads_update hservers]
  by_cases h : s' = s ∧ t' = t
  · obtain ⟨rfl, rfl⟩ := h
    rw [Function.update_self, if_pos ⟨rfl, rfl⟩]
  · rw [Function.update_of_ne (by simpa using h), if_neg h]
    rfl

omit [DecidableEq C] in
theorem Inv.recv (h : Inv cfg σ) (hs : σ.recv cfg s t ds = some (σ', done)) :
    Stepped cfg σ σ' done := by
  obtain ⟨⟨server, o⟩, hsub, hq, rfl, hσ'⟩ := recv_eq_some hs
  let batch := ds.map fun data => (⟨cfg.appendSocket, data⟩ : Datagram)
  obtain ⟨hphase, rfl, rfl⟩ : ((σ.servers s).threads t).phase = .receiving ∧ o = .received ∧
      server = (σ.servers s).setThread t
        ⟨recvManyPackets ((σ.servers s).threads t).slots batch, .handling batch 0⟩ := by
    rcases LogStorage.step_cases hq with ⟨u, ds', he, ho, hphase, -, hserver⟩ |
      ⟨u, ds', i, d, slot, stor, slot', he, -⟩ | ⟨u, ds', he, -⟩
    · cases he
      exact ⟨hphase, ho, hserver⟩
    · cases he
    · cases he
  have hservers : σ'.servers = Function.update σ.servers s ((σ.servers s).setThread t
      ⟨recvManyPackets ((σ.servers s).threads t).slots batch, .handling batch 0⟩) := by rw [hσ']
  have hstor : ∀ s', (σ'.servers s').stor = (σ.servers s').stor := by
    intro s'
    rw [stor_update (σ.servers s).stor hservers]
    split
    · next hss => rw [hss]
    · rfl
  have hlog : σ'.log = σ.log := by rw [hσ']
  have hentries : σ'.entries = σ.entries := by rw [hσ']
  have hcopies : σ'.copies = σ.copies.diff (ds.map fun data => (s, data)) := by rw [hσ']
  have hg : Grows σ σ' := by
    refine ⟨by rw [hlog], by rw [hentries]; exact fun _ => List.prefix_rfl, ?_⟩
    intro s' n e he
    rwa [hstor]
  have hfrom : ∀ d ∈ batch, d.addr = cfg.appendSocket ∧ IsCopy cfg σ d.data := by
    refine List.forall_mem_map.2 fun data hd => ⟨rfl, ?_⟩
    exact h.messages.copies (s, data) (hsub.subset (List.mem_map_of_mem hd))
  constructor
  · constructor
    · exact fun c => (h.clients c).mono hg (by rw [hσ']) (by rw [hσ'])
    · intro s'
      by_cases hss : s' = s
      · subst hss
        refine (h.servers s').step hg hq (by rw [hservers, Function.update_self])
          (fun n e he => .inl he) ?_ (fun _ _ _ heq => nomatch heq)
        intro u ds' heq d hd
        cases heq
        exact hfrom d hd
      · exact (h.servers s').mono hg (by rw [hservers, Function.update_of_ne hss])
    · rw [hlog, hσ']
      exact h.maxIdx
    · rw [hlog, hentries]
      exact h.log
    · refine h.messages.mono hg (by rw [hσ']; exact fun _ => .inl) ?_
        (by rw [hσ']; exact fun _ => .inl) (by rw [hσ']; exact fun _ => .inl)
      rw [hcopies]
      exact fun m hm => .inl ((List.diff_subset _ _) hm)
    · rw [hσ']
      exact ⟨h.counting.ready, h.counting.count⟩
    · have hcounted : σ'.counted = σ.counted := by rw [hσ']
      rw [hcounted]
      exact fun x hx => (h.held x hx).mono hg
    · let f : S × List Byte → S × BitVec 64 := fun m => (m.1, seqNo (AppendEntry.gIdx m.2))
      have hperm : (ds.map (fun data => f (s, data)) ++ σ'.copies.map f).Perm
          (σ.custody .copies) := by
        have hdiff := List.subperm_append_diff_self_of_count_le fun x _ => hsub.count_le x
        rw [← hcopies] at hdiff
        have hmap := hdiff.map f
        rwa [List.map_append, List.map_map] at hmap
      have hmove := h.custody.move (j := .batch s t) (by simp) hperm
      have hempty : σ.custody (.batch s t) = [] := by
        simp only [LogSystem.custody, pending, hphase, List.map_nil]
      have htokens : σ'.custody = Function.update (Function.update σ.custody .copies
          (σ'.copies.map f)) (.batch s t)
            (σ.custody (.batch s t) ++ ds.map fun data => f (s, data)) := by
        funext p
        cases p with
        | copies =>
          rw [Function.update_of_ne (by simp), Function.update_self]
          rfl
        | batch s' t' =>
          rw [custody_batch (σ.servers s).stor hservers, hempty, List.nil_append]
          simp only [pending, batch, List.map_map]
          by_cases hst : Place.batch s' t' = Place.batch s t
          · rw [hst, Function.update_self, Function.update_self]
            rfl
          · rw [Function.update_of_ne hst, Function.update_of_ne hst,
              Function.update_of_ne (by simp)]
        | acks =>
          rw [Function.update_of_ne (by simp), Function.update_of_ne (by simp), hσ']
          rfl
      rw [htokens, hσ']
      rw [hσ'] at hmove
      exact hmove
  · exact toLog_congr hentries hlog hstor

/-- What is stored was stored before, or it is new. -/
theorem store_eq_some_iff {stor : Stor} {n k : BitVec 64} {old : List Byte} :
    (LogStorage.store stor n e).1 k = some old ↔
      stor k = some old ∨ k = n ∧ stor n = none ∧ e = old := by
  unfold LogStorage.store
  by_cases hk : k = n
  · subst hk
    cases hn : stor k with
    | none => simp
    | some x => simp [hn]
  · cases hn : stor n with
    | none => simp [hk]
    | some x => simp [hk]

omit [DecidableEq C] [DecidableEq S] in
/-- The thread stores the entry of the copy that it handles. -/
theorem Inv.handled (h : Inv cfg σ) (hlt : σ.log.length < 2 ^ 32) {server : LogStorage τ}
    {d : Datagram} {slot : Slot}
    (hq : (σ.servers s).step (.handle t) = some (server, .handled d slot)) :
    ∃ n c k e thread, Logged cfg σ n c k e ∧ d.seqNo = BitVec.ofNat 64 n ∧
      pending thread = pending ((σ.servers s).threads t) ∧
      server = LogStorage.setThread { σ.servers s with
        stor := (LogStorage.store (σ.servers s).stor (BitVec.ofNat 64 n) e).1 } t thread := by
  rcases LogStorage.step_cases hq with ⟨u, ds, he, -⟩ |
    ⟨u, ds, i, d', slot', stor, slot'', he, ho, hphase, hd, hslot, hserve, hserver⟩ |
    ⟨u, ds, he, -⟩
  · cases he
  · cases he
    cases ho
    have hpending : pending ((σ.servers s).threads t) = ds := by simp only [pending, hphase]
    obtain ⟨haddr, n, c, k, e, hlogged, hdata⟩ := (h.servers s).pending (t := t)
      (hpending ▸ List.mem_of_getElem? hd)
    obtain ⟨tr, hinv, -⟩ := (h.servers s).history
    have ht := hinv t
    simp only [LogStorage.ThreadInv, hphase] at ht
    obtain ⟨old, hold, rfl⟩ := ht.after i d slot (Nat.le_refl i) hd hslot
    obtain ⟨addr, data⟩ := d
    obtain rfl : data = _ := hdata
    rw [LogStorage.appendServer_numbered hlogged.sends (cfg.fits c) hold (hlogged.lt hlt),
      Option.some.injEq, Prod.mk.injEq] at hserve
    obtain ⟨rfl, rfl⟩ := hserve
    refine ⟨n, c, k, e, _, hlogged, seqNo_copy hlogged hlt addr, ?_, hserver⟩
    exact hpending.symm
  · cases he

omit [DecidableEq C] in
theorem Inv.handle (h : Inv cfg σ) (hlt : σ'.log.length < 2 ^ 32)
    (hs : σ.handle s t = some (σ', done)) : Stepped cfg σ σ' done := by
  obtain ⟨server, d, slot, hq, rfl, hσ'⟩ := handle_eq_some hs
  have hlog : σ'.log = σ.log := by rw [hσ']
  have hentries : σ'.entries = σ.entries := by rw [hσ']
  rw [hlog] at hlt
  obtain ⟨n, c, k, e, thread, hlogged, hseq, hpending, rfl⟩ := h.handled hlt hq
  have hservers : σ'.servers = Function.update σ.servers s (LogStorage.setThread
      { σ.servers s with
        stor := (LogStorage.store (σ.servers s).stor (BitVec.ofNat 64 n) e).1 } t thread) := by
    rw [hσ']
  have hstor := stor_update _ hservers
  have hg : Grows σ σ' := by
    refine ⟨by rw [hlog], by rw [hentries]; exact fun _ => List.prefix_rfl, ?_⟩
    intro s' m e' he'
    rw [hstor]
    split
    · next hss =>
      subst hss
      exact store_eq_some_iff.2 (.inl he')
    · exact he'
  have hholds : ∀ m s', Holds σ' m s' ↔ Holds σ m s' ∨ s' = s ∧ m = BitVec.ofNat 64 n := by
    intro m s'
    unfold Holds
    rw [hstor]
    by_cases hss : s' = s
    · subst hss
      simp only [if_pos, store_eq_some_iff, true_and]
      constructor
      · rintro ⟨e', he' | ⟨rfl, -⟩⟩
        · exact .inl ⟨e', he'⟩
        · exact .inr rfl
      · rintro (⟨e', he'⟩ | rfl)
        · exact ⟨e', .inl he'⟩
        · cases hn : (σ.servers s').stor (BitVec.ofNat 64 n) with
          | none => exact ⟨e, .inr ⟨rfl, rfl, rfl⟩⟩
          | some e' => exact ⟨e', .inl rfl⟩
    · simp [hss]
  constructor
  · constructor
    · exact fun c => (h.clients c).mono hg (by rw [hσ']) (by rw [hσ'])
    · intro s'
      by_cases hss : s' = s
      · subst hss
        refine (h.servers s').step hg hq (by rw [hservers, Function.update_self]) ?_
          (fun _ _ heq => nomatch heq) ?_
        · intro m e' he'
          rcases store_eq_some_iff.1 he' with hold | ⟨rfl, -, rfl⟩
          · exact .inl hold
          · rw [toNat_ofNat_lt (hlogged.lt hlt)]
            exact .inr ⟨c, k, hlogged.mono hg⟩
        · intro u d' slot' heq
          cases heq
          exact (hholds _ _).2 (.inr ⟨rfl, hseq⟩)
      · exact (h.servers s').mono hg (by rw [hservers, Function.update_of_ne hss])
    · rw [hlog, hσ']
      exact h.maxIdx
    · rw [hlog, hentries]
      exact h.log
    · exact h.messages.mono hg (by rw [hσ']; exact fun _ => .inl)
        (by rw [hσ']; exact fun _ => .inl) (by rw [hσ']; exact fun _ => .inl)
        (by rw [hσ']; exact fun _ => .inl)
    · rw [hσ']
      exact ⟨h.counting.ready, h.counting.count⟩
    · have hcounted : σ'.counted = σ.counted := by rw [hσ']
      rw [hcounted]
      exact fun x hx => (h.held x hx).mono hg
    · have htokens : σ'.custody = σ.custody := by
        funext p
        cases p with
        | copies =>
          rw [hσ']
          rfl
        | batch s' t' =>
          have hsame : (pending thread).map (fun d => (s, d.seqNo)) = σ.custody (.batch s t) := by
            rw [hpending]
            rfl
          rw [custody_batch _ hservers, hsame, Function.update_eq_self]
        | acks =>
          rw [hσ']
          rfl
      rw [htokens, hσ']
      exact h.custody
  · have hn : d.seqNo.toNat = n := by rw [hseq, toNat_ofNat_lt (hlogged.lt hlt)]
    have hle : 1 ≤ n ∧ n ≤ σ.toLog.entries.length := hlogged.number.le
    simp only [Refines, Done.event, ReplicatedLog.step, hn, if_pos hle, Option.some.injEq]
    have hinsert : Function.update σ.toLog.holders n (insert s (σ.toLog.holders n)) =
        σ'.toLog.holders := by
      funext m
      ext s'
      simp only [toLog, Set.mem_ofPred_eq, hholds]
      have hlt' := hlogged.lt hlt
      by_cases hm : m = n
      · subst hm
        rw [Function.update_self]
        simp only [Set.mem_insert_iff, Set.mem_ofPred_eq]
        have hm64 : m < 2 ^ 64 := by omega
        tauto
      · rw [Function.update_of_ne hm]
        simp only [Set.mem_ofPred_eq]
        refine and_congr_right fun hm64 => ⟨.inl, ?_⟩
        rintro (hold | ⟨-, heq⟩)
        · exact hold
        · refine absurd ?_ hm
          have hnat := congrArg BitVec.toNat heq
          rwa [BitVec.toNat_ofNat, BitVec.toNat_ofNat, Nat.mod_eq_of_lt hm64,
            Nat.mod_eq_of_lt (by omega)] at hnat
    rw [hinsert]
    simp only [toLog, hlog, hentries]

omit [DecidableEq C] [DecidableEq S] in
/-- The thread answers its batch, and each answer is an acknowledgement. -/
theorem Inv.sent (h : Inv cfg σ) {server : LogStorage τ} {acks : List (Datagram × Datagram)}
    (hq : (σ.servers s).step (.send t) = some (server, .sent acks)) :
    (∃ slots, server = (σ.servers s).setThread t ⟨slots, .receiving⟩) ∧
      acks.map Prod.fst = pending ((σ.servers s).threads t) ∧
      ∀ a ∈ acks, a.2.addr = cfg.appendSocket ∧ ∃ n c k e, Logged cfg σ n c k e ∧
        Holds σ a.1.seqNo s ∧ a.1.data = numbered ((cfg.client c).request k e) n ∧
        a.2.data = acked ((cfg.client c).request k e) n := by
  obtain ⟨tr, hinv, hrecv, hhandled⟩ := (h.servers s).history
  refine ⟨?_, ?_, ?_⟩
  · rcases LogStorage.step_cases hq with ⟨u, ds, he, -⟩ | ⟨u, ds, i, d, slot, stor, slot', he, -⟩ |
      ⟨u, ds, he, -, -, hserver⟩
    · cases he
    · cases he
    · cases he
      exact ⟨_, hserver⟩
  · rcases LogStorage.step_cases hq with ⟨u, ds, he, -⟩ | ⟨u, ds, i, d, slot, stor, slot', he, -⟩ |
      ⟨u, ds, he, hphase, ho, -⟩
    · cases he
    · cases he
    · cases he
      cases ho
      have ht := hinv t
      simp only [LogStorage.ThreadInv, hphase] at ht
      have hbound := ht.bound
      simp only [pending, hphase]
      refine List.map_fst_zip ?_
      rw [List.length_map, List.length_take, ht.length]
      omega
  · intro a ha
    obtain ⟨⟨ds, hmem, hds⟩, slot, ⟨old, hold, hdone, rfl⟩, hsent⟩ := hinv.answered hq ha
    obtain ⟨haddr, n, c, k, e, hlogged, hdata⟩ := hrecv t ds hmem a.1 hds
    have hlen : (numbered ((cfg.client c).request k e) n).length = (cfg.client c).packetSize := by
      rw [length_numbered, LogClient.length_request hlogged.sends]
    have heq : a.1 = ⟨cfg.appendSocket, numbered ((cfg.client c).request k e) n⟩ := by
      rw [← haddr, ← hdata]
    have hresp : a.2 = ⟨cfg.appendSocket, acked ((cfg.client c).request k e) n⟩ := by
      rw [hsent, heq]
      refine LogStorage.sent_answer_recv hold ?_ ?_ _
      · rw [hlen, LogClient.packetSize]
        omega
      · rw [hlen]
        exact cfg.fits c
    rw [hresp]
    exact ⟨rfl, n, c, k, e, hlogged, hhandled t a.1 _ hdone, hdata, rfl⟩

omit [DecidableEq C] in
theorem Inv.send (h : Inv cfg σ) (hlt : σ'.log.length < 2 ^ 32)
    (hs : σ.send cfg s t = some (σ', done)) : Stepped cfg σ σ' done := by
  obtain ⟨server, acks, hq, rfl, hσ'⟩ := send_eq_some hs
  obtain ⟨⟨slots, rfl⟩, hfst, hacks⟩ := h.sent hq
  have hlog : σ'.log = σ.log := by rw [hσ']
  have hentries : σ'.entries = σ.entries := by rw [hσ']
  have hservers : σ'.servers = Function.update σ.servers s
      ((σ.servers s).setThread t ⟨slots, .receiving⟩) := by rw [hσ']
  rw [hlog] at hlt
  have hstor : ∀ s', (σ'.servers s').stor = (σ.servers s').stor := by
    intro s'
    rw [stor_update (σ.servers s).stor hservers]
    split
    · next hss => rw [hss]
    · rfl
  have hg : Grows σ σ' := by
    refine ⟨by rw [hlog], by rw [hentries]; exact fun _ => List.prefix_rfl, ?_⟩
    intro s' n e he
    rwa [hstor]
  have hall : σ'.acks = σ.acks ++ acks.map fun a => (s, ⟨cfg.sendSocket s t, a.2.data⟩) := by
    have hfilter : ((acks.map Prod.snd).filter fun d => d.addr = cfg.appendSocket) =
        acks.map Prod.snd :=
      List.filter_eq_self.2 (List.forall_mem_map.2 fun a ha => decide_eq_true (hacks a ha).1)
    rw [hσ', hfilter, List.map_map]
    rfl
  constructor
  · constructor
    · exact fun c => (h.clients c).mono hg (by rw [hσ']) (by rw [hσ'])
    · intro s'
      by_cases hss : s' = s
      · subst hss
        exact (h.servers s').step hg hq (by rw [hservers, Function.update_self])
          (fun n e he => .inl he) (fun _ _ heq => nomatch heq) (fun _ _ _ heq => nomatch heq)
      · exact (h.servers s').mono hg (by rw [hservers, Function.update_of_ne hss])
    · rw [hlog, hσ']
      exact h.maxIdx
    · rw [hlog, hentries]
      exact h.log
    · refine h.messages.mono hg (by rw [hσ']; exact fun _ => .inl)
        (by rw [hσ']; exact fun _ => .inl) ?_ (by rw [hσ']; exact fun _ => .inl)
      rw [hall]
      refine List.forall_mem_append.2 ⟨fun _ => .inl, List.forall_mem_map.2 fun a ha => .inr ?_⟩
      obtain ⟨-, n, c, k, e, hlogged, hholds, hdata, hresp⟩ := hacks a ha
      have hseq := seqNo_copy hlogged hlt a.1.addr
      rw [← hdata] at hseq
      change a.1.seqNo = _ at hseq
      rw [hseq] at hholds
      exact ⟨n, c, k, e, hlogged.mono hg, hresp, hholds.mono hg, t, rfl⟩
    · rw [hσ']
      exact ⟨h.counting.ready, h.counting.count⟩
    · have hcounted : σ'.counted = σ.counted := by rw [hσ']
      rw [hcounted]
      exact fun x hx => (h.held x hx).mono hg
    · have hperm : (σ.custody (.batch s t) ++ []).Perm (σ.custody (.batch s t)) := by
        rw [List.append_nil]
      have hmove := h.custody.move (j := .acks) (by simp) hperm
      -- each acknowledgement is about the number of its copy
      have hsame : acks.map (fun a => (s, a.2.seqNo)) = σ.custody (.batch s t) := by
        have hbatch : σ.custody (.batch s t) = acks.map fun a => (s, a.1.seqNo) := by
          simp only [LogSystem.custody, ← hfst, List.map_map]
          rfl
        rw [hbatch]
        refine List.map_congr_left fun a ha => Prod.ext rfl ?_
        obtain ⟨-, n, c, k, e, hlogged, -, hdata, hresp⟩ := hacks a ha
        have hseq := seqNo_copy hlogged hlt a.1.addr
        have hseq' := seqNo_ack hlogged hlt a.2.addr
        rw [← hdata] at hseq
        rw [← hresp] at hseq'
        exact hseq'.trans hseq.symm
      have htokens : σ'.custody = Function.update (Function.update σ.custody (.batch s t) [])
          .acks (σ.custody .acks ++ σ.custody (.batch s t)) := by
        funext p
        cases p with
        | copies =>
          rw [Function.update_of_ne (by simp), Function.update_of_ne (by simp), hσ']
          rfl
        | batch s' t' =>
          rw [custody_batch (σ.servers s).stor hservers,
            Function.update_of_ne (by simp : Place.batch s' t' ≠ .acks)]
          rfl
        | acks =>
          rw [Function.update_self, ← hsame]
          simp only [LogSystem.custody, hall, List.map_append, List.map_map]
          rfl
      rw [htokens, hσ']
      exact hmove
  · exact toLog_congr hentries hlog hstor

/-! ## Counting -/

/-- What the thread of `append_response` has counted and sent. -/
structure Counted (cfg : Config C S τ) (σ : LogSystem C S τ) (ns : List (BitVec 64))
    (ackMap : AckMap) (out : List Datagram) : Prop where
  count : ∀ n, ackMap n = countOf ns n
  responses : ∀ d ∈ out, ∀ c, d.addr = (cfg.client c).addr → ∃ n k e, Logged cfg σ n c k e ∧
    d.data = acked ((cfg.client c).request k e) n ∧
    cfg.ackThreshold.toNat ≤ ns.count (BitVec.ofNat 64 n)

omit [DecidableEq C] [DecidableEq S] [DecidableEq τ] in
/-- One more acknowledgement is counted. -/
theorem Counted.step {ns : List (BitVec 64)} {ackMap : AckMap} {out : List Datagram}
    (h : Counted cfg σ ns ackMap out) (hlt : σ.log.length < 2 ^ 32) {slot : Slot} {d : Datagram}
    (hslot : slot.Ready) (hd : IsAck cfg σ (s, d)) :
    Counted cfg σ (ns ++ [d.seqNo]) (appendResponse cfg.ackThreshold ackMap (slot.recv d)).1
      (out ++ [(appendResponse cfg.ackThreshold ackMap (slot.recv d)).2.sent]) := by
  obtain ⟨n, c, k, e, hlogged, hdata, -, t, haddr⟩ := hd
  obtain ⟨addr, data⟩ := d
  obtain rfl : data = _ := hdata
  obtain rfl : addr = cfg.sendSocket s t := haddr
  have hheaders := LogClient.sizeofHeaders_le_request hlogged.sends k
  have hlen : ((cfg.client c).request k e).length ≤ maxPacketSize := by
    rw [LogClient.length_request hlogged.sends]
    exact cfg.fits c
  obtain ⟨hmap, hdest, hresp⟩ := sent_appendResponse cfg.ackThreshold ackMap
    hslot hlen hheaders (hlogged.lt hlt) (cfg.sendSocket s t)
  have hcount := h.count (BitVec.ofNat 64 n)
  have hself : (countAck cfg.ackThreshold ackMap (BitVec.ofNat 64 n)).1 (BitVec.ofNat 64 n) =
      some (BitVec.ofNat 64 (ns.count (BitVec.ofNat 64 n) + 1)) := (countAck_self hcount).1
  have hquorum : (countAck cfg.ackThreshold ackMap (BitVec.ofNat 64 n)).2 =
      decide (cfg.ackThreshold ≤ BitVec.ofNat 64 (ns.count (BitVec.ofNat 64 n) + 1)) :=
    (countAck_self hcount).2
  rw [seqNo_ack hlogged hlt]
  constructor
  · intro m
    rw [hmap]
    by_cases hm : m = BitVec.ofNat 64 n
    · subst hm
      rw [hself, countOf, List.count_append, List.count_singleton_self, if_neg (Nat.succ_ne_zero _)]
    · have hcount : (ns ++ [BitVec.ofNat 64 n]).count m = ns.count m := by
        have hnone : [BitVec.ofNat 64 n].count m = 0 := List.count_eq_zero.2 (by simpa using hm)
        rw [List.count_append, hnone, Nat.add_zero]
      rw [countAck_other hm, h.count, countOf, countOf, hcount]
  · intro d hd c' hc'
    rcases List.mem_append.1 hd with hd | hd
    · obtain ⟨m, k', e', hlogged', hdata', hle⟩ := h.responses d hd c' hc'
      refine ⟨m, k', e', hlogged', hdata', Nat.le_trans hle ?_⟩
      rw [List.count_append]
      exact Nat.le_add_right _ _
    · obtain rfl := List.mem_singleton.1 hd
      rw [hdest] at hc'
      by_cases hq : (countAck cfg.ackThreshold ackMap (BitVec.ofNat 64 n)).2 = true
      · rw [if_pos hq, LogClient.addr_request] at hc'
        obtain rfl : c = c' := cfg.addr_injective hc'
        refine ⟨n, k, e, hlogged, hresp hq, ?_⟩
        rw [hquorum, decide_eq_true_eq, BitVec.le_def, BitVec.toNat_ofNat] at hq
        rw [List.count_append, List.count_singleton_self]
        exact Nat.le_trans hq (Nat.mod_le _ _)
      · rw [if_neg hq] at hc'
        exact absurd hc' (cfg.addr_ne s t c')

omit [DecidableEq C] in
theorem Inv.respond (h : Inv cfg σ) (hlt : σ'.log.length < 2 ^ 32)
    (hs : σ.respond cfg as = some (σ', done)) : Stepped cfg σ σ' done := by
  obtain ⟨responder, out, hsub, hturn, rfl, hσ'⟩ := respond_eq_some hs
  have hlog : σ'.log = σ.log := by rw [hσ']
  have hentries : σ'.entries = σ.entries := by rw [hσ']
  have hservers : σ'.servers = σ.servers := by rw [hσ']
  have hcounted : σ'.counted = σ.counted ++ as.map fun a => (a.1, a.2.seqNo) := by rw [hσ']
  have hacks : σ'.acks = σ.acks.diff as := by rw [hσ']
  rw [hlog] at hlt
  have hg : Grows σ σ' := by
    refine ⟨by rw [hlog], by rw [hentries]; exact fun _ => List.prefix_rfl, ?_⟩
    rw [hservers]
    exact fun _ _ _ he => he
  have hfrom : ∀ a ∈ as, IsAck cfg σ a := fun a ha => h.messages.acks a (hsub.subset ha)
  let I : AckMap → List Datagram → List Datagram → Prop := fun ackMap rs ss =>
    Counted cfg σ (σ.counted.map Prod.snd ++ rs.map Datagram.seqNo) ackMap ss
  have hI : I σ.responder.state [] [] :=
    ⟨by simpa using h.counting.count, fun _ hd => nomatch hd⟩
  obtain ⟨hready, hcount⟩ := BatchServer.turn_invariant (P := fun d => ∃ s, IsAck cfg σ (s, d))
    (I := I) length_appendResponse
    (by
      rintro ackMap rs ss slot d hslot ⟨s, hd⟩ hI
      have hstep := hI.step hlt hslot hd
      rwa [List.append_assoc, ← List.map_singleton, ← List.map_append] at hstep)
    h.counting.ready (List.forall_mem_map.2 fun a ha => ⟨a.1, hfrom a ha⟩) hI hturn
  simp only [I, List.nil_append] at hcount
  have hns : σ.counted.map Prod.snd ++ (as.map Prod.snd).map Datagram.seqNo =
      σ'.counted.map Prod.snd := by
    rw [hcounted, List.map_append, List.map_map, List.map_map]
    rfl
  rw [hns] at hcount
  have hheld : ∀ x ∈ σ'.counted, Holds σ' x.2 x.1 := by
    rw [hcounted]
    refine List.forall_mem_append.2 ⟨fun x hx => (h.held x hx).mono hg,
      List.forall_mem_map.2 fun a ha => ?_⟩
    obtain ⟨n, c, k, e, hlogged, hdata, hholds, -⟩ := hfrom a ha
    have hseq := seqNo_ack hlogged hlt a.2.addr
    rw [← hdata] at hseq
    change Holds σ' a.2.seqNo a.1
    rw [show a.2.seqNo = _ from hseq]
    exact hholds.mono hg
  have hcustody : Custody σ'.custody σ'.counted := by
    have hperm : (as.map (fun a => (a.1, a.2.seqNo)) ++ σ'.acks.map fun a => (a.1, a.2.seqNo)).Perm
        (σ.custody .acks) := by
      rw [hacks, ← List.map_append]
      exact (List.subperm_append_diff_self_of_count_le fun x _ => hsub.count_le x).map _
    have hleave := h.custody.leaveAll hperm
    have htokens : σ'.custody = Function.update σ.custody .acks
        (σ'.acks.map fun a => (a.1, a.2.seqNo)) := by
      funext p
      cases p with
      | copies =>
        rw [Function.update_of_ne (by simp), hσ']
        rfl
      | batch s t =>
        rw [Function.update_of_ne (by simp)]
        simp only [LogSystem.custody, hservers]
      | acks =>
        rw [Function.update_self]
        rfl
    rwa [htokens, hcounted]
  constructor
  · refine ⟨fun c => (h.clients c).mono hg (by rw [hσ']) (by rw [hσ']),
      fun s => (h.servers s).mono hg (by rw [hservers]), by rw [hlog, hσ']; exact h.maxIdx,
      by rw [hlog, hentries]; exact h.log, ?_, ?_, hheld, hcustody⟩
    · refine h.messages.mono hg (by rw [hσ']; exact fun _ => .inl)
        (by rw [hσ']; exact fun _ => .inl) ?_ ?_
      · rw [hacks]
        exact fun a ha => .inl (List.diff_subset _ _ ha)
      · have hresponses : σ'.responses = σ.responses ++ out := by rw [hσ']
        rw [hresponses]
        refine List.forall_mem_append.2 ⟨fun _ => .inl, fun d hd => .inr fun c hc => ?_⟩
        obtain ⟨n, k, e, hlogged, hdata, hle⟩ := hcount.responses d hd c hc
        exact ⟨n, k, e, hlogged.mono hg, hdata, quorum_of_count hcustody.gone_nodup hheld hle⟩
    · have hresponder : σ'.responder = responder := by rw [hσ']
      exact ⟨by rw [hresponder]; exact hready, by rw [hresponder]; exact hcount.count⟩
  · exact toLog_congr hentries hlog fun s => by rw [hservers]

/-! ## A response -/

/-- What a datagram leaves as it is. -/
theorem recv_frame {s s' : LogClient.Appending} {o : Option (BitVec 64)}
    (h : s.step (.recv data) = some (s', o)) : s'.requests = s.requests ∧
      s'.client = { s.client with appendNonce := s'.client.appendNonce } := by
  obtain ⟨-, heq⟩ := LogClient.Appending.recv_eq_some h
  obtain rfl := congrArg Prod.fst heq
  unfold LogClient.Appending.settle
  split <;> exact ⟨rfl, rfl⟩

omit [DecidableEq C] [DecidableEq S] [DecidableEq τ] in
/-- A client has called no more often than there are numbers, once more at most. -/
theorem Inv.few (h : Inv cfg σ) (hlt : σ.log.length < 2 ^ 32) (c : C) :
    (σ.clients c).requests.length ≤ 2 ^ 32 := by
  have hle : (σ.clients c).requests.length ≤ (σ.clients c).completed + 1 := by
    unfold LogClient.Appending.completed
    split
    · omega
    · omega
  have hnodup : ((List.range (σ.clients c).completed).map fun k => (c, k)).Nodup :=
    List.nodup_range.map fun k k' hk => (Prod.mk.inj hk).2
  have hsub : ((List.range (σ.clients c).completed).map fun k => (c, k)) ⊆ σ.log :=
    List.forall_mem_map.2 fun k hk => (h.clients c).done k (List.mem_range.1 hk)
  have hlen := (List.subperm_of_subset hnodup hsub).length_le
  rw [List.length_map, List.length_range] at hlen
  omega

omit [DecidableEq S] [DecidableEq τ] in
theorem Inv.receive (h : Inv cfg σ) (hlt : σ'.log.length < 2 ^ 32)
    (hs : σ.receive cfg c data = some (σ', done)) : Stepped cfg σ σ' done := by
  obtain ⟨client, o, hmem, hq, hdone, hσ'⟩ := receive_eq_some hs
  have hlog : σ'.log = σ.log := by rw [hσ']
  have hentries : σ'.entries = σ.entries := by rw [hσ']
  have hservers : σ'.servers = σ.servers := by rw [hσ']
  have hclients : σ'.clients = Function.update σ.clients c client := by rw [hσ']
  have hself : σ'.clients c = client := by rw [hclients, Function.update_self]
  rw [hlog] at hlt
  have hg : Grows σ σ' := by
    refine ⟨by rw [hlog], by rw [hentries]; exact fun _ => List.prefix_rfl, ?_⟩
    rw [hservers]
    exact fun _ _ _ he => he
  have hclient := h.clients c
  obtain ⟨n, k, e, hlogged, rfl, hquorum⟩ := h.messages.responses _ hmem c rfl
  have hlt' : k < (σ.clients c).requests.length := by
    rw [← hclient.calls]
    exact (List.getElem?_eq_some_iff.1 hlogged.entry).1
  have hgen : LogClient.Appending.Genuine (Answered cfg σ c) (σ.clients c).requests
      (acked ((cfg.client c).request k e) n) := by
    have hk := List.getElem?_eq_getElem hlt'
    exact LogClient.Appending.genuine_acked hlogged.sends (hlogged.lt hlt) hk
      (hclient.inv.nonces k _ hk) ⟨n, e, rfl, hlogged, hquorum⟩
  have hstepped := hclient.inv.recv hgen hq
  obtain ⟨hrequests, hconfig⟩ := recv_frame hq
  have hanswered := hstepped.assigned (h.few hlt c)
  have hinv : ClientInv cfg σ' c := by
    constructor
    · rw [hself]
      exact hstepped.inv
    · rw [hself, hconfig, hclient.client, hstepped.inv.current]
      rfl
    · rw [hself, hentries, hrequests]
      exact hclient.calls
    · rw [hentries]
      exact hclient.sends
    · intro k' hk'
      rw [hself, hstepped.completed] at hk'
      rw [hlog]
      by_cases hlast : k' < (σ.clients c).completed
      · exact hclient.done k' hlast
      · cases o with
        | none => exact absurd hk' hlast
        | some idx =>
          rw [Option.toList_some, List.length_singleton] at hk'
          obtain rfl : k' = (σ.clients c).completed := by omega
          obtain ⟨m, e', -, hlogged', -⟩ := hanswered idx rfl
          exact hlogged'.number.mem
  constructor
  · refine ⟨?_, fun s => (h.servers s).mono hg (by rw [hservers]), by rw [hlog, hσ']; exact h.maxIdx,
      by rw [hlog, hentries]; exact h.log, ?_, ?_, ?_, ?_⟩
    · intro c'
      by_cases hc : c' = c
      · subst hc
        exact hinv
      · exact (h.clients c').mono hg (by rw [hclients, Function.update_of_ne hc])
          (by rw [hentries])
    · exact h.messages.mono hg (by rw [hσ']; exact fun _ => .inl)
        (by rw [hσ']; exact fun _ => .inl) (by rw [hσ']; exact fun _ => .inl)
        (by rw [hσ']; exact fun _ => .inl)
    · rw [hσ']
      exact ⟨h.counting.ready, h.counting.count⟩
    · have hcounted : σ'.counted = σ.counted := by rw [hσ']
      rw [hcounted]
      exact fun x hx => (h.held x hx).mono hg
    · have hcustody : σ'.custody = σ.custody :=
        custody_congr (by rw [hσ']) hservers (by rw [hσ'])
      rw [hcustody, hσ']
      exact h.custody
  · have hsame : σ'.toLog = σ.toLog := toLog_congr hentries hlog fun s => by rw [hservers]
    cases o with
    | none =>
      subst hdone
      exact hsame
    | some idx =>
      subst hdone
      have hcall : (σ.entries c).length - 1 = (σ.clients c).completed := by
        have hbusy := hstepped.busy idx rfl
        rw [hclient.calls]
        omega
      obtain ⟨m, e', rfl, hlogged', hquorum'⟩ := hanswered idx rfl
      have hm := toNat_ofNat_lt (hlogged'.lt hlt)
      have hm64 : m < 2 ^ 64 := Nat.lt_trans (hlogged'.lt hlt) (by decide)
      have hcommitted : Numbered σ.toLog.entries m (c, (σ.clients c).completed) ∧
          Quorum cfg.ackThreshold.toNat (σ.toLog.holders m) :=
        ⟨hlogged'.number, hquorum'.mono fun s hs => ⟨hm64, hs⟩⟩
      simp only [Refines, Done.event, ReplicatedLog.step, hcall, hm, if_pos hcommitted, hsame]

end

end Pringles.Software.LogSystem
