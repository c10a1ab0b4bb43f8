import Pringles.Lib.Custody
import Pringles.Lib.ReplicatedLog
import Pringles.Software.LogSystem

/-!
# What the log service keeps

Every datagram on the way is one of the messages of an append that has been called or numbered, what
is stored under a number is the entry of that append, and an acknowledgement comes from a server that
holds it. A copy goes from the network into a batch of a server, from there into an acknowledgement,
and is counted at most once (`Custody`): so the counts of the switch are counts of servers.
-/

namespace Pringles.Software

namespace LogSystem

open ReplicatedLog (Numbered Quorum)

variable {C S τ : Type}

/-! ## Messages -/

/-- The append with the number `n` is the call `k` of the client `c`, with the entry `e`. -/
structure Logged (cfg : Config C S τ) (σ : LogSystem C S τ) (n : Nat) (c : C) (k : Nat)
    (e : List Byte) : Prop where
  number : Numbered σ.log n (c, k)
  entry : (σ.entries c)[k]? = some e
  sends : (cfg.client c).Sends e

/-- Something is stored under the number. -/
def Holds (σ : LogSystem C S τ) (n : BitVec 64) (s : S) : Prop :=
  ∃ e, (σ.servers s).stor n = some e

/-- The call may return the number. -/
def Answered (cfg : Config C S τ) (σ : LogSystem C S τ) (c : C) (k : Nat) (idx : BitVec 64) :
    Prop :=
  ∃ n e, idx = BitVec.ofNat 64 n ∧ Logged cfg σ n c k e ∧
    Quorum cfg.ackThreshold.toNat {s | Holds σ idx s}

def IsRequest (cfg : Config C S τ) (σ : LogSystem C S τ) (r : Request C) : Prop :=
  ∃ e, (σ.entries r.client)[r.call]? = some e ∧ (cfg.client r.client).Sends e ∧
    r.data = (cfg.client r.client).request r.call e

def IsCopy (cfg : Config C S τ) (σ : LogSystem C S τ) (data : List Byte) : Prop :=
  ∃ n c k e, Logged cfg σ n c k e ∧ data = numbered ((cfg.client c).request k e) n

def IsAck (cfg : Config C S τ) (σ : LogSystem C S τ) (a : S × Datagram) : Prop :=
  ∃ n c k e, Logged cfg σ n c k e ∧ a.2.data = acked ((cfg.client c).request k e) n ∧
    Holds σ (BitVec.ofNat 64 n) a.1 ∧ ∃ t, a.2.addr = cfg.sendSocket a.1 t

/-- What goes to a client is the response to one of its calls. -/
def IsResponse (cfg : Config C S τ) (σ : LogSystem C S τ) (d : Datagram) : Prop :=
  ∀ c, d.addr = (cfg.client c).addr → ∃ n k e, Logged cfg σ n c k e ∧
    d.data = acked ((cfg.client c).request k e) n ∧
    Quorum cfg.ackThreshold.toNat {s | Holds σ (BitVec.ofNat 64 n) s}

/-! ### They stay what they are -/

/-- What only grows. -/
structure Grows (σ σ' : LogSystem C S τ) : Prop where
  log : σ.log <+: σ'.log
  entries : ∀ c, σ.entries c <+: σ'.entries c
  stor : ∀ s n e, (σ.servers s).stor n = some e → (σ'.servers s).stor n = some e

variable {cfg : Config C S τ} {σ σ' : LogSystem C S τ} {n : Nat} {c : C} {k : Nat} {e : List Byte}
  {s : S} {t : τ} {idx : BitVec 64} {r : Request C} {data : List Byte} {a : S × Datagram}
  {d : Datagram}

theorem getElem?_of_prefix {α : Type} {l l' : List α} {i : Nat} {x : α} (h : l <+: l')
    (hx : l[i]? = some x) : l'[i]? = some x := by
  obtain ⟨rest, rfl⟩ := h
  rw [List.getElem?_append_left (List.getElem?_eq_some_iff.1 hx).1]
  exact hx

theorem Logged.mono (h : Logged cfg σ n c k e) (hg : Grows σ σ') : Logged cfg σ' n c k e := by
  obtain ⟨rest, hrest⟩ := hg.log
  exact ⟨hrest ▸ h.number.append, getElem?_of_prefix (hg.entries c) h.entry, h.sends⟩

theorem Logged.unique {c' : C} {k' : Nat} {e' : List Byte} (h : Logged cfg σ n c k e)
    (h' : Logged cfg σ n c' k' e') : c' = c ∧ k' = k ∧ e' = e := by
  obtain ⟨rfl, rfl⟩ := Prod.mk.inj (h.number.unique h'.number)
  exact ⟨rfl, rfl, Option.some.inj (h'.entry.symm.trans h.entry)⟩

theorem Logged.lt (h : Logged cfg σ n c k e) (hlt : σ.log.length < 2 ^ 32) : n < 2 ^ 32 :=
  Nat.lt_of_le_of_lt h.number.le.2 hlt

theorem Holds.mono {n : BitVec 64} (h : Holds σ n s) (hg : Grows σ σ') : Holds σ' n s := by
  obtain ⟨e, he⟩ := h
  exact ⟨e, hg.stor s n e he⟩

theorem IsRequest.mono (h : IsRequest cfg σ r) (hg : Grows σ σ') : IsRequest cfg σ' r := by
  obtain ⟨e, he, hsends, hdata⟩ := h
  exact ⟨e, getElem?_of_prefix (hg.entries _) he, hsends, hdata⟩

theorem IsCopy.mono (h : IsCopy cfg σ data) (hg : Grows σ σ') : IsCopy cfg σ' data := by
  obtain ⟨n, c, k, e, hlogged, hdata⟩ := h
  exact ⟨n, c, k, e, hlogged.mono hg, hdata⟩

theorem IsAck.mono (h : IsAck cfg σ a) (hg : Grows σ σ') : IsAck cfg σ' a := by
  obtain ⟨n, c, k, e, hlogged, hdata, hholds, haddr⟩ := h
  exact ⟨n, c, k, e, hlogged.mono hg, hdata, hholds.mono hg, haddr⟩

theorem IsResponse.mono (h : IsResponse cfg σ d) (hg : Grows σ σ') : IsResponse cfg σ' d := by
  intro c hc
  obtain ⟨n, k, e, hlogged, hdata, hquorum⟩ := h c hc
  exact ⟨n, k, e, hlogged.mono hg, hdata, hquorum.mono fun _ hs => Holds.mono hs hg⟩

/-- The number of a copy. -/
theorem seqNo_copy (h : Logged cfg σ n c k e) (hlt : σ.log.length < 2 ^ 32) (addr : Address) :
    (⟨addr, numbered ((cfg.client c).request k e) n⟩ : Datagram).seqNo = BitVec.ofNat 64 n :=
  seqNo_numbered (LogClient.sizeofHeaders_le_request h.sends k) (h.lt hlt) addr

theorem seqNo_ack (h : Logged cfg σ n c k e) (hlt : σ.log.length < 2 ^ 32) (addr : Address) :
    (⟨addr, acked ((cfg.client c).request k e) n⟩ : Datagram).seqNo = BitVec.ofNat 64 n :=
  seqNo_acked (LogClient.sizeofHeaders_le_request h.sends k) (h.lt hlt) addr

theorem toNat_ofNat_lt (h : n < 2 ^ 32) : (BitVec.ofNat 64 n).toNat = n := by
  rw [BitVec.toNat_ofNat, Nat.mod_eq_of_lt (by omega)]

/-! ## The parties -/

structure ClientInv (cfg : Config C S τ) (σ : LogSystem C S τ) (c : C) : Prop where
  inv : LogClient.Appending.Inv (cfg.client c).appendNonce (σ.clients c)
  client : (σ.clients c).client = (cfg.client c).atCall (σ.clients c).completed
  calls : (σ.entries c).length = (σ.clients c).requests.length
  sends : ∀ e ∈ σ.entries c, (cfg.client c).Sends e
  done : ∀ k, k < (σ.clients c).completed → (c, k) ∈ σ.log

/-- What a server holds is the entry of the append with that number, and the threads have handled
copies of appends. -/
structure ServerInv (cfg : Config C S τ) (σ : LogSystem C S τ) (s : S) : Prop where
  stor : ∀ n e, (σ.servers s).stor n = some e → ∃ c k, Logged cfg σ n.toNat c k e
  history : ∃ tr, LogStorage.Inv tr (σ.servers s) ∧
    (∀ t ds, (.recv t ds, .received) ∈ tr → ∀ d ∈ ds,
      d.addr = cfg.appendSocket ∧ IsCopy cfg σ d.data) ∧
    ∀ t d slot, (.handle t, .handled d slot) ∈ tr → Holds σ d.seqNo s

/-- Where a copy, or the acknowledgement of one, may be. -/
inductive Place (S τ : Type) where
  | copies
  | batch (s : S) (t : τ)
  | acks
deriving DecidableEq

/-- The batch of a thread. -/
def pending (thread : LogStorage.Thread) : List Datagram :=
  match thread.phase with
  | .receiving => []
  | .handling ds _ => ds

/-- The servers and numbers that the copies are about. -/
def custody (σ : LogSystem C S τ) : Place S τ → List (S × BitVec 64)
  | .copies => σ.copies.map fun m => (m.1, seqNo (AppendEntry.gIdx m.2))
  | .batch s t => (pending ((σ.servers s).threads t)).map fun d => (s, d.seqNo)
  | .acks => σ.acks.map fun a => (a.1, a.2.seqNo)

/-- `ack_map` when these acknowledgements have been counted. -/
def countOf (ns : List (BitVec 64)) (n : BitVec 64) : Option (BitVec 64) :=
  if ns.count n = 0 then none else some (BitVec.ofNat 64 (ns.count n))

/-- What is on the way. -/
structure Messages (cfg : Config C S τ) (σ : LogSystem C S τ) : Prop where
  requests : ∀ r ∈ σ.requests, IsRequest cfg σ r
  copies : ∀ m ∈ σ.copies, IsCopy cfg σ m.2
  acks : ∀ a ∈ σ.acks, IsAck cfg σ a
  responses : ∀ d ∈ σ.responses, IsResponse cfg σ d

/-- What the switch has counted. -/
structure Counting (σ : LogSystem C S τ) : Prop where
  ready : σ.responder.Ready
  count : ∀ n, σ.responder.state n = countOf (σ.counted.map Prod.snd) n

structure Inv (cfg : Config C S τ) (σ : LogSystem C S τ) : Prop where
  clients : ∀ c, ClientInv cfg σ c
  servers : ∀ s, ServerInv cfg σ s
  maxIdx : σ.maxIdx = BitVec.ofNat 64 σ.log.length
  log : ∀ x ∈ σ.log, x.2 < (σ.entries x.1).length
  messages : Messages cfg σ
  counting : Counting σ
  held : ∀ x ∈ σ.counted, Holds σ x.2 x.1
  custody : Custody σ.custody σ.counted

/-- Messages that were on the way stay what they are; the new ones are to be looked at. -/
theorem Messages.mono (h : Messages cfg σ) (hg : Grows σ σ')
    (hrequests : ∀ r ∈ σ'.requests, r ∈ σ.requests ∨ IsRequest cfg σ' r)
    (hcopies : ∀ m ∈ σ'.copies, m ∈ σ.copies ∨ IsCopy cfg σ' m.2)
    (hacks : ∀ a ∈ σ'.acks, a ∈ σ.acks ∨ IsAck cfg σ' a)
    (hresponses : ∀ d ∈ σ'.responses, d ∈ σ.responses ∨ IsResponse cfg σ' d) :
    Messages cfg σ' where
  requests r hr := (hrequests r hr).elim (fun hr => (h.requests r hr).mono hg) id
  copies m hm := (hcopies m hm).elim (fun hm => (h.copies m hm).mono hg) id
  acks a ha := (hacks a ha).elim (fun ha => (h.acks a ha).mono hg) id
  responses d hd := (hresponses d hd).elim (fun hd => (h.responses d hd).mono hg) id

theorem ClientInv.mono (h : ClientInv cfg σ c) (hg : Grows σ σ')
    (hclients : σ'.clients c = σ.clients c) (hentries : σ'.entries c = σ.entries c) :
    ClientInv cfg σ' c := by
  constructor
  · rw [hclients]
    exact h.inv
  · rw [hclients]
    exact h.client
  · rw [hclients, hentries]
    exact h.calls
  · rw [hentries]
    exact h.sends
  · intro k hk
    rw [hclients] at hk
    exact hg.log.subset (h.done k hk)

theorem ServerInv.mono (h : ServerInv cfg σ s) (hg : Grows σ σ')
    (hservers : σ'.servers s = σ.servers s) : ServerInv cfg σ' s := by
  constructor
  · intro n e he
    rw [hservers] at he
    obtain ⟨c, k, hlogged⟩ := h.stor n e he
    exact ⟨c, k, hlogged.mono hg⟩
  · obtain ⟨tr, hinv, hrecv, hhandled⟩ := h.history
    refine ⟨tr, hservers ▸ hinv, ?_, ?_⟩
    · intro t ds hmem d hd
      obtain ⟨haddr, hcopy⟩ := hrecv t ds hmem d hd
      exact ⟨haddr, hcopy.mono hg⟩
    · intro t d slot hmem
      exact (hhandled t d slot hmem).mono hg

/-- One more step of the server. -/
theorem ServerInv.step [DecidableEq τ] {server : LogStorage τ} {e : LogStorage.Event τ}
    {o : LogStorage.Done} (h : ServerInv cfg σ s) (hg : Grows σ σ')
    (hq : (σ.servers s).step e = some (server, o)) (hserver : σ'.servers s = server)
    (hstor : ∀ n e, server.stor n = some e →
      (σ.servers s).stor n = some e ∨ ∃ c k, Logged cfg σ' n.toNat c k e)
    (hrecv : ∀ t ds, (e, o) = (.recv t ds, .received) → ∀ d ∈ ds,
      d.addr = cfg.appendSocket ∧ IsCopy cfg σ d.data)
    (hhandled : ∀ t d slot, (e, o) = (.handle t, .handled d slot) → Holds σ' d.seqNo s) :
    ServerInv cfg σ' s := by
  constructor
  · intro n e he
    rw [hserver] at he
    rcases hstor n e he with hold | hnew
    · obtain ⟨c, k, hlogged⟩ := h.stor n e hold
      exact ⟨c, k, hlogged.mono hg⟩
    · exact hnew
  · obtain ⟨tr, hinv, hold, hheld⟩ := h.history
    refine ⟨tr ++ [(e, o)], hserver ▸ hinv.step hq, ?_, ?_⟩
    · intro t ds hmem d hd
      rcases List.mem_append.1 hmem with hmem | hmem
      · exact (hold t ds hmem d hd).imp_right fun hc => hc.mono hg
      · exact (hrecv t ds (List.mem_singleton.1 hmem).symm d hd).imp_right fun hc => hc.mono hg
    · intro t d slot hmem
      rcases List.mem_append.1 hmem with hmem | hmem
      · exact (hheld t d slot hmem).mono hg
      · exact hhandled t d slot (List.mem_singleton.1 hmem).symm

/-- A thread works on copies. -/
theorem ServerInv.pending (h : ServerInv cfg σ s)
    (hd : d ∈ LogSystem.pending ((σ.servers s).threads t)) :
    d.addr = cfg.appendSocket ∧ IsCopy cfg σ d.data := by
  obtain ⟨tr, hinv, hrecv, -⟩ := h.history
  have ht := hinv t
  unfold LogSystem.pending at hd
  unfold LogStorage.ThreadInv at ht
  split at hd
  · cases hd
  · next ds i hphase =>
    rw [hphase] at ht
    exact hrecv t ds ht.received d hd

/-! ## Where the numbers are -/

/-- A number on the way has been given. -/
theorem Inv.le_of_mem_custody (h : Inv cfg σ) (hlt : σ.log.length < 2 ^ 32) {p : Place S τ}
    {x : S × BitVec 64} (hx : x ∈ σ.custody p) : x.2.toNat ≤ σ.log.length := by
  cases p with
  | copies =>
    obtain ⟨m, hm, rfl⟩ := List.mem_map.1 hx
    obtain ⟨n, c, k, e, hlogged, hdata⟩ := h.messages.copies m hm
    have hseq := seqNo_copy hlogged hlt ⟨0, 0⟩
    rw [Datagram.seqNo, ← hdata] at hseq
    change (seqNo (AppendEntry.gIdx m.2)).toNat ≤ _
    rw [hseq, toNat_ofNat_lt (hlogged.lt hlt)]
    exact hlogged.number.le.2
  | batch s t =>
    obtain ⟨d, hd, rfl⟩ := List.mem_map.1 hx
    obtain ⟨-, n, c, k, e, hlogged, hdata⟩ := (h.servers s).pending hd
    have hseq := seqNo_copy hlogged hlt d.addr
    rw [← hdata] at hseq
    change d.seqNo.toNat ≤ _
    rw [hseq, toNat_ofNat_lt (hlogged.lt hlt)]
    exact hlogged.number.le.2
  | acks =>
    obtain ⟨a, ha, rfl⟩ := List.mem_map.1 hx
    obtain ⟨n, c, k, e, hlogged, hdata, -⟩ := h.messages.acks a ha
    have hseq := seqNo_ack hlogged hlt a.2.addr
    rw [← hdata] at hseq
    change a.2.seqNo.toNat ≤ _
    rw [hseq, toNat_ofNat_lt (hlogged.lt hlt)]
    exact hlogged.number.le.2

theorem Inv.le_of_mem_counted (h : Inv cfg σ) {x : S × BitVec 64} (hx : x ∈ σ.counted) :
    x.2.toNat ≤ σ.log.length := by
  obtain ⟨e, he⟩ := h.held x hx
  obtain ⟨c, k, hlogged⟩ := (h.servers x.1).stor x.2 e he
  exact hlogged.number.le.2

/-- **What the switch has counted for a number are servers that hold it.** -/
theorem quorum_of_count {ns : List (S × BitVec 64)} (hnodup : ns.Nodup)
    (hheld : ∀ x ∈ ns, Holds σ x.2 x.1) {n : BitVec 64} {t : Nat}
    (ht : t ≤ (ns.map Prod.snd).count n) : Quorum t {s | Holds σ n s} := by
  classical
  let q := (ns.filter fun x => x.2 = n).map Prod.fst
  have hmem : ∀ s ∈ q, (s, n) ∈ ns := by
    intro s hs
    obtain ⟨x, hx, rfl⟩ := List.mem_map.1 hs
    obtain ⟨hx, hn⟩ := List.mem_filter.1 hx
    rwa [← of_decide_eq_true hn]
  have hq : q.Nodup := by
    refine List.Nodup.map_on ?_ (hnodup.filter _)
    intro x hx y hy hxy
    have hxn := of_decide_eq_true (List.mem_filter.1 hx).2
    have hyn := of_decide_eq_true (List.mem_filter.1 hy).2
    exact Prod.ext hxy (hxn.trans hyn.symm)
  have hlen : q.length = (ns.map Prod.snd).count n := by
    rw [List.length_map, ← List.countP_eq_length_filter, List.count, List.countP_map]
    refine List.countP_congr fun x _ => ?_
    simp
  refine ⟨q.toFinset, ?_, ?_⟩
  · rw [List.toFinset_card_of_nodup hq, hlen]
    exact ht
  · intro s hs
    exact hheld (s, n) (hmem s (List.mem_toFinset.1 hs))

/-! ## The beginning -/

theorem inv_start (cfg : Config C S τ) : Inv cfg (start cfg) where
  clients c := {
    inv := LogClient.Appending.inv_begin _ _
    client := by
      change cfg.client c = (cfg.client c).atCall 0
      rw [LogClient.atCall]
      simp
    calls := rfl
    sends := fun _ h => nomatch h
    done := fun _ h => nomatch h }
  servers s := {
    stor := fun _ _ h => nomatch h
    history := ⟨[], LogStorage.inv_start (cfg.serverReady s), (fun _ _ h => nomatch h),
      (fun _ _ _ h => nomatch h)⟩ }
  maxIdx := rfl
  log _ h := nomatch h
  messages := ⟨(fun _ h => nomatch h), (fun _ h => nomatch h), (fun _ h => nomatch h),
    (fun _ h => nomatch h)⟩
  counting := ⟨⟨cfg.ready.length, cfg.ready.ready⟩, fun _ => rfl⟩
  held _ h := nomatch h
  custody := by
    have hnil : (start cfg).custody = fun _ => [] := by
      funext p
      cases p with
      | copies => rfl
      | batch s t => rfl
      | acks => rfl
    rw [hnil]
    exact Custody.empty

end LogSystem

end Pringles.Software
