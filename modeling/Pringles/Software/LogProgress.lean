import Pringles.Software.LogSteps

/-!
# An append can always complete

From every state that a run reaches, a client that is not waiting can append and get a number: its
request reaches the switch, the copies reach the servers behind the address that the switch chooses,
one after the other, and when the last acknowledgement is counted the response reaches the client.
All that it takes is that there are enough servers there, each with a thread that is free.
-/

namespace Pringles.Software.LogSystem

open ReplicatedLog (Numbered Quorum)

variable {C S τ : Type} {cfg : Config C S τ} {σ σ' : LogSystem C S τ} {c : C} {s : S} {t : τ}
  {n k : Nat} {e entry : List Byte} {stor : Address}

/-- What the entry of a client must be like, when it appends. -/
def Valid (cfg : Config C S τ) : Event C S τ → Prop
  | .append c entry => (cfg.client c).Sends entry
  | _ => True

/-- A copy brings its entry. -/
theorem carries_copy (hsends : (cfg.client c).Sends e) (addr : Address) :
    LogStorage.Carries ⟨addr, numbered ((cfg.client c).request k e) n⟩ e := by
  have hdrop : (numbered ((cfg.client c).request k e) n).drop sizeofHeaders = e ++ [0] := by
    have hwhole : (e ++ [0]).length = ((cfg.client c).atCall k).payloadSize.toNat + 1 := by
      rw [List.length_append, List.length_singleton, hsends.length]
      rfl
    rw [numbered, AppendEntry.setGIdx, Bytes.drop_store32 (by decide), LogClient.request,
      LogClient.packet, List.drop_left' (LogClient.length_headers _), ← hwhole, List.take_length]
  refine ⟨?_, ?_⟩
  · change (numbered ((cfg.client c).request k e) n).length ≤ maxPacketSize
    rw [length_numbered, LogClient.length_request hsends]
    exact cfg.fits c
  · rw [hdrop]
    exact ⟨hsends.zero, List.prefix_rfl⟩

section
variable [DecidableEq C] [DecidableEq S] [DecidableEq τ]

omit [DecidableEq S] [DecidableEq τ] in
theorem Inv.exists_append (h : Inv cfg σ) (hidle : (σ.clients c).waiting = none)
    (hsends : (cfg.client c).Sends entry) :
    ∃ σ', σ.append c entry = some (σ', .called c (σ.entries c).length) ∧
      (σ'.clients c).waiting = some .append ∧ σ'.servers = σ.servers ∧ σ'.log = σ.log ∧
      (σ'.clients c).completed = (σ.entries c).length ∧
      (σ'.entries c)[(σ.entries c).length]? = some entry ∧
      σ'.requests[σ.requests.length]? = some ⟨c, (σ.entries c).length,
        (cfg.client c).request (σ.entries c).length entry⟩ := by
  have hclient := h.clients c
  have hcompleted : (σ.clients c).completed = (σ.entries c).length := by
    rw [hclient.calls, LogClient.Appending.completed, hidle]
    rfl
  let s : LogClient.Appending := { σ.clients c with
    client := (σ.clients c).client, waiting := some .append
    requests := (σ.clients c).requests ++ [(σ.clients c).client.headers] }
  have hq : (σ.clients c).step (.call .append) = some (s, none) := by
    simp only [LogClient.Appending.step, LogClient.Appending.call, hidle]
    rfl
  have hsent : (σ.clients c).client.append entry = some ⟨(cfg.client c).switchAddr,
      (cfg.client c).packetSize, (cfg.client c).request (σ.entries c).length entry⟩ := by
    rw [hclient.client, hcompleted]
    exact LogClient.append_request hsends (cfg.fits c) _
  refine ⟨{ σ with
    clients := Function.update σ.clients c s
    requests := σ.requests ++ [⟨c, (σ.entries c).length,
      (cfg.client c).request (σ.entries c).length entry⟩]
    entries := Function.update σ.entries c (σ.entries c ++ [entry]) }, ?_, ?_, rfl, rfl, ?_, ?_, ?_⟩
  · simp only [LogSystem.append, hq, hsent, Option.bind_eq_bind, Option.bind_some, Sent.whole]
    rw [if_pos (LogClient.length_request hsends _)]
    rfl
  · simp only [Function.update_self, s]
  · simp only [Function.update_self, s, LogClient.Appending.completed, Option.isSome_some, if_true]
    rw [List.length_append, List.length_singleton, Nat.add_sub_cancel, hclient.calls]
  · simp only [Function.update_self]
    exact List.getElem?_concat_length
  · exact List.getElem?_concat_length

omit [DecidableEq C] [DecidableEq S] [DecidableEq τ] in
theorem Inv.exists_request (h : Inv cfg σ) {i : Nat} {r : Request C} (hr : σ.requests[i]? = some r)
    (stor : Address) :
    ∃ σ' e, σ.request cfg i stor = some (σ', .numbered r.client r.call) ∧
      (σ.entries r.client)[r.call]? = some e ∧ (cfg.client r.client).Sends e ∧
      σ'.clients = σ.clients ∧ σ'.entries = σ.entries ∧ σ'.servers = σ.servers ∧
      σ'.log = σ.log ++ [(r.client, r.call)] ∧ σ'.counted = σ.counted ∧
      σ'.copies = σ.copies ++ (cfg.servers stor).map fun s =>
        (s, numbered ((cfg.client r.client).request r.call e) (σ.log.length + 1)) := by
  obtain ⟨e, he, hsends, hdata⟩ := h.messages.requests r (List.mem_of_getElem? hr)
  have hmaxIdx : σ.maxIdx + 1 = BitVec.ofNat 64 (σ.log.length + 1) := by
    rw [h.maxIdx]
    exact (BitVec.ofNat_add ..).symm
  have hcopies := copiesOf_request hsends r.call (σ.log.length + 1) stor σ.normBuf
  rw [← hdata, ← hmaxIdx] at hcopies
  refine ⟨{ σ with
    maxIdx := σ.maxIdx + 1
    normBuf := (LogSoftwareSwitch.appendRequest true σ.normBuf
      ⟨r.data, σ.maxIdx + 1, stor⟩).1
    copies := σ.copies ++ (cfg.servers stor).map fun s => (s, numbered r.data (σ.log.length + 1))
    log := σ.log ++ [(r.client, r.call)] }, e, ?_, he, hsends, rfl, rfl, rfl, rfl, rfl, ?_⟩
  · simp only [LogSystem.request, hr, Option.bind_eq_bind, Option.bind_some, hcopies]
    rfl
  · rw [← hdata]

/-! ## A server -/

/-- What is left alone where only the servers of `A` work. -/
structure Aside (A : Set S) (σ σ' : LogSystem C S τ) : Prop where
  clients : σ'.clients = σ.clients
  entries : σ'.entries = σ.entries
  log : σ'.log = σ.log
  servers : ∀ s, s ∉ A → σ'.servers s = σ.servers s
  copies : ∀ s, s ∉ A → ∀ data, (s, data) ∈ σ.copies → (s, data) ∈ σ'.copies

/-- A run that can be continued, in which only the servers of `A` work. -/
structure Leads (cfg : Config C S τ) (A : Set S) (σ σ' : LogSystem C S τ) : Prop where
  run : ∃ tr, (machine cfg).Run σ tr σ' ∧ ∀ x ∈ tr, Valid cfg x.1
  inv : Inv cfg σ'
  aside : Aside A σ σ'

variable {A B : Set S}

theorem Leads.refl (h : Inv cfg σ) : Leads cfg A σ σ :=
  ⟨⟨[], .nil σ, fun _ h => nomatch h⟩, h, rfl, rfl, rfl, fun _ _ => rfl, fun _ _ _ => id⟩

theorem Leads.trans {σ'' : LogSystem C S τ} (h : Leads cfg A σ σ') (h' : Leads cfg A σ' σ'') :
    Leads cfg A σ σ'' := by
  obtain ⟨tr, hrun, hvalid⟩ := h.run
  obtain ⟨tr', hrun', hvalid'⟩ := h'.run
  refine ⟨⟨tr ++ tr', hrun.append hrun', List.forall_mem_append.2 ⟨hvalid, hvalid'⟩⟩, h'.inv, ?_⟩
  constructor
  · exact h'.aside.clients.trans h.aside.clients
  · exact h'.aside.entries.trans h.aside.entries
  · exact h'.aside.log.trans h.aside.log
  · exact fun s hs => (h'.aside.servers s hs).trans (h.aside.servers s hs)
  · exact fun s hs data hm => h'.aside.copies s hs data (h.aside.copies s hs data hm)

theorem Leads.mono (h : Leads cfg A σ σ') (hsub : A ⊆ B) : Leads cfg B σ σ' where
  run := h.run
  inv := h.inv
  aside := {
    clients := h.aside.clients
    entries := h.aside.entries
    log := h.aside.log
    servers := fun s hs => h.aside.servers s fun ha => hs (hsub ha)
    copies := fun s hs => h.aside.copies s fun ha => hs (hsub ha) }

theorem Leads.single {e : Event C S τ} {done : Done C S} (hs : step cfg σ e = some (σ', done))
    (hvalid : Valid cfg e) (hinv : Inv cfg σ') (haside : Aside A σ σ') : Leads cfg A σ σ' :=
  ⟨⟨_, Machine.Run.single hs, List.forall_mem_singleton.2 hvalid⟩, hinv, haside⟩

theorem Leads.logged (h : Leads cfg A σ σ') (hlogged : Logged cfg σ n c k e) :
    Logged cfg σ' n c k e :=
  ⟨h.aside.log ▸ hlogged.number, h.aside.entries ▸ hlogged.entry, hlogged.sends⟩

theorem Leads.lt (h : Leads cfg A σ σ') (hlt : σ.log.length < 2 ^ 32) : σ'.log.length < 2 ^ 32 := by
  rwa [h.aside.log]

theorem Inv.exists_recv (h : Inv cfg σ) {data : List Byte} (hmem : (s, data) ∈ σ.copies)
    (hfree : ((σ.servers s).threads t).phase = .receiving) :
    ∃ σ', Leads cfg {s} σ σ' ∧
      ((σ'.servers s).threads t).phase = .handling [⟨cfg.appendSocket, data⟩] 0 ∧
      σ'.counted = σ.counted := by
  have hone : [(⟨cfg.appendSocket, data⟩ : Datagram)].length ≤ batchSize :=
    show 1 ≤ batchSize by decide
  obtain ⟨server, hq, -, hphase⟩ := LogStorage.exists_recv hfree hone
  have hsub : ([data].map fun data => (s, data)).Subperm σ.copies := by
    rw [List.map_singleton, List.singleton_subperm_iff]
    exact hmem
  have hs : σ.recv cfg s t [data] = some ({ σ with
      servers := Function.update σ.servers s server
      copies := σ.copies.erase (s, data) }, .internal) := by
    have hstep : (σ.servers s).step (.recv t [⟨cfg.appendSocket, data⟩]) =
      some (server, .received) := hq
    rw [LogSystem.recv, if_pos hsub]
    simp only [List.map_singleton, hstep, Option.bind_eq_bind, Option.bind_some, List.diff_cons,
      List.diff_nil]
    rfl
  refine ⟨_, .single (e := .recv s t [data]) hs trivial (h.recv hs).inv
    ⟨rfl, rfl, rfl, ?_, ?_⟩, ?_, rfl⟩
  · exact fun s' hne => Function.update_of_ne hne ..
  · intro s' hne data' hm
    exact (List.mem_erase_of_ne fun heq => hne (Prod.mk.inj heq).1).2 hm
  · simp only [Function.update_self]
    exact hphase

theorem Inv.exists_handle (h : Inv cfg σ) (hlt : σ.log.length < 2 ^ 32) {ds : List Datagram}
    {i : Nat} (hphase : ((σ.servers s).threads t).phase = .handling ds i) (hi : i < ds.length) :
    ∃ σ', Leads cfg {s} σ σ' ∧ ((σ'.servers s).threads t).phase = .handling ds (i + 1) ∧
      σ'.copies = σ.copies ∧ σ'.counted = σ.counted := by
  have hmem : ds[i] ∈ pending ((σ.servers s).threads t) := by
    simp only [pending, hphase]
    exact List.getElem_mem hi
  obtain ⟨-, n, c, k, e, hlogged, hdata⟩ := (h.servers s).pending hmem
  obtain ⟨tr, hinv, -⟩ := (h.servers s).history
  have hcarries : LogStorage.Carries ds[i] e := by
    have hcopy := carries_copy hlogged.sends (k := k) (n := n) ds[i].addr
    rwa [← hdata] at hcopy
  obtain ⟨server, old, hq, -, -, hphase'⟩ :=
    LogStorage.exists_handle hinv hphase (List.getElem?_eq_getElem hi) hcarries
  have hstep : (σ.servers s).step (.handle t) = some (server, .handled ds[i] (old.recv ds[i])) := hq
  have hs : σ.handle s t = some ({ σ with servers := Function.update σ.servers s server },
      .stored s (ds[i]).seqNo) := by
    simp only [LogSystem.handle, hstep, Option.bind_eq_bind, Option.bind_some]
    rfl
  refine ⟨_, .single (e := .handle s t) hs trivial (h.handle (by exact hlt) hs).inv
    ⟨rfl, rfl, rfl, ?_, ?_⟩, ?_, rfl, rfl⟩
  · exact fun s' hne => Function.update_of_ne hne ..
  · exact fun _ _ _ => id
  · simp only [Function.update_self]
    exact hphase'

theorem Inv.exists_send (h : Inv cfg σ) (hlt : σ.log.length < 2 ^ 32) {ds : List Datagram}
    (hphase : ((σ.servers s).threads t).phase = .handling ds ds.length) :
    ∃ σ', Leads cfg {s} σ σ' ∧ ((σ'.servers s).threads t).phase = .receiving ∧
      σ'.copies = σ.copies ∧ σ'.counted = σ.counted ∧
      ∀ d ∈ ds, (s, ⟨cfg.sendSocket s t, setType d.data (htons ethAppendResp)⟩) ∈ σ'.acks := by
  obtain ⟨tr, hinv, -⟩ := (h.servers s).history
  obtain ⟨server, acks, hq, -, hfst⟩ := LogStorage.exists_send hinv hphase
  obtain ⟨⟨slots, hserver⟩, -, hacks⟩ := h.sent hq
  have hfilter : ((acks.map Prod.snd).filter fun d => d.addr = cfg.appendSocket) =
      acks.map Prod.snd :=
    List.filter_eq_self.2 (List.forall_mem_map.2 fun a ha => decide_eq_true (hacks a ha).1)
  have hs : σ.send cfg s t = some ({ σ with
      servers := Function.update σ.servers s server
      acks := σ.acks ++ (acks.map Prod.snd).map
        fun d => (s, ⟨cfg.sendSocket s t, d.data⟩) }, .internal) := by
    simp only [LogSystem.send, hq, Option.bind_eq_bind, Option.bind_some, sentBy, hfilter]
    rfl
  refine ⟨_, .single (e := .send s t) hs trivial (h.send (by exact hlt) hs).inv
    ⟨rfl, rfl, rfl, ?_, ?_⟩, ?_, rfl, rfl, ?_⟩
  · exact fun s' hne => Function.update_of_ne hne ..
  · exact fun _ _ _ => id
  · simp only [Function.update_self, hserver, LogStorage.setThread_self]
  · intro d hd
    rw [← hfst] at hd
    obtain ⟨a, ha, rfl⟩ := List.mem_map.1 hd
    obtain ⟨-, n, c, k, e, -, -, hdata, hresp⟩ := hacks a ha
    refine List.mem_append_right _ (List.mem_map.2 ⟨a.2, List.mem_map_of_mem ha, ?_⟩)
    rw [hresp, acked, ← hdata]

/-- A thread that is at work comes to the end of its batch. -/
theorem Inv.exists_free (h : Inv cfg σ) (hlt : σ.log.length < 2 ^ 32) (s : S) (t : τ) :
    ∃ σ', Leads cfg {s} σ σ' ∧ ((σ'.servers s).threads t).phase = .receiving ∧
      σ'.copies = σ.copies ∧ σ'.counted = σ.counted := by
  cases hphase : ((σ.servers s).threads t).phase with
  | receiving => exact ⟨σ, .refl h, hphase, rfl, rfl⟩
  | handling ds i =>
    have hle : i ≤ ds.length := by
      obtain ⟨tr, hinv, -⟩ := (h.servers s).history
      have ht := hinv t
      simp only [LogStorage.ThreadInv, hphase] at ht
      exact ht.le
    obtain ⟨m, hm⟩ := Nat.exists_eq_add_of_le hle
    -- on the number of datagrams that are still to be handled
    induction m generalizing σ i with
    | zero =>
      rw [show i = ds.length by omega] at hphase
      obtain ⟨σ', hleads, hfree, hcopies, hcounted, -⟩ := h.exists_send hlt hphase
      exact ⟨σ', hleads, hfree, hcopies, hcounted⟩
    | succ m ih =>
      obtain ⟨σ₁, hleads, hphase₁, hcopies, hcounted⟩ := h.exists_handle hlt hphase (by omega)
      obtain ⟨σ', hleads', hfree, hcopies', hcounted'⟩ := ih hleads.inv (hleads.lt hlt) (i + 1)
        hphase₁ (by omega) (by omega)
      exact ⟨σ', hleads.trans hleads', hfree, hcopies'.trans hcopies, hcounted'.trans hcounted⟩

/-! ## The switch and the client -/

/-- A batch of one. -/
theorem turn_single {σ : Type} (handle : σ → Slot → σ × Slot) {b : BatchServer σ} (h : b.Ready)
    (d : Datagram) : ∃ (slot : Slot) (b' : BatchServer σ), slot.Ready ∧
      b.turn handle [d] = some (b', [(handle b.state (slot.recv d)).2.sent]) := by
  cases hslots : b.slots with
  | nil =>
    have hlen := h.length
    rw [hslots] at hlen
    cases hlen
  | cons slot slots =>
    refine ⟨slot, ⟨(handle b.state (slot.recv d)).1,
      [(handle b.state (slot.recv d)).2.reset] ++ slots⟩, ?_, ?_⟩
    · exact h.slots slot (by rw [hslots]; exact List.mem_cons_self)
    · have hone : [d].length ≤ batchSize := show 1 ≤ batchSize by decide
      have hrest : recvManyPackets slots [] = slots := by cases slots <;> rfl
      rw [BatchServer.turn, if_pos hone, hslots]
      simp only [recvManyPackets, hrest, List.length_singleton, List.take_succ_cons, List.take_zero,
        List.drop_succ_cons, List.drop_zero, handleAll, List.map_singleton]

theorem Inv.exists_respond (h : Inv cfg σ) (hlt : σ.log.length < 2 ^ 32) {addr : Address}
    (hlogged : Logged cfg σ n c k e)
    (hmem : (s, ⟨addr, acked ((cfg.client c).request k e) n⟩) ∈ σ.acks) :
    ∃ σ', Leads cfg ∅ σ σ' ∧ σ'.counted = σ.counted ++ [(s, BitVec.ofNat 64 n)] ∧
      (cfg.ackThreshold.toNat ≤ (σ'.counted.map Prod.snd).count (BitVec.ofNat 64 n) →
        (σ'.counted.map Prod.snd).count (BitVec.ofNat 64 n) < 2 ^ 64 →
        ⟨(cfg.client c).addr, acked ((cfg.client c).request k e) n⟩ ∈ σ'.responses) := by
  let a : S × Datagram := (s, ⟨addr, acked ((cfg.client c).request k e) n⟩)
  obtain ⟨slot, responder, hslot, hturn⟩ := turn_single (appendResponse cfg.ackThreshold)
    h.counting.ready a.2
  have hsub : [a].Subperm σ.acks := List.singleton_subperm_iff.2 hmem
  have hseq : a.2.seqNo = BitVec.ofNat 64 n := seqNo_ack hlogged hlt addr
  have hs : σ.respond cfg [a] = some ({ σ with
      responder := responder
      acks := σ.acks.diff [a]
      responses := σ.responses ++
        [(appendResponse cfg.ackThreshold σ.responder.state (slot.recv a.2)).2.sent]
      counted := σ.counted ++ [(s, BitVec.ofNat 64 n)] }, .internal) := by
    rw [LogSystem.respond, if_pos hsub, List.map_singleton, hturn]
    simp only [Option.bind_eq_bind, Option.bind_some, List.map_singleton, hseq]
    rfl
  refine ⟨_, .single (e := .respond [a]) hs trivial (h.respond (by exact hlt) hs).inv
    ⟨rfl, rfl, rfl, fun _ _ => rfl, fun _ _ _ => id⟩, rfl, ?_⟩
  simp only [List.map_append, List.map_singleton, List.count_append, List.count_singleton_self]
  intro hle hsmall
  have hlen : ((cfg.client c).request k e).length ≤ maxPacketSize := by
    rw [LogClient.length_request hlogged.sends]
    exact cfg.fits c
  obtain ⟨-, hdest, hresp⟩ := sent_appendResponse cfg.ackThreshold
    σ.responder.state hslot hlen (LogClient.sizeofHeaders_le_request hlogged.sends k)
    (hlogged.lt hlt) addr
  have hq : (countAck cfg.ackThreshold σ.responder.state (BitVec.ofNat 64 n)).2 = true := by
    rw [(countAck_self (h.counting.count _)).2, decide_eq_true_eq, BitVec.le_def,
      BitVec.toNat_ofNat, Nat.mod_eq_of_lt hsmall]
    exact hle
  rw [if_pos hq, LogClient.addr_request] at hdest
  refine List.mem_append_right _ (List.mem_singleton.2 ?_)
  exact (congrArg₂ Datagram.mk hdest (hresp hq)).symm

omit [DecidableEq S] [DecidableEq τ] in
theorem Inv.exists_receive (h : Inv cfg σ) (hlt : σ.log.length < 2 ^ 32)
    (hlogged : Logged cfg σ n c k e) (hwait : (σ.clients c).waiting = some .append)
    (hk : (σ.clients c).completed = k)
    (hresp : ⟨(cfg.client c).addr, acked ((cfg.client c).request k e) n⟩ ∈ σ.responses) :
    ∃ σ', σ.receive cfg c (acked ((cfg.client c).request k e) n) =
      some (σ', .returned c k (BitVec.ofNat 64 n)) ∧ (σ'.clients c).waiting = none := by
  have hclient := h.clients c
  let data := acked ((cfg.client c).request k e) n
  let buf := recvPacket (σ.clients c).normBuf data
  have hheaders : sizeofHeaders ≤ data.length := by
    rw [length_acked]
    exact LogClient.sizeofHeaders_le_request hlogged.sends k
  have htake : buf.take sizeofHeaders = data.take sizeofHeaders :=
    take_recvPacket hheaders (by decide)
  have htype : Bytes.load16 buf 0 = htons ethAppendResp := by
    refine (Bytes.load16_of_take_eq htake (by decide)).trans (Bytes.load16_store16 ?_)
    rw [length_numbered]
    exact Nat.le_trans (by decide) (LogClient.sizeofHeaders_le_request hlogged.sends k)
  have hnonce : AppendEntry.nonce buf = htonl (σ.clients c).client.appendNonce := by
    rw [hclient.client, hk]
    refine (Bytes.load32_of_take_eq htake (by decide)).trans ?_
    exact (nonce_acked _ _).trans (LogClient.nonce_request _ _ _)
  have hidx : seqNo (AppendEntry.gIdx buf) = BitVec.ofNat 64 n := by
    have hseq := seqNo_ack hlogged hlt ⟨0, 0⟩
    rw [Datagram.seqNo] at hseq
    rw [← hseq]
    exact congrArg seqNo (Bytes.load32_of_take_eq htake (by decide))
  have haccept : LogClient.Appending.accept (σ.clients c).client buf =
      some (BitVec.ofNat 64 n) := by
    rw [LogClient.Appending.accept, if_pos, hidx]
    rw [LogClient.Appending.IsResponse, htype, hnonce, ntohl_htonl]
    exact ⟨rfl, rfl⟩
  have hlast : (σ.entries c).length - 1 = k := by
    rw [hclient.calls, ← hk, LogClient.Appending.completed, hwait]
    rfl
  let s : LogClient.Appending := { σ.clients c with
    client := { (σ.clients c).client with
      appendNonce := (σ.clients c).client.appendNonce + 1 }
    waiting := none
    normBuf := buf }
  refine ⟨{ σ with clients := Function.update σ.clients c s }, ?_, ?_⟩
  · simp only [LogSystem.receive, if_pos hresp, LogClient.Appending.step, hwait,
      Option.bind_eq_bind, Option.bind_some, LogClient.Appending.settle, haccept, buf, data, hlast]
    rfl
  · simp only [Function.update_self, s]

/-! ## All servers, and the call -/

/-- A copy on the way to a server is counted in the end. -/
theorem Inv.exists_serve [Nonempty τ] (h : Inv cfg σ) (hlt : σ.log.length < 2 ^ 32)
    (hlogged : Logged cfg σ n c k e)
    (hmem : (s, numbered ((cfg.client c).request k e) n) ∈ σ.copies) :
    ∃ σ', Leads cfg {s} σ σ' ∧ σ'.counted = σ.counted ++ [(s, BitVec.ofNat 64 n)] ∧
      (cfg.ackThreshold.toNat ≤ (σ'.counted.map Prod.snd).count (BitVec.ofNat 64 n) →
        (σ'.counted.map Prod.snd).count (BitVec.ofNat 64 n) < 2 ^ 64 →
        ⟨(cfg.client c).addr, acked ((cfg.client c).request k e) n⟩ ∈ σ'.responses) := by
  obtain ⟨t⟩ := ‹Nonempty τ›
  obtain ⟨σ₁, h₁, hfree, hcopies, hcounted₁⟩ := h.exists_free hlt s t
  obtain ⟨σ₂, h₂, hphase₂, hcounted₂⟩ := h₁.inv.exists_recv (hcopies ▸ hmem) hfree
  have h₁₂ := h₁.trans h₂
  obtain ⟨σ₃, h₃, hphase₃, -, hcounted₃⟩ :=
    h₂.inv.exists_handle (h₁₂.lt hlt) hphase₂ (Nat.zero_lt_succ 0)
  have h₁₃ := h₁₂.trans h₃
  obtain ⟨σ₄, h₄, -, -, hcounted₄, hacks⟩ := h₃.inv.exists_send (h₁₃.lt hlt) hphase₃
  have h₁₄ := h₁₃.trans h₄
  obtain ⟨σ₅, h₅, hcounted₅, hresponse⟩ :=
    h₄.inv.exists_respond (h₁₄.lt hlt) (h₁₄.logged hlogged) (hacks _ (List.mem_singleton_self _))
  refine ⟨σ₅, h₁₄.trans (h₅.mono (Set.empty_subset _)), ?_, hresponse⟩
  rw [hcounted₅, hcounted₄, hcounted₃, hcounted₂, hcounted₁]

/-- One server after the other. -/
theorem Inv.exists_serveAll [Nonempty τ] (h : Inv cfg σ) (hlt : σ.log.length < 2 ^ 32)
    (hlogged : Logged cfg σ n c k e) {ss : List S} (hnodup : ss.Nodup)
    (hmem : ∀ s ∈ ss, (s, numbered ((cfg.client c).request k e) n) ∈ σ.copies) :
    ∃ σ', Leads cfg {s | s ∈ ss} σ σ' ∧
      σ'.counted = σ.counted ++ ss.map (fun s => (s, BitVec.ofNat 64 n)) ∧
      (ss ≠ [] →
        cfg.ackThreshold.toNat ≤ (σ'.counted.map Prod.snd).count (BitVec.ofNat 64 n) →
        (σ'.counted.map Prod.snd).count (BitVec.ofNat 64 n) < 2 ^ 64 →
        ⟨(cfg.client c).addr, acked ((cfg.client c).request k e) n⟩ ∈ σ'.responses) := by
  -- the last acknowledgement is the one that the response answers
  induction ss using List.reverseRecOn with
  | nil =>
    exact ⟨σ, .refl h, (List.append_nil _).symm, fun hne => absurd rfl hne⟩
  | append_singleton ss s ih =>
    obtain ⟨hss, -, hdisjoint⟩ := List.nodup_append.1 hnodup
    have hs : s ∉ ss := fun hs => hdisjoint s hs s (List.mem_singleton_self s) rfl
    obtain ⟨σ₁, h₁, hcounted₁, -⟩ := ih hss fun s' hs' => hmem s' (List.mem_append_left _ hs')
    have hcopy := h₁.aside.copies s hs _ (hmem s (List.mem_append_right _ (.head _)))
    obtain ⟨σ₂, h₂, hcounted₂, hresponse⟩ :=
      h₁.inv.exists_serve (h₁.lt hlt) (h₁.logged hlogged) hcopy
    refine ⟨σ₂, (h₁.mono ?_).trans (h₂.mono ?_), ?_, fun _ => hresponse⟩
    · exact fun s' hs' => List.mem_append_left _ hs'
    · exact fun s' hs' => List.mem_append_right _ (List.mem_singleton.2 hs')
    · rw [hcounted₂, hcounted₁, List.map_append, List.append_assoc]
      rfl

/-- A call of a client that is not waiting can be served to its end. -/
theorem Inv.exists_returned [Nonempty τ] (h : Inv cfg σ) (stor : Address)
    (hlt : σ.log.length + 1 < 2 ^ 32)
    (hidle : (σ.clients c).waiting = none) (hsends : (cfg.client c).Sends entry)
    (hservers : max 1 cfg.ackThreshold.toNat ≤ (cfg.servers stor).length) :
    ∃ tr σ' data, (machine cfg).Run σ
        ((.append c entry, .called c (σ.entries c).length) :: (tr ++
          [(.receive c data, .returned c (σ.entries c).length
            (BitVec.ofNat 64 (σ.log.length + 1)))])) σ' ∧
      (∀ x ∈ tr, Valid cfg x.1) ∧ σ'.log.length = σ.log.length + 1 ∧
      (σ'.clients c).waiting = none := by
  set k := (σ.entries c).length with hk
  set n := σ.log.length + 1 with hn
  obtain ⟨σ₁, hs₁, hwait, -, hlog₁, hcompleted, hentry, hr⟩ := h.exists_append hidle hsends
  have hinv₁ := (h.append hsends hs₁).inv
  obtain ⟨σ₂, e, hs₂, he, -, hclients₂, hentries₂, -, hlog₂, hcounted₂, hcopies₂⟩ :=
    hinv₁.exists_request hr stor
  obtain rfl : entry = e := Option.some.inj (hentry.symm.trans he)
  rw [hlog₁] at hlog₂ hcopies₂
  have hlt₂ : σ₂.log.length < 2 ^ 32 := by
    rw [hlog₂, List.length_append, List.length_singleton]
    exact hlt
  have hinv₂ := (hinv₁.request hlt₂ hs₂).inv
  have hlogged : Logged cfg σ₂ n c k entry := by
    refine ⟨⟨σ.log.length, rfl, ?_⟩, ?_, hsends⟩
    · rw [hlog₂]
      exact List.getElem?_concat_length
    · rw [hentries₂]
      exact hentry
  -- nothing has been counted for the new number
  have hfresh : (σ₂.counted.map Prod.snd).count (BitVec.ofNat 64 n) = 0 := by
    rw [hcounted₂, List.count_eq_zero]
    intro hmem
    obtain ⟨x, hx, hxn⟩ := List.mem_map.1 hmem
    have hle := hinv₁.le_of_mem_counted hx
    rw [hxn, toNat_ofNat_lt hlt, hlog₁] at hle
    omega
  -- as many of the servers as it takes
  let ss := (cfg.servers stor).take (max 1 cfg.ackThreshold.toNat)
  have hlen : ss.length = max 1 cfg.ackThreshold.toNat := List.length_take_of_le hservers
  have hcopy : ∀ s ∈ ss, (s, numbered ((cfg.client c).request k entry) n) ∈ σ₂.copies := by
    intro s hs
    rw [hcopies₂]
    exact List.mem_append_right _ (List.mem_map_of_mem (List.mem_of_mem_take hs))
  obtain ⟨σ₃, h₃, hcounted₃, hresponse⟩ := hinv₂.exists_serveAll hlt₂ hlogged
    ((cfg.nodup stor).sublist (List.take_sublist _ _)) hcopy
  have hcount : (σ₃.counted.map Prod.snd).count (BitVec.ofNat 64 n) =
      max 1 cfg.ackThreshold.toNat := by
    have hall : (ss.map fun s => (s, BitVec.ofNat 64 n)).map Prod.snd =
        List.replicate ss.length (BitVec.ofNat 64 n) := by
      rw [List.map_map]
      exact List.map_const' ..
    rw [hcounted₃, List.map_append, List.count_append, hfresh, hall, List.count_replicate_self,
      hlen, Nat.zero_add]
  have hpos : 0 < ss.length := by rw [hlen]; omega
  have hthreshold := cfg.ackThreshold.isLt
  have hmem := hresponse (List.ne_nil_of_length_pos hpos) (by rw [hcount]; omega)
    (by rw [hcount]; omega)
  obtain ⟨σ₄, hs₄, hdone⟩ := h₃.inv.exists_receive (h₃.lt hlt₂) (h₃.logged hlogged)
    (by rw [h₃.aside.clients, hclients₂]; exact hwait)
    (by rw [h₃.aside.clients, hclients₂]; exact hcompleted) hmem
  obtain ⟨tr, hrun, hvalid⟩ := h₃.run
  obtain ⟨client, o, -, -, -, hσ₄⟩ := receive_eq_some hs₄
  refine ⟨(.request σ.requests.length stor, .numbered c k) :: tr, σ₄,
    acked ((cfg.client c).request k entry) n, ?_, ?_, ?_, hdone⟩
  · have hreceive : (machine cfg).step σ₃ (.receive c _) = some (σ₄, _) := hs₄
    exact (Machine.Run.single (M := machine cfg) (e := .append c entry) hs₁).append
      (((Machine.Run.single (e := .request σ.requests.length stor) hs₂).append hrun).snoc hreceive)
  · exact List.forall_mem_cons.2 ⟨trivial, hvalid⟩
  · rw [hσ₄]
    change σ₃.log.length = n
    rw [h₃.aside.log, hlog₂, List.length_append, List.length_singleton]

end

end Pringles.Software.LogSystem
