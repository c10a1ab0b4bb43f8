import Pringles.Software.Unbatch

/-!
# Read responses for several clients

A datagram of `read_server` may hold replies to several clients. The switch sends each packet that it
takes out of the datagram to the client that it finds in there. For the first packet that is the
client of the first reply. The second packet begins four bytes early: its address is what lies in
front of the address in the second reply, whoever that reply is for. So a datagram is answered right,
whatever clients its replies are for, only if it holds a single one (`addresses_iff`).
-/

namespace Pringles.Software

open Bytes SendBatch

namespace ReadEntry

/-- The client that waits for an answer. -/
def requester (buf : List Byte) : Address := ⟨clientIp buf, recvPort buf⟩

/-- The same packet for the client at `a`. -/
def setRequester (buf : List Byte) (a : Address) : List Byte :=
  store32 (store16 buf (sizeofRingType + 28) a.port) (sizeofRingType + 32) a.ip

variable {buf rest : List Byte} {a : Address} {n : Nat}

@[simp] theorem length_setRequester (buf : List Byte) (a : Address) :
    (setRequester buf a).length = buf.length := by
  rw [setRequester, length_store32, length_store16]

theorem requester_setRequester (h : readHead ≤ buf.length) :
    requester (setRequester buf a) = a := by
  have hip : clientIp (setRequester buf a) = a.ip :=
    load32_store32 (by rw [length_store16]; exact Nat.le_trans (by decide) h)
  have hport : recvPort (setRequester buf a) = a.port :=
    (load16_store32_ne (.inl (by decide))).trans (load16_store16 (Nat.le_trans (by decide) h))
  rw [requester, hip, hport]

theorem take_setRequester (buf : List Byte) (a : Address) (n : Nat) :
    (setRequester buf a).take n = setRequester (buf.take n) a := by
  rw [setRequester, take_store32, take_store16, setRequester]

theorem setRequester_append (h : readHead ≤ buf.length) :
    setRequester (buf ++ rest) a = setRequester buf a ++ rest := by
  rw [setRequester, store16_append (Nat.le_trans (by decide) h), store32_append, setRequester]
  rw [length_store16]
  exact Nat.le_trans (by decide) h

theorem setType_setRequester (v : BitVec 16) :
    setType (setRequester buf a) v = setRequester (setType buf v) a := by
  rw [setType, setRequester, store16_store32_comm (by decide), store16_store16_comm (by decide)]
  rfl

theorem setPayloadSize_setRequester (v : BitVec 32) :
    setPayloadSize (setRequester buf a) v = setRequester (setPayloadSize buf v) a := by
  rw [setPayloadSize, setRequester, store32_store32_comm (by decide),
    ← store16_store32_comm (by decide)]
  rfl

theorem gIdx_setRequester : gIdx (setRequester buf a) = gIdx buf :=
  (load32_store32_ne (.inl (by decide))).trans (load32_store16_ne (.inl (by decide)))

theorem payloadSize_setRequester : payloadSize (setRequester buf a) = payloadSize buf :=
  (load32_store32_ne (.inl (by decide))).trans (load32_store16_ne (.inl (by decide)))

end ReadEntry

open ReadEntry

variable {behind normBuf reply d d' : List Byte} {a : Address} {rs : List Address} {n k : Nat}

/-- A reply to one client is a reply to another, when the request came from there. -/
theorem IsReadReply.setRequester (h : IsReadReply reply) (a : Address) :
    IsReadReply (setRequester reply a) := by
  obtain ⟨stor, recv, h⟩ := h
  refine ⟨stor, ReadEntry.setRequester recv a, ?_⟩
  unfold LogStorage.readServer at h ⊢
  split at h
  · next hlen =>
    rw [if_pos (by rwa [length_setRequester])]
    simp only [setType_setRequester, gIdx_setRequester, setPayloadSize_setRequester,
      payloadSize_setRequester, ← List.take_add] at h ⊢
    rw [← Option.some.inj h, take_setRequester, setRequester_append]
    rw [List.length_take, ReadEntry.setPayloadSize, length_store32, setType, length_store16]
    exact Nat.le_min.2 ⟨by decide, Nat.le_trans (by decide) hlen⟩
  · cases h

/-! ## Buffers that begin alike -/

theorem take_append_congr (hlen : d.length = d'.length) (h : d.take n = d'.take n)
    (rest : List Byte) : (d ++ rest).take n = (d' ++ rest).take n := by
  rw [List.take_append, List.take_append, h, hlen]

theorem take_take_congr (h : d.take n = d'.take n) (k : Nat) :
    (d.take k).take n = (d'.take k).take n := by
  rw [List.take_take, Nat.min_comm, ← List.take_take, h, List.take_take, Nat.min_comm,
    ← List.take_take]

/-- Datagrams of one length that begin alike leave copies that begin alike. -/
theorem take_receiver_congr (hlen : d.length = d'.length) (hn : readHead ≤ n)
    (h : d.take n = d'.take n) (normBuf behind : List Byte) :
    (LogSoftwareSwitch.receiver normBuf d behind).take n =
      (LogSoftwareSwitch.receiver normBuf d' behind).take n := by
  have hcut : (d.take maxPacketSize).length = (d'.take maxPacketSize).length := by
    rw [List.length_take, List.length_take, hlen]
  have hbuf : (recvPacket normBuf d).take n = (recvPacket normBuf d').take n := by
    unfold recvPacket
    simp only [hcut]
    exact take_append_congr hcut (take_take_congr h _) _
  have hbuflen : (recvPacket normBuf d).length = (recvPacket normBuf d').length := by
    simp only [recvPacket, List.length_append, hcut]
  have hhead : sizeofRingType + 4 + 4 ≤ readHead := by decide
  have hsize : readPktSize (recvPacket normBuf d) = readPktSize (recvPacket normBuf d') := by
    rw [readPktSize, readPktSize, ReadEntry.payloadSize, load32_of_take_eq hbuf (by omega)]
    rfl
  have hnum : numEntries (recvPacket normBuf d) = numEntries (recvPacket normBuf d') :=
    load16_of_take_eq hbuf (Nat.le_trans (by decide) hn)
  unfold LogSoftwareSwitch.receiver
  simp only [hsize, hnum]
  refine take_append_congr ?_ (take_take_congr hbuf _) _
  rw [List.length_take, List.length_take, hbuflen]

/-- The clients make no difference to the sizes. -/
theorem length_flatten_setRequester {packets : List (List Byte)} (h : rs.length = packets.length) :
    ((packets.zip rs).map fun q => setRequester q.1 q.2).flatten.length =
      packets.flatten.length := by
  have hsame := congrArg (List.map List.length) (List.map_fst_zip (Nat.le_of_eq h.symm))
  rw [List.map_map] at hsame
  rw [List.length_flatten, List.length_flatten, List.map_map]
  simp only [Function.comp_def, length_setRequester] at hsame ⊢
  rw [hsame]

namespace ReplyBatch

variable {b : ReplyBatch} {p p' : List Byte} {ps : List (List Byte)}

/-- The same replies for the clients `rs`. -/
def forClients (b : ReplyBatch) (rs : List Address) (h : rs.length = b.packets.length) :
    ReplyBatch where
  packets := (b.packets.zip rs).map fun q => setRequester q.1 q.2
  replies := by
    intro p hp
    obtain ⟨q, hq, rfl⟩ := List.mem_map.1 hp
    exact (b.replies q.1 (List.of_mem_zip hq).1).setRequester q.2
  nonempty := by
    have hpos := List.length_pos_iff.2 b.nonempty
    refine List.ne_nil_of_length_pos ?_
    rw [List.length_map, List.length_zip, h, Nat.min_self]
    exact hpos
  fits := by
    rw [length_flatten_setRequester h]
    exact b.fits

/-- The clients that the replies are for. -/
def clients (b : ReplyBatch) : List Address := b.packets.map requester

/-- Where the switch sends the packets that it takes out of the datagram. -/
def addresses (b : ReplyBatch) (normBuf behind : List Byte) : List Address :=
  (LogSoftwareSwitch.readResponse
    (LogSoftwareSwitch.receiver normBuf b.datagram behind)).map Prod.fst

theorem clients_forClients (h : rs.length = b.packets.length) : (b.forClients rs h).clients = rs := by
  have hsnd := List.map_snd_zip (Nat.le_of_eq h)
  rw [clients, forClients, List.map_map]
  refine Eq.trans (List.map_congr_left ?_) hsnd
  intro q hq
  refine requester_setRequester ?_
  have hlen := (b.replies q.1 (List.of_mem_zip hq).1).readHead_le
  omega

/-! ## The first two packets -/

theorem addresses_eq (b : ReplyBatch) (normBuf behind : List Byte) : b.addresses normBuf behind =
    (LogSoftwareSwitch.responses (setType (LogSoftwareSwitch.receiver normBuf b.datagram behind)
      (ntohs ethReadResp)) b.packets.length 0).map Prod.fst := by
  rw [addresses, LogSoftwareSwitch.readResponse_datagram]

/-- A single reply goes to its client. -/
theorem addresses_single (hp : b.packets = [p]) (normBuf behind : List Byte) :
    b.addresses normBuf behind = b.clients := by
  have hcopy := LogSoftwareSwitch.take_receiver_datagram b normBuf behind
  have hdatagram : b.datagram = setNumEntries p (htons (BitVec.ofNat 16 b.packets.length)) := by
    rw [datagram, hp, List.flatten_cons, List.flatten_nil, List.append_nil]
  rw [addresses_eq, clients, hp]
  generalize LogSoftwareSwitch.receiver normBuf b.datagram behind = copy at hcopy
  have hip : clientIp (setType copy (ntohs ethReadResp)) = clientIp p := by
    rw [clientIp, setType, load32_store16_ne (.inr (by decide)), load32_of_take_eq hcopy (by decide),
      hdatagram, setNumEntries, load32_store16_ne (.inr (by decide))]
    rfl
  have hport : recvPort (setType copy (ntohs ethReadResp)) = recvPort p := by
    rw [recvPort, setType, load16_store16_ne (.inr (by decide)), load16_of_take_eq hcopy (by decide),
      hdatagram, setNumEntries, load16_store16_ne (.inr (by decide))]
    rfl
  simp only [List.length_singleton, LogSoftwareSwitch.responses, List.drop_zero, List.map_cons,
    List.map_nil, hip, hport, requester]

/-- The address of the second packet comes from four bytes before the one in the second reply. -/
theorem second_address (hp : b.packets = p :: p' :: ps) (normBuf behind : List Byte) :
    ∃ first port rest, b.addresses normBuf behind = first ::
      ⟨load32 (LogSoftwareSwitch.receiver normBuf b.datagram behind) (p.length + 44), port⟩ ::
        rest := by
  have hsize := LogSoftwareSwitch.readPktSize_copy hp normBuf behind
  rw [addresses_eq, hp]
  simp only [List.length_cons, LogSoftwareSwitch.responses, List.drop_zero, List.map_cons,
    Nat.zero_add]
  refine ⟨_, _, _, congrArg (_ :: ·) (congrArg (· :: _) (congrArg (Address.mk · _) ?_))⟩
  have hoff : readPktSize (setType (LogSoftwareSwitch.receiver normBuf b.datagram behind)
      (ntohs ethReadResp)) + (sizeofRingType + 32) = p.length + 44 := by
    rw [← hsize, sizeofRingType]
  rw [clientIp, load32_drop, hoff, setType, load32_store16_ne (.inr (by omega))]

theorem packets_forClients (hp : b.packets = p :: p' :: ps) {a a' : Address} {rs : List Address}
    (h : (a :: a' :: rs).length = b.packets.length) :
    (b.forClients _ h).packets = setRequester p a :: setRequester p' a' ::
      (ps.zip rs).map fun q => setRequester q.1 q.2 := by
  simp [forClients, hp]

/-- Up to that address, the datagram does not depend on the address in the second reply. -/
theorem take_datagram (hp : b.packets = p :: p' :: ps) {a : Address} {ip : BitVec 32}
    {port : BitVec 16} {rs : List Address} (h : (a :: ⟨ip, port⟩ :: rs).length = b.packets.length) :
    (b.forClients _ h).datagram.take (p.length + 48) =
      setNumEntries (setRequester p a ++ store16 (p'.take 48) (sizeofRingType + 28) port)
        (htons (BitVec.ofNat 16 b.packets.length)) := by
  have hlen : 48 ≤ p'.length := by
    have hread := (b.replies p' (by simp [hp])).readHead_le
    have h48 : 48 ≤ readHead := by decide
    omega
  have hcount : (b.forClients _ h).packets.length = b.packets.length := by
    rw [forClients, List.length_map, List.length_zip, h, Nat.min_self]
  have htake : (setRequester p' ⟨ip, port⟩).take 48 =
      store16 (p'.take 48) (sizeofRingType + 28) port := by
    rw [take_setRequester, setRequester, store32_of_length_le]
    rw [length_store16, List.length_take, Nat.min_eq_left hlen]
    decide
  rw [datagram, hcount, packets_forClients hp, setNumEntries, take_store16, List.flatten_cons,
    List.flatten_cons, ← length_setRequester p a, List.take_length_add_append,
    List.take_append_of_le_length (by rwa [length_setRequester]), htake, setNumEntries]

/-- The clients of a datagram whose second reply is for one at `ip`. -/
def secondAt (n : Nat) (ip : BitVec 32) : List Address :=
  ⟨0, 0⟩ :: ⟨ip, 0⟩ :: List.replicate n ⟨0, 0⟩

/-- Of two second clients with one port, the switch does not see the difference. -/
theorem misaddressed {ps : List (List Byte)} {p p' : List Byte} (hp : b.packets = p :: p' :: ps)
    (normBuf behind : List Byte) : ∃ rs h,
      (b.forClients rs h).addresses normBuf behind ≠ (b.forClients rs h).clients := by
  have hrs : ∀ ip, (secondAt ps.length ip).length = b.packets.length := by simp [secondAt, hp]
  by_contra! hall
  have hread : ∀ ip, load32 (LogSoftwareSwitch.receiver normBuf
      (b.forClients _ (hrs ip)).datagram behind) (p.length + 44) = ip := by
    intro ip
    obtain ⟨first, port, rest, heq⟩ :=
      second_address (packets_forClients hp (hrs ip)) normBuf behind
    have hright := heq.symm.trans (hall _ (hrs ip))
    rw [clients_forClients] at hright
    simp only [secondAt, List.cons.injEq, Address.mk.injEq, length_setRequester] at hright
    exact hright.2.1.1
  -- the datagrams of the two differ behind what is read only
  have hsame : (LogSoftwareSwitch.receiver normBuf (b.forClients _ (hrs 0)).datagram
      behind).take (p.length + 48) = (LogSoftwareSwitch.receiver normBuf
        (b.forClients _ (hrs 1)).datagram behind).take (p.length + 48) := by
    refine take_receiver_congr ?_ ?_ ?_ _ _
    · simp only [length_datagram, forClients, length_flatten_setRequester (hrs _)]
    · have hlen := (b.replies p (hp ▸ List.mem_cons_self)).readHead_le
      omega
    · exact (take_datagram hp (hrs 0)).trans (take_datagram hp (hrs 1)).symm
  have heq := load32_of_take_eq hsame (Nat.le_refl (p.length + 44 + 4))
  rw [hread, hread] at heq
  exact absurd heq (by decide)

/-- **A datagram is answered right, whatever clients its replies are for, only if it holds a single
one.** -/
theorem addresses_iff (b : ReplyBatch) (normBuf behind : List Byte) :
    (∀ rs h, (b.forClients rs h).addresses normBuf behind = (b.forClients rs h).clients) ↔
      b.packets.length ≤ 1 := by
  constructor
  · intro hall
    match hp : b.packets with
    | [] => exact Nat.zero_le 1
    | [_] => exact Nat.le_refl 1
    | p :: p' :: ps =>
      obtain ⟨rs, h, hne⟩ := misaddressed hp normBuf behind
      exact absurd (hall rs h) hne
  · intro hle rs h
    obtain ⟨p, hp⟩ : ∃ p, (b.forClients rs h).packets = [p] := by
      refine List.length_eq_one_iff.1 (Nat.le_antisymm ?_ ?_)
      · rw [forClients, List.length_map, List.length_zip, h, Nat.min_self]
        exact hle
      · exact List.length_pos_iff.2 (b.forClients rs h).nonempty
    exact addresses_single hp normBuf behind

end ReplyBatch

end Pringles.Software
