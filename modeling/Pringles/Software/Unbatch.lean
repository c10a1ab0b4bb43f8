import Mathlib.Algebra.BigOperators.Group.List.Basic
import Pringles.Software.Read
import Pringles.Software.SendBatch

/-!
# Read responses taken out of a datagram

`Network::send_udp_packet` puts the replies of `LogStorage::read_server` one behind the other. The
switch copies the datagram and takes packets out of the copy, each of the size that its headers give.
For the storage server these are the headers of an append, for the switch the ones of a read: already
the first packet that is taken out has four bytes less than the one that was put in
(`length_unbatched`), so that no datagram is recovered (`not_recovered`).
-/

namespace Pringles.Software

open Bytes SendBatch

variable {δ : Type} {d behind normBuf recv reply : List Byte} {g : List (SendCall δ)}
  {tr : List (SendCall δ × Output δ)} {cfg : SendBatch.Config} {s s' : SendBatch} {c : SendCall δ}

/-- A packet that `read_server` has sent, with any storage and for any request. -/
def IsReadReply (reply : List Byte) : Prop :=
  ∃ stor recv, LogStorage.readServer stor recv = some reply

/-- A reply has the headers of an append in front of its entry. -/
theorem length_readServer {stor : Stor} (h : LogStorage.readServer stor recv = some reply) :
    reply.length = sizeofHeaders + ((ntohl (ReadEntry.payloadSize reply)).toNat + 1) := by
  obtain ⟨hlen, size, payload, hpayload, rfl⟩ := readServer_eq_some h
  have hpayloadSize : ReadEntry.payloadSize ((ReadEntry.setPayloadSize
      (setType recv (htons ethReadResp)) (htonl size)).take sizeofHeaders ++ payload) =
        ReadEntry.payloadSize (ReadEntry.setPayloadSize (setType recv (htons ethReadResp))
          (htonl size)) :=
    load32_of_take_eq (take_readServer size payload hlen (Nat.le_refl sizeofHeaders)) (by decide)
  have hbuflen : (ReadEntry.setPayloadSize (setType recv (htons ethReadResp))
      (htonl size)).length = recv.length := by
    rw [ReadEntry.setPayloadSize, length_store32, setType, length_store16]
  rw [hpayloadSize, payloadSize_setPayloadSize _ hlen, List.length_append, hpayload,
    List.length_take, hbuflen, Nat.min_eq_left hlen]

theorem IsReadReply.readHead_le (h : IsReadReply reply) : readHead + 4 ≤ reply.length := by
  obtain ⟨stor, recv, h⟩ := h
  rw [length_readServer h]
  have hsize : readHead + 4 = sizeofHeaders + 1 := rfl
  omega

/-- Packets that differ in the type and in the number of entries at most. -/
def SameEntry (p p' : List Byte) : Prop :=
  p.length = p'.length ∧ ∀ i, 4 ≤ i → byteAt p i = byteAt p' i

/-! ## Datagrams of replies -/

/-- Replies of `read_server` that go together. -/
structure ReplyBatch where
  packets : List (List Byte)
  replies : ∀ p ∈ packets, IsReadReply p
  nonempty : packets ≠ []
  fits : packets.flatten.length ≤ maxPacketSize

namespace ReplyBatch

variable (b : ReplyBatch) {p : List Byte} {ps : List (List Byte)}

/-- What `send_udp_packet` sends. -/
def datagram : List Byte :=
  setNumEntries b.packets.flatten (htons (BitVec.ofNat 16 b.packets.length))

@[simp] theorem length_datagram : b.datagram.length = b.packets.flatten.length := by
  rw [datagram, setNumEntries, length_store16]

theorem length_packets_lt : b.packets.length < 2 ^ 16 := by
  have hsum : (b.packets.map List.length).length ≤ (b.packets.map List.length).sum := by
    refine List.length_le_sum_of_one_le _ ?_
    intro n hn
    obtain ⟨p, hp, rfl⟩ := List.mem_map.1 hn
    exact Nat.le_trans (by decide) (b.replies p hp).readHead_le
  have hfits := b.fits
  rw [List.length_flatten, maxPacketSize] at hfits
  rw [List.length_map] at hsum
  omega

theorem readHead_le : readHead ≤ b.datagram.length := by
  obtain ⟨p, ps, hp⟩ := List.exists_cons_of_ne_nil b.nonempty
  have hlen := (b.replies p (hp ▸ List.mem_cons_self)).readHead_le
  rw [length_datagram, hp, List.flatten_cons, List.length_append]
  omega

/-- The head of the datagram is the one of its first reply, the number of entries aside. -/
theorem payloadSize_datagram (hp : b.packets = p :: ps) :
    ReadEntry.payloadSize b.datagram = ReadEntry.payloadSize p := by
  have hlen := (b.replies p (hp ▸ List.mem_cons_self)).readHead_le
  rw [datagram, hp, List.flatten_cons, ReadEntry.payloadSize, setNumEntries,
    load32_store16_ne (.inr (by decide))]
  refine load32_congr fun i _ hi => byteAt_append_left ?_
  have hend : sizeofRingType + 4 + 4 ≤ readHead := by decide
  omega

theorem numEntries_datagram :
    numEntries b.datagram = htons (BitVec.ofNat 16 b.packets.length) := by
  have hlen := b.readHead_le
  rw [length_datagram] at hlen
  rw [datagram, numEntries, setNumEntries, load16_store16]
  exact Nat.le_trans (by decide) hlen

theorem toNat_numEntries : (ntohs (numEntries b.datagram)).toNat = b.packets.length := by
  rw [numEntries_datagram, ntohs_htons, BitVec.toNat_ofNat, Nat.mod_eq_of_lt b.length_packets_lt]

end ReplyBatch

namespace LogSoftwareSwitch

/-- The number of bytes that `receiver` copies. -/
def copySize (buf : List Byte) : Nat := (numEntries buf).toNat * readPktSize buf

/-- The offset at which the loop of `read_response` ends, when it begins at `off`. -/
def readUpTo (recv : List Byte) : Nat → Nat → Nat
  | 0, off => off
  | n + 1, off => readUpTo recv n (off + readPktSize (recv.drop off))

/-- The packets that the switch takes out of a datagram. -/
def unbatch (normBuf d behind : List Byte) : List (List Byte) :=
  (readResponse (receiver normBuf d behind)).map Prod.snd

/-- The packets are taken out of the datagram, and nothing behind it is read. -/
structure Recovers (normBuf d behind : List Byte) (packets : List (List Byte)) : Prop where
  entries : List.Forall₂ SameEntry (unbatch normBuf d behind) packets
  copied : copySize (recvPacket normBuf d) ≤ d.length
  read : readUpTo (receiver normBuf d behind)
    (ntohs (numEntries (receiver normBuf d behind))).toNat 0 ≤ copySize (recvPacket normBuf d)

/-! ## The first packet -/

/-- The copy of the switch has the head of the datagram. -/
theorem take_receiver_datagram (b : ReplyBatch) (normBuf behind : List Byte) :
    (receiver normBuf b.datagram behind).take readHead = b.datagram.take readHead := by
  have hdlen := b.readHead_le
  have hbuf : (recvPacket normBuf b.datagram).take readHead = b.datagram.take readHead :=
    take_recvPacket hdlen (by decide)
  have hpos : 0 < (numEntries (recvPacket normBuf b.datagram)).toNat := by
    rw [numEntries, load16_of_take_eq hbuf (by decide)]
    refine Nat.pos_of_ne_zero fun hzero => b.nonempty ?_
    have hnum : numEntries b.datagram = 0 := BitVec.eq_of_toNat_eq hzero
    have hcount := b.toNat_numEntries
    rw [hnum] at hcount
    exact List.length_eq_zero_iff.1 hcount.symm
  have hbuflen : readHead ≤ (recvPacket normBuf b.datagram).length := by
    have hlen' := congrArg List.length hbuf
    rw [List.length_take, List.length_take, Nat.min_eq_left hdlen] at hlen'
    omega
  exact (take_copy hbuflen hpos behind).trans hbuf

/-- The switch takes as many packets out of the copy as there are replies. -/
theorem readResponse_datagram (b : ReplyBatch) (normBuf behind : List Byte) :
    readResponse (receiver normBuf b.datagram behind) =
      responses (setType (receiver normBuf b.datagram behind) (ntohs ethReadResp))
        b.packets.length 0 := by
  rw [readResponse, numEntries, load16_of_take_eq (take_receiver_datagram b normBuf behind)
    (by decide), ← numEntries, b.toNat_numEntries]

/-- The first packet has four bytes less than the first reply. -/
theorem readPktSize_copy {b : ReplyBatch} {p : List Byte} {ps : List (List Byte)}
    (hp : b.packets = p :: ps) (normBuf behind : List Byte) :
    readPktSize (setType (receiver normBuf b.datagram behind) (ntohs ethReadResp)) + 4 =
      p.length := by
  obtain ⟨stor, request, hanswer⟩ := b.replies p (hp ▸ List.mem_cons_self)
  have hpayload : ReadEntry.payloadSize (setType (receiver normBuf b.datagram behind)
      (ntohs ethReadResp)) = ReadEntry.payloadSize p := by
    rw [← b.payloadSize_datagram hp, ReadEntry.payloadSize, setType,
      load32_store16_ne (.inr (by decide))]
    exact load32_of_take_eq (take_receiver_datagram b normBuf behind) (by decide)
  have hfour : sizeofHeaders = sizeofRingType + sizeofRingReadEntry + 4 := rfl
  rw [length_readServer hanswer, readPktSize, hpayload]
  omega

/-- The first packet that is taken out of a datagram is too short. -/
theorem length_unbatched {b : ReplyBatch} {p : List Byte} {ps : List (List Byte)}
    (hp : b.packets = p :: ps) (normBuf behind : List Byte) : ∃ first packets,
      unbatch normBuf b.datagram behind = first :: packets ∧ first.length + 4 ≤ p.length := by
  have hsize := readPktSize_copy hp normBuf behind
  rw [unbatch, readResponse_datagram, hp, List.length_cons, responses, List.map_cons, List.drop_zero]
  generalize setType (receiver normBuf b.datagram behind) (ntohs ethReadResp) = buf at hsize
  refine ⟨buf.take (readPktSize buf), _, rfl, ?_⟩
  have htake := List.length_take_le (readPktSize buf) buf
  omega

/-- What is taken out of a datagram is not what was put in. -/
theorem not_recovers (b : ReplyBatch) (normBuf behind : List Byte) :
    ¬ Recovers normBuf b.datagram behind b.packets := by
  intro hrecovers
  obtain ⟨p, ps, hp⟩ := List.exists_cons_of_ne_nil b.nonempty
  obtain ⟨first, packets, heq, hshort⟩ := length_unbatched hp normBuf behind
  have hentries := hrecovers.entries
  rw [heq, hp, List.forall₂_cons] at hentries
  have hsame := hentries.1.1
  omega

/-- The datagrams of a sender are batches of its replies. -/
theorem replyBatches_run (hr : (SendBatch.machine δ cfg).Run s tr s') (h : s.Fresh)
    (hreply : ∀ x ∈ tr, x.1.packet ≠ [] → IsReadReply x.1.packet) :
    List.Forall₂ (fun d g => ∃ b : ReplyBatch, b.packets = g.map SendCall.packet ∧ d.2 = b.datagram)
      (datagrams tr) (batches tr).closed := by
  refine Grouping.forall₂_group_iff.2 ?_
  intro pre x post heq d hd
  subst heq
  obtain ⟨hm, hoff, m, hs⟩ := holds_at hr h
  rw [hd] at hs
  obtain ⟨hne, hle, rfl⟩ := hm.sent hoff hs
  have hbytes : ∀ g : List (SendCall δ), bytes g = (g.map SendCall.packet).flatten :=
    fun _ => List.flatMap_def
  refine ⟨⟨_, ?_, mt List.map_eq_nil_iff.1 hne, hbytes _ ▸ hle⟩, rfl, ?_⟩
  · intro p hp
    obtain ⟨c, hc, rfl⟩ := List.mem_map.1 hp
    obtain ⟨y, hy, rfl, hpacket⟩ := mem_opened_snoc hc
    refine hreply y ?_ hpacket
    rw [List.append_cons]
    exact List.mem_append_left _ hy
  · rw [ReplyBatch.datagram, List.length_map, ← hbytes]

/-- **No datagram of read responses is recovered**, in any run of the sender, whatever the switch has
in its buffer and behind its copy. -/
theorem not_recovered (hr : (SendBatch.machine δ cfg).Run s tr s') (h : s.Fresh)
    (hreply : ∀ x ∈ tr, x.1.packet ≠ [] → IsReadReply x.1.packet) :
    List.Forall₂ (fun d g => ∀ normBuf behind,
      ¬ Recovers normBuf d.2 behind (g.map SendCall.packet)) (datagrams tr) (batches tr).closed := by
  refine (replyBatches_run hr h hreply).imp ?_
  rintro d g ⟨b, hb, hd⟩ normBuf behind
  rw [hd, ← hb]
  exact not_recovers b normBuf behind

/-! ## One response -/

/-- The reply to a read of an entry of one character. -/
theorem sample_reply : ∃ reply, IsReadReply reply ∧ reply.length = 66 := by
  have hlen : (LogStorage.readServer (fun _ => some [65])
      (Software.receiver [] ((LogClient.sampleClient 1).readPacket 1) [0, 0, 0])).map List.length =
        some 66 := rfl
  obtain ⟨reply, hreply, hlen⟩ := Option.map_eq_some_iff.1 hlen
  exact ⟨reply, ⟨_, _, hreply⟩, hlen⟩

/-- A call without batches sends its packet. -/
theorem one_call (c : SendCall δ) (hne : c.packet ≠ [])
    (hle : c.packet.length ≤ maxPacketSize) : ∃ tr s, (SendBatch.machine δ ⟨false, 1⟩).Run
      emptyBatch tr s ∧ tr.map Prod.fst = [c] ∧ (batches tr).closed = [ [c] ] ∧
        datagrams tr = [(c.dest, setNumEntries (bytes [c]) (htons 1))] := by
  have h : emptyBatch.Holds ([] : List (SendCall δ)) := fresh_emptyBatch.holds
  have hgiven : given c = [c] := if_neg hne
  have hsend : ∃ s o, emptyBatch.sendUdpPacket ⟨false, 1⟩ c = some (s, o) := by
    refine h.exists_send (fun _ => rfl) ?_
    rw [fresh_emptyBatch.size, Nat.zero_add]
    exact hle
  obtain ⟨s, o, hs⟩ := hsend
  rcases h.send (fun _ => rfl) hs with ⟨-, -, hnil⟩ | ⟨-, -, -, rfl⟩
  · exact absurd (hnil rfl) (by rw [hgiven]; exact List.cons_ne_nil _ _)
  · refine ⟨_, s, .single (machine_step hs), rfl, ?_, ?_⟩
    · rw [← hgiven]
      rfl
    · rw [hgiven]
      rfl

/-- One response, in a datagram of its own, is not recovered. -/
theorem not_recovered_one : ∃ tr s, (SendBatch.machine Nat ⟨false, 1⟩).Run emptyBatch tr s ∧
    (batches tr).closed ≠ [] ∧ List.Forall₂ (fun d g => ∀ normBuf behind,
      ¬ Recovers normBuf d.2 behind (g.map SendCall.packet)) (datagrams tr) (batches tr).closed := by
  obtain ⟨reply, hreply, hlen⟩ := sample_reply
  have hne : reply ≠ [] := List.ne_nil_of_length_pos (by omega)
  obtain ⟨tr, s, hr, hcalls, hclosed, -⟩ :=
    one_call (⟨0, reply, true⟩ : SendCall Nat) hne (by rw [hlen]; decide)
  refine ⟨tr, s, hr, by rw [hclosed]; exact List.cons_ne_nil _ _, ?_⟩
  refine not_recovered hr fresh_emptyBatch fun x hx _ => ?_
  have hmem : x.1 ∈ tr.map Prod.fst := List.mem_map_of_mem hx
  rw [hcalls, List.mem_singleton] at hmem
  rw [hmem]
  exact hreply

/-- A reply of 66 bytes goes out, and one of at most 62 is taken out of its datagram. -/
theorem one_response_cut : ∃ reply tr s d, IsReadReply reply ∧ reply.length = 66 ∧
    (SendBatch.machine Nat ⟨false, 1⟩).Run emptyBatch tr s ∧
      tr.map Prod.fst = [⟨0, reply, true⟩] ∧ datagrams tr = [(0, d)] ∧
        ∀ normBuf behind, ¬ Recovers normBuf d behind [reply] ∧
          ∃ first packets, unbatch normBuf d behind = first :: packets ∧ first.length ≤ 62 := by
  obtain ⟨reply, hreply, hlen⟩ := sample_reply
  have hle : reply.length ≤ maxPacketSize := by
    rw [hlen]
    decide
  have hne : reply ≠ [] := List.ne_nil_of_length_pos (by omega)
  obtain ⟨tr, s, hr, hcalls, -, hdatagrams⟩ := one_call (⟨0, reply, true⟩ : SendCall Nat) hne hle
  have hone : bytes [(⟨0, reply, true⟩ : SendCall Nat)] = [reply].flatten :=
    List.flatMap_def
  let b : ReplyBatch := ⟨[reply], by simpa using hreply, List.cons_ne_nil _ _, by simpa using hle⟩
  refine ⟨reply, tr, s, b.datagram, hreply, hlen, hr, hcalls, ?_, fun normBuf behind => ⟨?_, ?_⟩⟩
  · rw [hdatagrams, hone]
    rfl
  · exact not_recovers b normBuf behind
  · obtain ⟨first, packets, heq, hshort⟩ := length_unbatched (b := b) rfl normBuf behind
    exact ⟨first, packets, heq, by omega⟩

end LogSoftwareSwitch

end Pringles.Software
