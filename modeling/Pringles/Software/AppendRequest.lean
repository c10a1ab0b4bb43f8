import Pringles.Software.Network

/-!
# The requests that the software switch forwards

A thread of `append_request` receives every datagram into the same buffer, `norm_buf`, which it does
not clear. It stamps the sequence number on the headers and forwards as many bytes as the headers say
that there are, whatever has arrived: when the datagram is shorter than that, its tail is what
earlier datagrams have left in the buffer, and behind `MAX_PACKET_SIZE` whatever lies there. What it
forwards is the datagram's own exactly when the datagram is as long as its headers say
(`isolated_iff`).
-/

namespace Pringles.Software.LogSoftwareSwitch

open Bytes

/-- What a thread of `append_request` goes by: a datagram, what it then loads from `max_idx`, and
the storage servers or the shard that it chooses. -/
structure Request where
  data : List Byte
  maxIdx : BitVec 64
  stor : Address

/-- `pkt_size`. -/
def pktSize (buf : List Byte) : Nat :=
  sizeofRingType + sizeofRingAppendEntry + (ntohl (AppendEntry.payloadSize buf)).toNat + 1

/-- Where the buffer goes: to the storage servers, or back to the client as a response. -/
def route (useStore : Bool) (stor : Address) (buf : List Byte) : List Byte × Address :=
  if useStore then (buf, stor)
  else (setType buf (ntohs ethAppendResp), ⟨AppendEntry.clientIp buf, AppendEntry.recvPort buf⟩)

/-- The body of the loop in `LogSoftwareSwitch::append_request`. -/
def appendRequest (useStore : Bool) (normBuf : List Byte) (r : Request) : List Byte × Option Sent :=
  let buf := AppendEntry.setGIdx (recvPacket normBuf r.data) (htonl (r.maxIdx.truncate 32))
  let q := route useStore r.stor buf
  (q.1, sendto q.2 q.1 (pktSize buf))

/-- A thread, with its buffer as the state. -/
def machine (useStore : Bool) : Machine (List Byte) Request (Option Sent) :=
  ⟨fun normBuf r => some (appendRequest useStore normBuf r)⟩

/-- `d` is as long as its headers say, or they say more than a datagram can carry. A byte that is
missing from them counts as zero. -/
def Fits (d : List Byte) : Prop := pktSize d ≤ d.length ∨ maxUdpPayload < pktSize d

instance (d : List Byte) : Decidable (Fits d) := inferInstanceAs (Decidable (_ ∨ _))

/-- What the machine has received are datagrams. -/
def Received (tr : List (Request × Option Sent)) : Prop :=
  ∀ x ∈ tr, 0 < x.1.data.length ∧ x.1.data.length ≤ maxPacketSize

variable {useStore : Bool} {normBuf rest d buf buf' m : List Byte} {r : Request} {stor : Address}
  {tr : List (Request × Option Sent)} {s : Sent} {n : Nat}

/-! ## The buffer -/

@[simp] theorem length_setGIdx (buf : List Byte) (v : BitVec 32) :
    (AppendEntry.setGIdx buf v).length = buf.length := length_store32 v

theorem length_route (useStore : Bool) (stor : Address) (buf : List Byte) :
    (route useStore stor buf).1.length = buf.length := by
  unfold route
  split
  · rfl
  · exact length_store16 _

/-! ## The size -/

/-- Bytes that the stamped number does not touch. -/
theorem payloadSize_setGIdx (buf : List Byte) (v : BitVec 32) :
    AppendEntry.payloadSize (AppendEntry.setGIdx buf v) = AppendEntry.payloadSize buf := by
  refine load32_congr ?_
  intro i _ hi
  simp only [sizeofRingType] at hi
  exact byteAt_store32_ne (.inl (by simp only [sizeofRingType]; omega))

theorem pktSize_setGIdx (buf : List Byte) (v : BitVec 32) :
    pktSize (AppendEntry.setGIdx buf v) = pktSize buf := by
  rw [pktSize, payloadSize_setGIdx]
  rfl

/-- More bytes make the claimed size larger at most. -/
theorem pktSize_le_append (d rest : List Byte) : pktSize d ≤ pktSize (d ++ rest) := by
  have hbyte : ∀ i, (byteAt d i).toNat ≤ (byteAt (d ++ rest) i).toNat := by
    intro i
    by_cases hi : i < d.length
    · rw [byteAt_append_left hi]
    · rw [byteAt_of_le (by omega)]
      exact Nat.zero_le _
  have h0 := hbyte (sizeofRingType + 4)
  have h1 := hbyte (sizeofRingType + 4 + 1)
  have h2 := hbyte (sizeofRingType + 4 + 2)
  have h3 := hbyte (sizeofRingType + 4 + 3)
  simp only [pktSize, AppendEntry.payloadSize, toNat_ntohl_load32]
  omega

/-! ## A datagram that fits -/

/-- What follows the headers has no part in where a buffer goes. -/
theorem route_append (h : sizeofHeaders ≤ d.length) :
    route useStore stor (d ++ rest) =
      ((route useStore stor d).1 ++ rest, (route useStore stor d).2) := by
  have hheaders : SameHeaders (d ++ rest) d := SameHeaders.append_left h
  have htwo : 0 + 2 ≤ d.length := Nat.le_trans (by decide) h
  unfold route
  split
  · rfl
  · rw [hheaders.clientIp, hheaders.recvPort, setType, store16_append htwo]
    rfl

theorem sendto_append {dest : Address} (h : n ≤ d.length) :
    sendto dest (d ++ rest) n = sendto dest d n := by
  rw [sendto, sendto, List.take_append_of_le_length h]

/-- Of a datagram that is as long as its headers say, nothing else is forwarded. -/
theorem appendRequest_of_le (hlen : r.data.length ≤ maxPacketSize)
    (h : pktSize r.data ≤ r.data.length) :
    (appendRequest useStore normBuf r).2 = (appendRequest useStore [] r).2 := by
  have hheaders : sizeofHeaders ≤ r.data.length :=
    Nat.le_trans (Nat.le_trans (Nat.le_add_right _ _) (Nat.le_succ _)) h
  have hstamp : sizeofRingType + 12 + 4 ≤ r.data.length := Nat.le_trans (by decide) hheaders
  have hbuf : ∀ b : List Byte, AppendEntry.setGIdx (recvPacket b r.data)
      (htonl (r.maxIdx.truncate 32)) =
        AppendEntry.setGIdx r.data (htonl (r.maxIdx.truncate 32)) ++ b.drop r.data.length := by
    intro b
    rw [recvPacket_eq hlen, AppendEntry.setGIdx, store32_append hstamp]
    rfl
  have hsize : ∀ b : List Byte, pktSize (AppendEntry.setGIdx r.data
      (htonl (r.maxIdx.truncate 32)) ++ b) = pktSize r.data := by
    intro b
    have hsame : SameHeaders (AppendEntry.setGIdx r.data (htonl (r.maxIdx.truncate 32)) ++ b)
        (AppendEntry.setGIdx r.data (htonl (r.maxIdx.truncate 32))) :=
      SameHeaders.append_left (by rwa [length_setGIdx])
    rw [pktSize, hsame.payloadSize, payloadSize_setGIdx]
    rfl
  simp only [appendRequest, hbuf, hsize]
  rw [route_append (by rwa [length_setGIdx]), route_append (by rwa [length_setGIdx]),
    sendto_append (by rwa [length_route, length_setGIdx]),
    sendto_append (by rwa [length_route, length_setGIdx])]

/-- What is too long for a datagram is not sent. -/
theorem appendRequest_of_lt (hlen : r.data.length ≤ maxPacketSize)
    (h : maxUdpPayload < pktSize r.data) : (appendRequest useStore normBuf r).2 = none := by
  have hsize := pktSize_le_append r.data (normBuf.drop r.data.length)
  simp only [appendRequest, pktSize_setGIdx, recvPacket_eq hlen]
  exact if_neg (by omega)

/-- What is sent has the size that the headers claim. -/
theorem size_appendRequest (h : (appendRequest useStore normBuf r).2 = some s) :
    s.size = pktSize (recvPacket normBuf r.data) := by
  simp only [appendRequest, sendto, Option.ite_none_right_eq_some, Option.some.injEq] at h
  rw [← h.2, pktSize_setGIdx]

/-! ## A datagram that does not -/

/-- Behind a datagram of zeros. -/
def zeros : Request := ⟨List.replicate maxPacketSize 0, 0, ⟨0, 0⟩⟩

theorem byteAt_zeros (h : 2 ≤ n) (hn : n < sizeofRingType + 12) :
    byteAt (appendRequest useStore normBuf zeros).1 n = 0 := by
  have hzero : byteAt (recvPacket normBuf zeros.data) n = 0 := by
    have hlen : zeros.data.length = maxPacketSize := List.length_replicate
    have hlt : n < zeros.data.length := Nat.lt_of_lt_of_le hn (by rw [hlen]; decide)
    rw [recvPacket_eq (Nat.le_of_eq hlen), byteAt_append_left hlt]
    exact byteAt_replicate_zero _ _
  have hstamp : ∀ v, byteAt (AppendEntry.setGIdx (recvPacket normBuf zeros.data) v) n = 0 := by
    intro v
    rw [AppendEntry.setGIdx, byteAt_store32_ne (.inl hn), hzero]
  simp only [appendRequest, route]
  split
  · exact hstamp _
  · rw [setType, byteAt_store16_ne (.inr h)]
    exact hstamp _

/-- There nothing is added to the size that a datagram claims. -/
theorem pktSize_zeros (hlen : d.length ≤ maxPacketSize) :
    pktSize (recvPacket (appendRequest useStore normBuf zeros).1 d) = pktSize d := by
  have hsize : AppendEntry.payloadSize (recvPacket (appendRequest useStore normBuf zeros).1 d) =
      AppendEntry.payloadSize d := by
    refine load32_congr ?_
    intro i hlo hhi
    rw [recvPacket_eq hlen]
    by_cases hi : i < d.length
    · exact byteAt_append_left hi
    · have hd : d.length ≤ i := Nat.le_of_not_lt hi
      have hz : byteAt (appendRequest useStore normBuf zeros).1 i = 0 :=
        byteAt_zeros (by simp only [sizeofRingType] at hlo; omega) (by omega)
      rw [byteAt_of_le hd, ← hz]
      obtain ⟨j, rfl⟩ := Nat.exists_eq_add_of_le hd
      rw [byteAt_append_right, byteAt_drop]
  rw [pktSize, hsize]
  rfl

/-! ## Runs -/

/-- What a thread forwards for `r` after any two histories is the same, and no more than what it has
received. -/
def Isolated (useStore : Bool) (normBuf : List Byte) (r : Request) : Prop :=
  ∀ tr₁ m₁ tr₂ m₂, (machine useStore).Run normBuf tr₁ m₁ → Received tr₁ →
    (machine useStore).Run normBuf tr₂ m₂ → Received tr₂ →
    (appendRequest useStore m₁ r).2 = (appendRequest useStore m₂ r).2 ∧
      ∀ s, (appendRequest useStore m₁ r).2 = some s →
        s.size ≤ r.data.length ∧ s.size ≤ maxPacketSize

theorem isolated_of_fits (hlen : r.data.length ≤ maxPacketSize) (h : Fits r.data) :
    Isolated useStore normBuf r := by
  intro tr₁ m₁ tr₂ m₂ _ _ _ _
  rcases h with hle | hlt
  · refine ⟨?_, ?_⟩
    · exact (appendRequest_of_le hlen hle).trans (appendRequest_of_le hlen hle).symm
    · intro s hs
      have hnil : recvPacket [] r.data = r.data := by
        rw [recvPacket_eq hlen, List.drop_nil, List.append_nil]
      rw [appendRequest_of_le hlen hle] at hs
      have hsize := size_appendRequest hs
      rw [hnil] at hsize
      omega
  · refine ⟨?_, ?_⟩
    · rw [appendRequest_of_lt hlen hlt, appendRequest_of_lt hlen hlt]
    · intro s hs
      rw [appendRequest_of_lt hlen hlt] at hs
      cases hs

/-- A thread that has received zeros. -/
theorem run_zeros (useStore : Bool) (normBuf : List Byte) :
    (machine useStore).Run normBuf [(zeros, (appendRequest useStore normBuf zeros).2)]
      (appendRequest useStore normBuf zeros).1 :=
  .single rfl

theorem received_zeros (out : Option Sent) : Received [(zeros, out)] := by
  intro x hx
  have hlen : zeros.data.length = maxPacketSize := List.length_replicate
  rw [List.mem_singleton.1 hx, hlen]
  exact ⟨by decide, Nat.le_refl _⟩

theorem fits_of_isolated (hlen : r.data.length ≤ maxPacketSize)
    (h : Isolated useStore normBuf r) : Fits r.data := by
  by_contra hfit
  rw [Fits, not_or, Nat.not_le, Nat.not_lt] at hfit
  have hrun := run_zeros useStore normBuf
  obtain ⟨-, hsize⟩ := h _ _ _ _ hrun (received_zeros _) hrun (received_zeros _)
  -- after the zeros the datagram is sent, with the size that its headers claim
  obtain ⟨s, hs⟩ : ∃ s,
      (appendRequest useStore (appendRequest useStore normBuf zeros).1 r).2 = some s := by
    refine ⟨_, if_pos ?_⟩
    rw [pktSize_setGIdx, pktSize_zeros hlen]
    exact hfit.2
  have hle := (hsize s hs).1
  rw [size_appendRequest hs, pktSize_zeros hlen] at hle
  omega

/-- **A thread forwards what it has received, and nothing else, exactly when the datagram is as long
as its headers say**, or when they say more than fits in a datagram, so that it is not sent. -/
theorem isolated_iff (useStore : Bool) (normBuf : List Byte)
    (hlen : r.data.length ≤ maxPacketSize) : Isolated useStore normBuf r ↔ Fits r.data :=
  ⟨fits_of_isolated hlen, isolated_of_fits hlen⟩

/-- An append with an empty entry, and its terminator. -/
theorem isolated_empty : Isolated true (List.replicate maxPacketSize 0)
    ⟨List.replicate 65 0, 1, ⟨1, 1⟩⟩ := by
  refine (isolated_iff true _ ?_).2 ?_
  · decide
  · decide

/-- The same without its terminator: in its place the thread forwards what an earlier datagram has
left in the buffer. -/
theorem forwards_old_byte : ∃ tr m s, (machine true).Run (List.replicate maxPacketSize 0) tr m ∧
    Received tr ∧ (appendRequest true m ⟨List.replicate 64 0, 2, ⟨1, 1⟩⟩).2 = some s ∧
    s.size = 65 ∧ byteAt s.head 64 = 7 := by
  let old : Request := ⟨List.replicate 65 7, 1, ⟨1, 1⟩⟩
  let r : Request := ⟨List.replicate 64 0, 2, ⟨1, 1⟩⟩
  let m := (appendRequest true (List.replicate maxPacketSize 0) old).1
  have hold : old.data.length ≤ maxPacketSize := by decide
  have hlen : r.data.length ≤ maxPacketSize := by decide
  have hm : byteAt m 64 = 7 := by
    simp only [m, appendRequest, route, if_true]
    rw [AppendEntry.setGIdx, byteAt_store32_ne (.inr (by decide)), recvPacket_eq hold,
      byteAt_append_left (by decide)]
    rfl
  have hsize : pktSize (recvPacket m r.data) = 65 := by
    have hheaders : SameHeaders (recvPacket m r.data) r.data := by
      rw [recvPacket_eq hlen]
      exact SameHeaders.append_left (by decide)
    rw [pktSize, hheaders.payloadSize]
    decide
  let buf := AppendEntry.setGIdx (recvPacket m r.data) (htonl (r.maxIdx.truncate 32))
  have hbyte : byteAt buf 64 = 7 := by
    simp only [buf]
    rw [AppendEntry.setGIdx, byteAt_store32_ne (.inr (by decide)), recvPacket_eq hlen, ← hm]
    exact (byteAt_append_right r.data 0).trans (byteAt_drop m 64 0)
  refine ⟨_, m, ⟨⟨1, 1⟩, 65, buf.take 65⟩, .single rfl, ?_, ?_, rfl, ?_⟩
  · intro x hx
    rw [List.mem_singleton.1 hx]
    exact ⟨by decide, hold⟩
  · simp only [appendRequest, route, if_true, sendto]
    rw [pktSize_setGIdx, hsize]
    rfl
  · rw [byteAt_take (by decide)]
    exact hbyte

end Pringles.Software.LogSoftwareSwitch
