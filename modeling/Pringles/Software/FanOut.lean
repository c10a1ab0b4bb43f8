import Pringles.Software.Read

/-!
# Requests to several storage servers

Without a switch a client sends its requests to the storage servers itself. It builds one packet and
hands it over in a loop, with `std::move`: the call for the first server takes the packet away, and
those for the others get a null pointer. The socket refuses that, and `send_client_udp_packet` tries
again until it succeeds. So a request goes out, and the client goes on, exactly when there is at most
one server (`fannedOut_iff`).
-/

namespace Pringles.Software

/-- The sockets that `Network` sends through, and the flag that ends its loops. The turns of these
loops are counted; a packet that has been moved away is `none`. -/
structure SocketLayer where
  socketType : String
  terminate : Nat → Bool
  send : Nat → Option (List Byte) → Nat → Int

/-- A call of `send_client_udp_packet`: the packet, its size and the server. -/
structure HandedOver where
  packet : Option (List Byte)
  pktLen : Nat
  dstIp : String
deriving DecidableEq

namespace SocketLayer

variable (L : SocketLayer)

/-- `send` takes what lies in memory, and refuses a null pointer. -/
structure Documented : Prop where
  accepts : ∀ clock packet len, len ≤ packet.length → L.send clock (some packet) len = len
  rejects : ∀ clock len, 0 < len → L.send clock none len = -1

/-- The loop of `Network::send_client_udp_packet`, for `fuel` turns at most. -/
def sendLoop (packet : Option (List Byte)) (pktLen : Nat) : Nat → Nat → Option (Bool × Nat)
  | 0, _ => none
  | fuel + 1, clock =>
    if L.terminate clock then some (false, clock + 1)
    else
      let numBytes := L.send clock packet pktLen
      if numBytes < 0 ∨ numBytes.toNat ≠ pktLen then sendLoop packet pktLen fuel (clock + 1)
      else some (true, clock + 1)

def sendClientUdpPacket (packet : Option (List Byte)) (pktLen fuel clock : Nat) :
    Option (Bool × Nat) :=
  if L.socketType ≠ "UDP" then some (false, clock) else L.sendLoop packet pktLen fuel clock

/-- The loop over `stor_ips`, with the calls that it makes and the result of the last one. -/
def sendToStorage (pktLen fuel : Nat) :
    List String → Option (List Byte) → Bool → Nat → Option (Bool × List HandedOver)
  | [], _, res, _ => some (res, [])
  | ip :: ips, packet, _, clock =>
    (L.sendClientUdpPacket packet pktLen fuel clock).bind fun q =>
      (sendToStorage pktLen fuel ips none q.1 q.2).map fun r =>
        (r.1, ⟨packet, pktLen, ip⟩ :: r.2)

variable {L} {packet : List Byte} {pktLen fuel clock : Nat} {ip : String} {ips : List String}
  {res : Bool} {r : Bool × List HandedOver}

/-- A packet that is there goes out at the first turn. -/
theorem Documented.send_some (h : L.Documented) (hlen : pktLen ≤ packet.length) :
    ∃ q, L.sendClientUdpPacket (some packet) pktLen 1 clock = some q := by
  unfold sendClientUdpPacket sendLoop
  split
  · exact ⟨_, rfl⟩
  · simp only [h.accepts clock packet pktLen hlen]
    split
    · exact ⟨_, rfl⟩
    · refine ⟨_, if_neg ?_⟩
      rw [Int.toNat_natCast]
      omega

/-- A null pointer never does. -/
theorem Documented.send_none (h : L.Documented) (hudp : L.socketType = "UDP")
    (hrun : ∀ clock, L.terminate clock = false) (hlen : 0 < pktLen) :
    L.sendClientUdpPacket none pktLen fuel clock = none := by
  unfold sendClientUdpPacket
  rw [if_neg (not_not.2 hudp)]
  induction fuel generalizing clock with
  | zero => rfl
  | succ fuel ih =>
    have hneg : L.send clock none pktLen < 0 := by
      rw [h.rejects clock pktLen hlen]
      decide
    simp only [sendLoop, hrun, Bool.false_eq_true, ↓reduceIte, if_pos (Or.inl hneg), ih]

/-- The packet goes to one server. -/
theorem Documented.sendToStorage_single (h : L.Documented) (hlen : pktLen ≤ packet.length) :
    ∃ res', L.sendToStorage pktLen 1 [ip] (some packet) res clock =
      some (res', [⟨some packet, pktLen, ip⟩]) := by
  obtain ⟨q, hq⟩ : ∃ q, L.sendClientUdpPacket (some packet) pktLen 1 clock = some q :=
    h.send_some hlen
  refine ⟨q.1, ?_⟩
  rw [sendToStorage, hq]
  rfl

/-- The call for a second server has no packet. -/
theorem second_call (hr : L.sendToStorage pktLen fuel (ip :: ips) none res clock = some r) :
    ∃ calls, r.2 = ⟨none, pktLen, ip⟩ :: calls := by
  rw [sendToStorage] at hr
  obtain ⟨q, -, hr⟩ := Option.bind_eq_some_iff.1 hr
  obtain ⟨r', -, rfl⟩ := Option.map_eq_some_iff.1 hr
  exact ⟨_, rfl⟩

/-- The loop does not get past a second server. -/
theorem Documented.sendToStorage_stuck (h : L.Documented) (hudp : L.socketType = "UDP")
    (hrun : ∀ clock, L.terminate clock = false) (hlen : 0 < pktLen) {ip' : String} :
    L.sendToStorage pktLen fuel (ip :: ip' :: ips) (some packet) res clock = none := by
  rw [sendToStorage, Option.bind_eq_none_iff]
  intro q _
  rw [sendToStorage, h.send_none hudp hrun hlen]
  rfl

end SocketLayer

/-! ## The functions of the client -/

namespace LogClient

/-- `append_stream` leaves the stream in the header. -/
def appendStreamPacket (c : LogClient) (entry : List Byte) (streamId : BitVec 32) :
    Option (List Byte) :=
  { c with streamId := htonl streamId }.appendPacket entry

def readStreamPacket (c : LogClient) (idx : BitVec 64) (streamId : BitVec 32) : List Byte :=
  { c with readStreamId := htonl streamId }.readPacket idx

/-- `allocated_packet_size` of the reads. -/
def readAllocatedPacketSize (c : LogClient) : BitVec 64 :=
  BitVec.ofNat 64 (sizeofRingType + sizeofRingReadEntry) + c.payloadSize + 1

inductive Request where
  | append (entry : List Byte)
  | appendStream (entry : List Byte) (streamId : BitVec 32)
  | read (idx : BitVec 64)
  | readStream (idx : BitVec 64) (streamId : BitVec 32)

/-- The packet of a request, with its allocated size. -/
def build (c : LogClient) : Request → Option (List Byte × BitVec 64)
  | .append entry => (c.appendPacket entry).map fun p => (p, c.allocatedPacketSize)
  | .appendStream entry streamId =>
    (c.appendStreamPacket entry streamId).map fun p => (p, c.allocatedPacketSize)
  | .read idx => some (c.readPacket idx, c.readAllocatedPacketSize)
  | .readStream idx streamId => some (c.readStreamPacket idx streamId, c.readAllocatedPacketSize)

/-- The send phase of a request with `use_switch` off. `append` does not look at the result. -/
def sendPhase (c : LogClient) (L : SocketLayer) (fuel : Nat) (storIps : List String)
    (request : Request) : Option (Bool × List HandedOver) :=
  (c.build request).bind fun q => L.sendToStorage q.2.toNat fuel storIps (some q.1) false 0

/-- The send phase ends, and it has called for every server with the whole packet. -/
def FannedOut (c : LogClient) (L : SocketLayer) (storIps : List String) (request : Request)
    (packet : List Byte) : Prop :=
  ∃ fuel res, c.sendPhase L fuel storIps request =
    some (res, storIps.map fun ip => ⟨some packet, packet.length, ip⟩)

variable {c : LogClient} {L : SocketLayer} {storIps : List String} {request : Request}
  {packet entry : List Byte} {size : BitVec 64} {fuel : Nat}

/-- The payload of the client is a string, so `payload_size` is far from an overflow. -/
theorem length_appendPacket (hc : c.payloadSize.toNat < 2 ^ 63)
    (h : c.appendPacket entry = some packet) :
    packet.length = c.allocatedPacketSize.toNat ∧ 0 < packet.length := by
  simp only [appendPacket, Option.ite_none_right_eq_some, Option.some.injEq] at h
  obtain ⟨hle, rfl⟩ := h
  have hone : (1 : BitVec 64).toNat = 1 := rfl
  have hheaders : (BitVec.ofNat 64 (sizeofRingType + sizeofRingAppendEntry)).toNat = 64 := rfl
  have hsize : sizeofHeaders = 64 := rfl
  rw [List.length_append, length_headers, List.length_take, Nat.min_eq_left hle,
    allocatedPacketSize, BitVec.toNat_add, BitVec.toNat_add, BitVec.toNat_add, hone, hheaders]
  omega

theorem length_readPacket_eq (hc : c.payloadSize.toNat < 2 ^ 63) (idx : BitVec 64) :
    (c.readPacket idx).length = c.readAllocatedPacketSize.toNat ∧
      0 < (c.readPacket idx).length := by
  have hone : (1 : BitVec 64).toNat = 1 := rfl
  have hheaders : (BitVec.ofNat 64 (sizeofRingType + sizeofRingReadEntry)).toNat = 60 := rfl
  have hsize : sizeofReadHeaders = 60 := rfl
  rw [length_readPacket, readAllocatedPacketSize, BitVec.toNat_add, BitVec.toNat_add, hone,
    hheaders]
  omega

/-- A packet has the size that is allocated for it, and that is not zero. -/
theorem length_build (hc : c.payloadSize.toNat < 2 ^ 63)
    (h : c.build request = some (packet, size)) :
    packet.length = size.toNat ∧ 0 < packet.length := by
  cases request with
  | append entry =>
    obtain ⟨p, hp, heq⟩ := Option.map_eq_some_iff.1 h
    cases heq
    exact length_appendPacket hc hp
  | appendStream entry streamId =>
    obtain ⟨p, hp, heq⟩ := Option.map_eq_some_iff.1 h
    cases heq
    exact length_appendPacket (c := { c with streamId := htonl streamId }) hc hp
  | read idx =>
    cases h
    exact length_readPacket_eq hc idx
  | readStream idx streamId =>
    cases h
    exact length_readPacket_eq (c := { c with readStreamId := htonl streamId }) hc idx

theorem sendPhase_eq (hc : c.payloadSize.toNat < 2 ^ 63)
    (h : c.build request = some (packet, size)) :
    c.sendPhase L fuel storIps request =
      L.sendToStorage packet.length fuel storIps (some packet) false 0 := by
  rw [sendPhase, h, Option.bind_some, (length_build hc h).1]

/-- To at most one server the packet goes as it is. -/
theorem fannedOut_of_le (hL : L.Documented) (hc : c.payloadSize.toNat < 2 ^ 63)
    (h : c.build request = some (packet, size)) (hle : storIps.length ≤ 1) :
    c.FannedOut L storIps request packet := by
  rw [FannedOut]
  simp only [sendPhase_eq hc h]
  match storIps, hle with
  | [], _ => exact ⟨0, false, rfl⟩
  | [ip], _ =>
    obtain ⟨res, hres⟩ : ∃ res, L.sendToStorage packet.length 1 [ip] (some packet) false 0 =
        some (res, [⟨some packet, packet.length, ip⟩]) :=
      hL.sendToStorage_single (Nat.le_refl packet.length)
    exact ⟨1, res, hres⟩

/-- With more servers, no second call has a packet. -/
theorem le_of_fannedOut (hc : c.payloadSize.toNat < 2 ^ 63)
    (h : c.build request = some (packet, size)) (hout : c.FannedOut L storIps request packet) :
    storIps.length ≤ 1 := by
  obtain ⟨fuel, res, hout⟩ := hout
  rw [sendPhase_eq hc h] at hout
  match storIps with
  | [] => exact Nat.zero_le 1
  | [_] => exact Nat.le_refl 1
  | ip :: ip' :: ips =>
    rw [SocketLayer.sendToStorage] at hout
    obtain ⟨q, -, hout⟩ := Option.bind_eq_some_iff.1 hout
    obtain ⟨r, hr, heq⟩ := Option.map_eq_some_iff.1 hout
    obtain ⟨calls, hcalls⟩ := SocketLayer.second_call hr
    rw [hcalls] at heq
    simp at heq

/-- With more servers the send phase does not end by itself. -/
theorem sendPhase_stuck (hL : L.Documented) (hudp : L.socketType = "UDP")
    (hrun : ∀ clock, L.terminate clock = false) (hc : c.payloadSize.toNat < 2 ^ 63)
    (h : c.build request = some (packet, size)) (hlt : 1 < storIps.length) :
    c.sendPhase L fuel storIps request = none := by
  rw [sendPhase_eq hc h]
  match storIps, hlt with
  | ip :: ip' :: ips, _ =>
    exact hL.sendToStorage_stuck hudp hrun (length_build hc h).2

/-- **The send phase is complete, and ends, exactly when there is at most one storage server.** -/
theorem fannedOut_iff (hL : L.Documented) (hc : c.payloadSize.toNat < 2 ^ 63)
    (h : c.build request = some (packet, size)) :
    (c.FannedOut L storIps request packet ↔ storIps.length ≤ 1) ∧
      (L.socketType = "UDP" → (∀ clock, L.terminate clock = false) →
        ((∃ fuel, (c.sendPhase L fuel storIps request).isSome) ↔ storIps.length ≤ 1)) := by
  refine ⟨⟨le_of_fannedOut hc h, fannedOut_of_le hL hc h⟩, ?_⟩
  intro hudp hrun
  constructor
  · rintro ⟨fuel, hends⟩
    by_contra hmore
    rw [sendPhase_stuck hL hudp hrun hc h (Nat.lt_of_not_le hmore)] at hends
    cases hends
  · intro hle
    obtain ⟨fuel, res, hout⟩ := fannedOut_of_le hL hc h hle
    exact ⟨fuel, Option.isSome_of_eq_some hout⟩

/-- Sockets that take every packet. -/
def sampleSockets : SocketLayer where
  socketType := "UDP"
  terminate _ := false
  send _ packet len :=
    match packet with
    | some p => if len ≤ p.length then len else -1
    | none => -1

theorem documented_sampleSockets : sampleSockets.Documented where
  accepts _ _ _ h := if_pos h
  rejects _ _ _ := rfl

/-- An append to one server. -/
theorem fannedOut_one : ∃ packet, (sampleClient 1).FannedOut sampleSockets ["10.0.0.3"]
    (.append [65]) packet := by
  obtain ⟨q, hq⟩ : ∃ q, (sampleClient 1).build (.append [65]) = some q := ⟨_, rfl⟩
  exact ⟨q.1, (fannedOut_iff documented_sampleSockets (by decide) hq).1.2 (by decide)⟩

/-- The same append to two servers: the client never gets to wait for a response. -/
theorem send_phase_hangs : ¬ ∃ fuel, ((sampleClient 1).sendPhase sampleSockets fuel
    ["10.0.0.3", "10.0.0.4"] (.append [65])).isSome := by
  rintro ⟨fuel, hends⟩
  obtain ⟨q, hq⟩ : ∃ q, (sampleClient 1).build (.append [65]) = some q := ⟨_, rfl⟩
  rw [sendPhase_stuck documented_sampleSockets rfl (fun _ => rfl) (by decide) hq (by decide)]
    at hends
  cases hends

end LogClient

end Pringles.Software
