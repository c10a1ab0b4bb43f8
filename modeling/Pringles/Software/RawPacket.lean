import Pringles.Lib.Machine
import Pringles.Software.Checksum
import Pringles.Software.RingHeaders

/-!
# The IP header of a raw packet

`Network::send_packet` builds a frame from two header objects that it keeps between calls. It takes
the checksum of the IP header from the first words of the frame. Of these the Ethernet header has
been written at that time and the IP header has not, and there are `sizeof(struct iphdr)` of them,
where the header has half as many.
-/

namespace Pringles.Software

open Bytes

/-! ## Headers -/

def sizeofEthhdr : Nat := 14
def sizeofIphdr : Nat := 20

def ipprotoRaw : Byte := 255

/-- `struct ethhdr`. -/
structure EthHdr where
  hDest : Vector Byte 6
  hSource : Vector Byte 6
  hProto : BitVec 16

/-- `struct iphdr`, on a little-endian host. -/
structure IpHdr where
  ihl : BitVec 4 := 0
  version : BitVec 4 := 0
  tos : Byte := 0
  totLen : BitVec 16 := 0
  id : BitVec 16 := 0
  fragOff : BitVec 16 := 0
  ttl : Byte := 0
  protocol : Byte := 0
  check : BitVec 16 := 0
  saddr : BitVec 32 := 0
  daddr : BitVec 32 := 0

def EthHdr.bytes (h : EthHdr) : List Byte := h.hDest.toList ++ h.hSource.toList ++ bytes16 h.hProto

/-- The header before and after its checksum. -/
def IpHdr.front (h : IpHdr) : List Byte :=
  [h.version ++ h.ihl, h.tos] ++ bytes16 h.totLen ++ bytes16 h.id ++ bytes16 h.fragOff ++
    [h.ttl, h.protocol]

def IpHdr.back (h : IpHdr) : List Byte := bytes32 h.saddr ++ bytes32 h.daddr

def IpHdr.bytes (h : IpHdr) : List Byte := h.front ++ bytes16 h.check ++ h.back

/-- Memory as `unsigned short *` reads it. -/
def words : List Byte → List (BitVec 16)
  | b :: b' :: rest => (b' ++ b) :: words rest
  | _ => []

/-- The header at its place in the frame has a valid checksum. -/
def ValidChecksum (frame : List Byte) : Prop :=
  OnesComplement.sum (words ((frame.drop sizeofEthhdr).take sizeofIphdr)) = 0xffff

instance (frame : List Byte) : Decidable (ValidChecksum frame) :=
  inferInstanceAs (Decidable (_ = _))

/-! ## The network -/

inductive SocketType
  | udp
  | raw
deriving DecidableEq

/-- The members of `Network` that `send_packet` works on. -/
structure Network where
  socketType : SocketType
  sendEthHdr : EthHdr
  sendIpHdr : IpHdr

/-- One call, where `pkt_len` bytes of `payload` are sent. `behind` is what lies behind the frame in
memory, and `numBytes` what `sendto` returns, unless it fails. -/
structure RawCall where
  payload : List Byte
  ethType : BitVec 32
  dstMac : Vector Byte 6
  dstIp : BitVec 32
  behind : Vector Byte 6
  numBytes : Option Nat

/-- The frame, with the address in `sin` that it is sent to. -/
structure RawFrame where
  sllAddr : Vector Byte 6
  packet : List Byte

structure RawResult where
  frame : Option RawFrame
  sentAll : Bool

namespace Network

/-- `Network::create_ip_hdr`, for the address of `self_ip`. -/
def createIpHdr (selfIp : BitVec 32) : IpHdr where
  ihl := 5
  version := 4
  tos := 0
  totLen := htons (BitVec.ofNat 16 sizeofIphdr)
  id := htons 54321
  ttl := 64
  protocol := ipprotoRaw
  saddr := selfIp
  daddr := selfIp

/-- A network after its construction, with an Ethernet header object. -/
def make (socketType : SocketType) (selfIp : BitVec 32) (ethHdr : EthHdr) : Network :=
  ⟨socketType, ethHdr, createIpHdr selfIp⟩

/-- `Network::send_packet`; `none` stands for a write outside the frame. -/
def sendPacket (net : Network) (c : RawCall) : Option (Network × RawResult) :=
  match net.socketType with
  | .udp => some (net, ⟨none, false⟩)
  | .raw => do
    let eth := { net.sendEthHdr with hDest := c.dstMac, hProto := htons (c.ethType.truncate 16) }
    let packetSize := sizeofEthhdr + sizeofIphdr + c.payload.length
    let packet ← memcpy (List.replicate packetSize 0) 0 eth.bytes
    let ip := { net.sendIpHdr with
      totLen := htons (BitVec.ofNat 16 (sizeofIphdr + c.payload.length))
      daddr := c.dstIp }
    -- twenty words from the beginning of the frame, which may end before them
    let summed := (packet ++ c.behind.toList).take (2 * sizeofIphdr)
    let ip := { ip with check := checksum (words summed) }
    let packet ← memcpy packet sizeofEthhdr ip.bytes
    let packet ← memcpy packet (sizeofEthhdr + sizeofIphdr) c.payload
    pure ({ net with sendEthHdr := eth, sendIpHdr := ip },
      ⟨some ⟨c.dstMac, packet⟩, c.numBytes = some packetSize⟩)

/-- Call after call. -/
def machine : Machine Network RawCall RawResult := ⟨sendPacket⟩

end Network

/-! ## Words -/

theorem words_bytes16 (v : BitVec 16) (rest : List Byte) :
    words (bytes16 v ++ rest) = v :: words rest := by
  have hv : v.extractLsb' 8 8 ++ v.extractLsb' 0 8 = v := by
    refine BitVec.eq_of_getLsbD_eq ?_
    intro i hi
    rw [BitVec.getLsbD_append]
    grind
  exact congrArg (· :: words rest) hv

theorem words_append {l : List Byte} {n : Nat} (h : l.length = 2 * n) (rest : List Byte) :
    words (l ++ rest) = words l ++ words rest := by
  induction n generalizing l with
  | zero =>
    obtain rfl := List.eq_nil_of_length_eq_zero h
    rfl
  | succ n ih =>
    match l, h with
    | b :: b' :: l, h =>
      have hl : l.length = 2 * n := by
        simp only [List.length_cons] at h
        omega
      exact congrArg ((b' ++ b) :: ·) (ih hl)

theorem length_words_le (l : List Byte) : (words l).length ≤ l.length := by
  fun_induction words l with
  | case1 b b' rest ih =>
    simp only [List.length_cons]
    omega
  | case2 => exact Nat.zero_le _

/-- The words of a header as a number. -/
def wordTotal (ws : List (BitVec 16)) : Nat := (ws.map BitVec.toNat).sum

theorem wordTotal_append (ws ws' : List (BitVec 16)) :
    wordTotal (ws ++ ws') = wordTotal ws + wordTotal ws' := by
  rw [wordTotal, List.map_append, List.sum_append]
  rfl

theorem wordTotal_zeros (n : Nat) : wordTotal (words (List.replicate (2 * n) 0)) = 0 := by
  induction n with
  | zero => rfl
  | succ n ih =>
    have hzero : words (List.replicate (2 * (n + 1)) 0) = 0 :: words (List.replicate (2 * n) 0) :=
      rfl
    rw [hzero, wordTotal, List.map_cons, List.sum_cons]
    exact (Nat.zero_add _).trans ih

/-! ## What a call sends -/

namespace RawCall

/-- The Ethernet header of the call's frame. -/
def ethHdr (c : RawCall) (hSource : Vector Byte 6) : EthHdr :=
  ⟨c.dstMac, hSource, htons (c.ethType.truncate 16)⟩

/-- The IP header of the call's frame, given its checksum. -/
def ipHdr (c : RawCall) (selfIp : BitVec 32) (check : BitVec 16) : IpHdr :=
  { Network.createIpHdr selfIp with
    totLen := htons (BitVec.ofNat 16 (sizeofIphdr + c.payload.length))
    daddr := c.dstIp
    check := check }

/-- What the checksum is taken from: the frame as it is then, and what is behind it. -/
def summed (c : RawCall) (hSource : Vector Byte 6) : List Byte :=
  ((c.ethHdr hSource).bytes ++ List.replicate (sizeofIphdr + c.payload.length) 0 ++
    c.behind.toList).take (2 * sizeofIphdr)

/-- Its words, as far as they are not zero: the Ethernet header, and behind a frame of less than forty
bytes what follows it in memory. -/
def summedWords (c : RawCall) (hSource : Vector Byte 6) : List (BitVec 16) :=
  words (c.ethHdr hSource).bytes ++
    words ((List.replicate c.payload.length 0 ++ c.behind.toList).take 6)

/-- The words that a valid checksum is taken from. -/
def headerWords (c : RawCall) (selfIp : BitVec 32) : List (BitVec 16) :=
  [0x0045, htons (BitVec.ofNat 16 (sizeofIphdr + c.payload.length)), htons 54321, 0, 0xff40] ++
    words (bytes32 selfIp ++ bytes32 c.dstIp)

/-- The two have the same total, modulo `2 ^ 16 - 1`. -/
def Agrees (c : RawCall) (hSource : Vector Byte 6) (selfIp : BitVec 32) : Prop :=
  wordTotal (c.headerWords selfIp) ≡ wordTotal (c.summedWords hSource) [MOD 65535]

instance (c : RawCall) (hSource : Vector Byte 6) (selfIp : BitVec 32) :
    Decidable (c.Agrees hSource selfIp) :=
  inferInstanceAs (Decidable (_ % _ = _ % _))

end RawCall

theorem EthHdr.length_bytes (h : EthHdr) : h.bytes.length = sizeofEthhdr := by
  simp [EthHdr.bytes, sizeofEthhdr]

theorem IpHdr.length_bytes (h : IpHdr) : h.bytes.length = sizeofIphdr := rfl

/-- A frame carries the IP header behind the Ethernet header. -/
theorem take_drop_frame (eth : EthHdr) (ip : IpHdr) (payload : List Byte) :
    ((eth.bytes ++ ip.bytes ++ payload).drop sizeofEthhdr).take sizeofIphdr = ip.bytes := by
  rw [List.append_assoc, ← eth.length_bytes, List.drop_left, ← ip.length_bytes, List.take_left]

theorem words_front (c : RawCall) (selfIp : BitVec 32) (check : BitVec 16) :
    words (c.ipHdr selfIp check).front =
      [0x0045, htons (BitVec.ofNat 16 (sizeofIphdr + c.payload.length)), htons 54321, 0, 0xff40] := by
  have hpair (b b' : Byte) (rest : List Byte) : words ([b, b'] ++ rest) = (b' ++ b) :: words rest :=
    rfl
  simp only [IpHdr.front, List.append_assoc, hpair, words_bytes16]
  change [(0 : Byte) ++ ((4 : BitVec 4) ++ (5 : BitVec 4)), _, htons 54321, 0,
    (255 : Byte) ++ (64 : Byte)] = _
  rfl

/-- The checksum stands among the other words of its header. -/
theorem words_ipHdr (c : RawCall) (selfIp : BitVec 32) (check : BitVec 16) :
    (words (c.ipHdr selfIp check).bytes).Perm (check :: c.headerWords selfIp) := by
  have hfront : (c.ipHdr selfIp check).front.length = 2 * 5 := rfl
  have hcheck : (c.ipHdr selfIp check).check = check := rfl
  rw [IpHdr.bytes, List.append_assoc, words_append hfront, words_bytes16, hcheck, words_front]
  exact List.perm_middle

/-- In the place of the IP header there are zeros. -/
theorem wordTotal_summed (c : RawCall) (hSource : Vector Byte 6) :
    wordTotal (words (c.summed hSource)) = wordTotal (c.summedWords hSource) := by
  have heth : (c.ethHdr hSource).bytes.length = 2 * 7 := EthHdr.length_bytes _
  have htail : (List.replicate (sizeofIphdr + c.payload.length) (0 : Byte) ++ c.behind.toList).take
      (2 * sizeofIphdr - 2 * 7) = List.replicate (2 * 10) 0 ++
        (List.replicate c.payload.length 0 ++ c.behind.toList).take 6 := by
    have hzeros : (List.replicate sizeofIphdr (0 : Byte)).length = 20 := List.length_replicate
    rw [List.replicate_add, List.append_assoc, List.take_append, hzeros]
    rfl
  rw [RawCall.summed, List.append_assoc, List.take_append, heth, htail,
    List.take_of_length_le (heth ▸ by decide),
    words_append heth, words_append List.length_replicate, wordTotal_append, wordTotal_append,
    wordTotal_zeros, Nat.zero_add, RawCall.summedWords, wordTotal_append]

theorem headerWords_ne_zero (c : RawCall) (selfIp : BitVec 32) :
    OnesComplement.sum (c.headerWords selfIp) ≠ 0 := by
  have htotal : wordTotal (c.headerWords selfIp) = 0x45 + wordTotal (c.headerWords selfIp).tail :=
    rfl
  have hpos : 0 < OnesComplement.residue 16 (wordTotal (c.headerWords selfIp)) :=
    OnesComplement.residue_pos (by omega)
  intro hzero
  have hsum := OnesComplement.toNat_sum (c.headerWords selfIp)
  rw [hzero] at hsum
  exact hpos.ne hsum

/-- **The checksum of a call** is valid exactly when the totals agree. -/
theorem sum_words_iff (c : RawCall) (hSource : Vector Byte 6) (selfIp : BitVec 32) :
    OnesComplement.sum
        (words (c.ipHdr selfIp (Network.checksum (words (c.summed hSource)))).bytes) = 0xffff ↔
      c.Agrees hSource selfIp := by
  have hones : (0xffff : BitVec 16) = BitVec.allOnes 16 := rfl
  have hlen : (words (c.summed hSource)).length ≤ 65537 :=
    (length_words_le _).trans ((List.length_take_le ..).trans (by decide))
  rw [OnesComplement.sum_perm (words_ipHdr ..), ← OnesComplement.add_sum,
    Network.checksum_eq_not hlen, hones,
    OnesComplement.add_not_eq_allOnes_iff (headerWords_ne_zero c selfIp), OnesComplement.toNat_sum,
    OnesComplement.toNat_sum, RawCall.Agrees, ← wordTotal_summed]
  have hheader := OnesComplement.residue_modEq 16 (wordTotal (c.headerWords selfIp))
  have hresidue := OnesComplement.residue_modEq 16 (wordTotal (words (c.summed hSource)))
  constructor
  · intro h
    exact hheader.symm.trans (h.trans hresidue)
  · intro h
    exact hheader.trans (h.trans hresidue.symm)

/-! ## Runs -/

namespace Network

/-- What no call changes. -/
structure Of (hSource : Vector Byte 6) (selfIp : BitVec 32) (net : Network) : Prop where
  socketType : net.socketType = .raw
  hSource : net.sendEthHdr.hSource = hSource
  ipHdr : { net.sendIpHdr with totLen := 0, check := 0, daddr := 0 } =
    { createIpHdr selfIp with totLen := 0, check := 0, daddr := 0 }

theorem of_make (selfIp : BitVec 32) (ethHdr : EthHdr) :
    (make .raw selfIp ethHdr).Of ethHdr.hSource selfIp := ⟨rfl, rfl, rfl⟩

/-- The headers and the payload fill a cleared frame. -/
theorem fill_frame (eth : EthHdr) (ip : IpHdr) (payload : List Byte) :
    memcpy (List.replicate (sizeofEthhdr + sizeofIphdr + payload.length) 0) 0 eth.bytes =
        some (eth.bytes ++ List.replicate (sizeofIphdr + payload.length) 0) ∧
      memcpy (eth.bytes ++ List.replicate (sizeofIphdr + payload.length) 0) sizeofEthhdr ip.bytes =
        some (eth.bytes ++ ip.bytes ++ List.replicate payload.length 0) ∧
      memcpy (eth.bytes ++ ip.bytes ++ List.replicate payload.length 0) (sizeofEthhdr + sizeofIphdr)
        payload = some (eth.bytes ++ ip.bytes ++ payload) := by
  have heth : eth.bytes.length = sizeofEthhdr := eth.length_bytes
  have hip : ip.bytes.length = sizeofIphdr := ip.length_bytes
  refine ⟨?_, ?_, ?_⟩
  · have hcopy := memcpy_append [] (List.replicate sizeofEthhdr 0)
      (List.replicate (sizeofIphdr + payload.length) 0)
      (List.length_replicate.trans heth.symm)
    rwa [List.nil_append, List.nil_append, List.replicate_append_replicate, ← Nat.add_assoc]
      at hcopy
  · have hcopy := memcpy_append eth.bytes (List.replicate sizeofIphdr 0)
      (List.replicate payload.length 0) (List.length_replicate.trans hip.symm)
    rwa [List.append_assoc, List.replicate_append_replicate, heth] at hcopy
  · have hcopy := memcpy_append (eth.bytes ++ ip.bytes) (List.replicate payload.length 0) []
      List.length_replicate
    rwa [List.append_nil, List.append_nil, List.length_append, heth, hip] at hcopy

/-- A call sends its headers and its payload, whatever the calls before have left behind. -/
theorem sendPacket_spec {net : Network} {hSource : Vector Byte 6} {selfIp : BitVec 32}
    (h : net.Of hSource selfIp) (c : RawCall) :
    ∃ net' result, sendPacket net c = some (net', result) ∧ net'.Of hSource selfIp ∧
      result.frame = some ⟨c.dstMac, (c.ethHdr hSource).bytes ++
        (c.ipHdr selfIp (checksum (words (c.summed hSource)))).bytes ++ c.payload⟩ := by
  have hip : { net.sendIpHdr with
      totLen := htons (BitVec.ofNat 16 (sizeofIphdr + c.payload.length))
      daddr := c.dstIp
      check := checksum (words (c.summed hSource)) } =
        c.ipHdr selfIp (checksum (words (c.summed hSource))) :=
    congrArg (fun ip : IpHdr => { ip with
      totLen := htons (BitVec.ofNat 16 (sizeofIphdr + c.payload.length))
      daddr := c.dstIp
      check := checksum (words (c.summed hSource)) }) h.ipHdr
  have heth : { net.sendEthHdr with
      hDest := c.dstMac
      hProto := htons (c.ethType.truncate 16) } = c.ethHdr hSource := by
    rw [← h.hSource]
    rfl
  obtain ⟨hfirst, hsecond, hthird⟩ := fill_frame (c.ethHdr hSource)
    (c.ipHdr selfIp (checksum (words (c.summed hSource)))) c.payload
  refine ⟨⟨.raw, c.ethHdr hSource, c.ipHdr selfIp (checksum (words (c.summed hSource)))⟩,
    ⟨_, c.numBytes = some (sizeofEthhdr + sizeofIphdr + c.payload.length)⟩, ?_, ⟨rfl, rfl, rfl⟩,
    rfl⟩
  simp only [RawCall.summed] at hip hsecond hthird ⊢
  rw [sendPacket, h.socketType]
  simp only [heth, hfirst, hip, hsecond, hthird, Option.bind_eq_bind, Option.bind_some]
  rfl

/-- **A frame has a valid checksum exactly when the totals of its call agree**, in every sequence of
calls. -/
theorem validChecksum_iff (selfIp : BitVec 32) (ethHdr : EthHdr) (cs : List RawCall) :
    ∃ net tr, machine.exec (make .raw selfIp ethHdr) cs = some (net, tr) ∧ tr.map Prod.fst = cs ∧
      ∀ x ∈ tr, ∃ frame, x.2.frame = some frame ∧
        (ValidChecksum frame.packet ↔ x.1.Agrees ethHdr.hSource selfIp) := by
  have hrun (net : Network) (hnet : net.Of ethHdr.hSource selfIp) :
      ∃ net' tr, machine.exec net cs = some (net', tr) ∧
        ∀ x ∈ tr, ∃ frame, x.2.frame = some frame ∧
          (ValidChecksum frame.packet ↔ x.1.Agrees ethHdr.hSource selfIp) := by
    induction cs generalizing net with
    | nil => exact ⟨net, [], rfl, fun x hx => absurd hx List.not_mem_nil⟩
    | cons c cs ih =>
      obtain ⟨net', result, hsend, hnet', hframe⟩ := sendPacket_spec hnet c
      obtain ⟨net'', tr, hexec, hall⟩ := ih net' hnet'
      refine ⟨net'', (c, result) :: tr, ?_, ?_⟩
      · have hstep : machine.step net c = some (net', result) := hsend
        rw [Machine.exec, hstep, Option.bind_some, hexec]
        rfl
      · refine List.forall_mem_cons.2 ⟨⟨_, hframe, ?_⟩, hall⟩
        rw [ValidChecksum, take_drop_frame]
        exact sum_words_iff c ethHdr.hSource selfIp
  obtain ⟨net, tr, hexec, hall⟩ := hrun _ (of_make selfIp ethHdr)
  exact ⟨net, tr, hexec, Machine.map_fst_of_exec hexec, hall⟩

/-- An append request to the group of the first shard. -/
def appendCall : RawCall where
  payload := List.replicate 64 0
  ethType := 0x0860
  dstMac := ⟨#[1, 0, 0x5e, 1, 1, 1], rfl⟩
  dstIp := 0x010101ef
  behind := ⟨#[0, 0, 0, 0, 0, 0], rfl⟩
  numBytes := some 98

/-- Its header does not have a valid checksum. -/
theorem not_validChecksum : ∃ net frame,
    machine.exec (make .raw 0x01010a0a ⟨appendCall.dstMac, ⟨#[2, 0, 0, 0, 0, 1], rfl⟩, 8⟩)
        [appendCall] = some (net, [(appendCall, ⟨some frame, true⟩)]) ∧
      ¬ValidChecksum frame.packet := by
  refine ⟨_, ⟨_, _⟩, rfl, ?_⟩
  decide

/-- With the source address for which the totals agree, it does. -/
example : appendCall.Agrees ⟨#[2, 0, 235, 47, 0, 1], rfl⟩ 0x01010a0a ∧ ∃ net frame,
    machine.exec (make .raw 0x01010a0a ⟨appendCall.dstMac, ⟨#[2, 0, 235, 47, 0, 1], rfl⟩, 8⟩)
        [appendCall] = some (net, [(appendCall, ⟨some frame, true⟩)]) ∧
      ValidChecksum frame.packet := by
  refine ⟨by decide, _, ⟨_, _⟩, rfl, ?_⟩
  decide

end Network

end Pringles.Software
