import Pringles.Lib.Bytes

/-!
# The headers of the software path

A datagram of the software path begins with `struct ring_type` and, when it belongs to an append,
`struct ring_append_entry`; the entry itself follows. The fields are words in network byte order at
the offsets that the compiler gives them.
-/

namespace Pringles.Software

open Bytes

/-! ## Byte order -/

/-- The bytes in reverse order. -/
def htonl (x : BitVec 32) : BitVec 32 :=
  x.extractLsb' 0 8 ++ x.extractLsb' 8 8 ++ x.extractLsb' 16 8 ++ x.extractLsb' 24 8

def ntohl (x : BitVec 32) : BitVec 32 := htonl x

def htons (x : BitVec 16) : BitVec 16 := x.extractLsb' 0 8 ++ x.extractLsb' 8 8

def ntohs (x : BitVec 16) : BitVec 16 := htons x

theorem getLsbD_htonl (x : BitVec 32) (i : Nat) : (htonl x).getLsbD i =
    if i < 8 then x.getLsbD (24 + i) else if i < 16 then x.getLsbD (8 + i)
    else if i < 24 then x.getLsbD (i - 8) else if i < 32 then x.getLsbD (i - 24) else false := by
  unfold htonl
  rw [BitVec.getLsbD_append, BitVec.getLsbD_append, BitVec.getLsbD_append]
  simp only [BitVec.getLsbD_extractLsb']
  grind

@[simp] theorem ntohl_htonl (x : BitVec 32) : ntohl (htonl x) = x := by
  refine BitVec.eq_of_getLsbD_eq ?_
  intro i hi
  simp only [ntohl, getLsbD_htonl]
  grind

@[simp] theorem ntohs_htons (x : BitVec 16) : ntohs (htons x) = x := by
  refine BitVec.eq_of_getLsbD_eq ?_
  intro i hi
  simp only [ntohs, htons, BitVec.getLsbD_append, BitVec.getLsbD_extractLsb']
  grind

@[simp] theorem htons_ntohs (x : BitVec 16) : htons (ntohs x) = x := ntohs_htons x

@[simp] theorem ntohl_zero : ntohl 0 = 0 := rfl

/-- A word of four bytes in network order. -/
theorem ntohl_load32 (buf : List Byte) (off : Nat) : ntohl (load32 buf off) =
    byteAt buf off ++ byteAt buf (off + 1) ++ byteAt buf (off + 2) ++ byteAt buf (off + 3) := by
  refine BitVec.eq_of_getLsbD_eq ?_
  intro i hi
  rw [ntohl, getLsbD_htonl, load32]
  simp only [BitVec.getLsbD_append]
  grind

theorem toNat_ntohl_load32 (buf : List Byte) (off : Nat) : (ntohl (load32 buf off)).toNat =
    (byteAt buf off).toNat * 2 ^ 24 + (byteAt buf (off + 1)).toNat * 2 ^ 16 +
      (byteAt buf (off + 2)).toNat * 2 ^ 8 + (byteAt buf (off + 3)).toNat := by
  have h0 := (byteAt buf off).isLt
  have h1 := (byteAt buf (off + 1)).isLt
  have h2 := (byteAt buf (off + 2)).isLt
  have h3 := (byteAt buf (off + 3)).isLt
  rw [ntohl_load32]
  simp only [BitVec.toNat_append]
  rw [← Nat.shiftLeft_add_eq_or_of_lt h1, ← Nat.shiftLeft_add_eq_or_of_lt h2,
    ← Nat.shiftLeft_add_eq_or_of_lt h3]
  simp only [Nat.shiftLeft_eq]
  omega

/-! ## Layout -/

def sizeofRingType : Nat := 16
def sizeofRingAppendEntry : Nat := 48

def sizeofRingReadEntry : Nat := 44
def sizeofRingTailReq : Nat := 20
def sizeofRingSubscribeEntry : Nat := 20

/-- Where the entry of an append begins. -/
def sizeofHeaders : Nat := sizeofRingType + sizeofRingAppendEntry

def ethAppendReq : BitVec 16 := 0x0860
def ethAppendResp : BitVec 16 := 0x0861
def ethTailReq : BitVec 16 := 0x0840
def ethTailResp : BitVec 16 := 0x0841
def ethReadReq : BitVec 16 := 0x0870
def ethReadResp : BitVec 16 := 0x0871
def ethSubscribeEntry : BitVec 16 := 0x0850

/-- `type_hdr->type = v`. -/
def setType (buf : List Byte) (v : BitVec 16) : List Byte := store16 buf 0 v

/-- `type_hdr->num_entries`. -/
def numEntries (buf : List Byte) : BitVec 16 := load16 buf 2

/-- `type_hdr->num_entries = v`. -/
def setNumEntries (buf : List Byte) (v : BitVec 16) : List Byte := store16 buf 2 v

namespace AppendEntry

def nonce (buf : List Byte) : BitVec 32 := load32 buf sizeofRingType
def payloadSize (buf : List Byte) : BitVec 32 := load32 buf (sizeofRingType + 4)
def gIdx (buf : List Byte) : BitVec 32 := load32 buf (sizeofRingType + 12)
def clientIp (buf : List Byte) : BitVec 32 := load32 buf (sizeofRingType + 36)
def recvPort (buf : List Byte) : BitVec 16 := load16 buf (sizeofRingType + 40)

/-- `append_entry->g_idx = v`. -/
def setGIdx (buf : List Byte) (v : BitVec 32) : List Byte := store32 buf (sizeofRingType + 12) v

end AppendEntry

namespace ReadEntry

def nonce (buf : List Byte) : BitVec 32 := load32 buf sizeofRingType
def payloadSize (buf : List Byte) : BitVec 32 := load32 buf (sizeofRingType + 4)
def streamId (buf : List Byte) : BitVec 32 := load32 buf (sizeofRingType + 8)
def gIdx (buf : List Byte) : BitVec 32 := load32 buf (sizeofRingType + 12)
def recvPort (buf : List Byte) : BitVec 16 := load16 buf (sizeofRingType + 28)
def clientIp (buf : List Byte) : BitVec 32 := load32 buf (sizeofRingType + 32)

/-- `read_entry->payload_size = v`. -/
def setPayloadSize (buf : List Byte) (v : BitVec 32) : List Byte :=
  store32 buf (sizeofRingType + 4) v

end ReadEntry

namespace TailReq

def nonce (buf : List Byte) : BitVec 32 := load32 buf sizeofRingType
def tailSeqNo (buf : List Byte) : BitVec 32 := load32 buf (sizeofRingType + 8)
def clientIp (buf : List Byte) : BitVec 32 := load32 buf (sizeofRingType + 12)
def recvPort (buf : List Byte) : BitVec 16 := load16 buf (sizeofRingType + 16)

/-- `tail_entry->tail_seq_no = v`. -/
def setTailSeqNo (buf : List Byte) (v : BitVec 32) : List Byte :=
  store32 buf (sizeofRingType + 8) v

end TailReq

namespace SubscribeEntry

def streamId (buf : List Byte) : BitVec 32 := load32 buf (sizeofRingType + 4)
def clientIp (buf : List Byte) : BitVec 32 := load32 buf (sizeofRingType + 12)
def recvPort (buf : List Byte) : BitVec 16 := load16 buf (sizeofRingType + 16)

end SubscribeEntry

/-- `ntohl(append_entry->g_idx)`. -/
def seqNo (gIdx : BitVec 32) : BitVec 64 := (ntohl gIdx).setWidth 64

theorem toNat_seqNo_htonl (x : BitVec 64) :
    (seqNo (htonl (x.truncate 32))).toNat = x.toNat % 2 ^ 32 := by
  rw [seqNo, ntohl_htonl, BitVec.truncate_eq_setWidth, BitVec.toNat_setWidth,
    BitVec.toNat_setWidth]
  omega

/-- The two buffers have the same bytes in their headers, the packet type aside. -/
def SameHeaders (buf buf' : List Byte) : Prop :=
  ∀ i, 2 ≤ i → i < sizeofHeaders → byteAt buf i = byteAt buf' i

namespace SameHeaders

variable {buf buf' buf'' rest : List Byte} {n : Nat}

theorem trans (h : SameHeaders buf buf') (h' : SameHeaders buf' buf'') : SameHeaders buf buf'' :=
  fun i h2 hi => (h i h2 hi).trans (h' i h2 hi)

theorem gIdx (h : SameHeaders buf buf') : AppendEntry.gIdx buf = AppendEntry.gIdx buf' := by
  refine load32_congr ?_
  intro i hlo hhi
  simp only [sizeofRingType] at hlo hhi
  exact h i (by omega) (by simp only [sizeofHeaders, sizeofRingType, sizeofRingAppendEntry]; omega)

theorem payloadSize (h : SameHeaders buf buf') :
    AppendEntry.payloadSize buf = AppendEntry.payloadSize buf' := by
  refine load32_congr ?_
  intro i hlo hhi
  simp only [sizeofRingType] at hlo hhi
  exact h i (by omega) (by simp only [sizeofHeaders, sizeofRingType, sizeofRingAppendEntry]; omega)

theorem clientIp (h : SameHeaders buf buf') :
    AppendEntry.clientIp buf = AppendEntry.clientIp buf' := by
  refine load32_congr ?_
  intro i hlo hhi
  simp only [sizeofRingType] at hlo hhi
  exact h i (by omega) (by simp only [sizeofHeaders, sizeofRingType, sizeofRingAppendEntry]; omega)

theorem recvPort (h : SameHeaders buf buf') :
    AppendEntry.recvPort buf = AppendEntry.recvPort buf' := by
  refine load16_congr ?_
  intro i hlo hhi
  simp only [sizeofRingType] at hlo hhi
  exact h i (by omega) (by simp only [sizeofHeaders, sizeofRingType, sizeofRingAppendEntry]; omega)

theorem setType (buf : List Byte) (v : BitVec 16) : SameHeaders (setType buf v) buf :=
  fun _ h2 _ => byteAt_store16_ne (.inr (by omega))

theorem append_left (h : sizeofHeaders ≤ buf.length) : SameHeaders (buf ++ rest) buf :=
  fun _ _ hi => byteAt_append_left (by omega)

theorem take (h : sizeofHeaders ≤ n) : SameHeaders (buf.take n) buf :=
  fun _ _ hi => byteAt_take (by omega)

end SameHeaders

end Pringles.Software
