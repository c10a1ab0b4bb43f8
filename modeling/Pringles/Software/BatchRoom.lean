import Pringles.Software.SendBatch

/-!
# The room in the batch buffer

`Network::send_udp_packet` leaves a packet in the buffer when another one of the same size would fit
behind it. The next packet may be larger. So the packets stay within the buffer exactly when one that
is larger than the packet before it finds room (`contained_iff`).
-/

namespace Pringles.Software

namespace SendBatch

variable {δ : Type} {batchSize : Nat} {s s' m : SendBatch} {c : SendCall δ}
  {g : List (SendCall δ)} {o : Option (δ × List Byte)} {cs : List (SendCall δ)}

/-- Every call copies into the buffer, and leaves a size within it. -/
def Contained (batchSize : Nat) (s : SendBatch) (cs : List (SendCall δ)) : Prop :=
  ∀ pre, pre <+: cs → ∃ q, (machine δ ⟨true, batchSize⟩).exec s pre = some q ∧
    q.1.runningPktSize ≤ maxPacketSize

/-- Behind the packets `g`, a packet that is larger than the last of them finds room. -/
def Fits (g : List (SendCall δ)) (c : SendCall δ) : Prop :=
  ∀ last ∈ g.getLast?, last.packet.length < c.packet.length →
    (bytes g).length + c.packet.length ≤ maxPacketSize

/-- The last packet in the buffer would fit once more. -/
def Roomy (g : List (SendCall δ)) : Prop :=
  ∀ last ∈ g.getLast?, (bytes g).length + last.packet.length < maxPacketSize

/-! ## One call -/

/-- A call that leaves its packet in the buffer has found room for it twice. -/
theorem Holds.roomy_of_waits (h : s.Holds g) (hroom : Roomy g)
    (hs : s.sendUdpPacket ⟨true, batchSize⟩ c = some (s', none)) : Roomy (g ++ given c) := by
  by_cases hnil : g ++ given c = []
  · rw [hnil]
    intro last hlast
    cases hlast
  · have hwaits : ¬ s.Completes batchSize c := by
      intro hcompletes
      exact Bool.false_ne_true ((h.send_isSome hs).2 ⟨hcompletes, hnil⟩)
    have htwice : s.runningPktSize + c.packet.length + c.packet.length < maxPacketSize := by
      simp only [Completes, not_or, Nat.not_le] at hwaits
      exact hwaits.2.1
    unfold given
    split
    · rwa [List.append_nil]
    · intro last hlast
      rw [List.getLast?_concat, Option.mem_some_iff] at hlast
      subst hlast
      rw [bytes_append, List.length_append, ← h.size]
      simpa [bytes] using htwice

/-- A call returns exactly when a packet larger than the last one finds room. -/
theorem Holds.isSome_send_iff (h : s.Holds g) (hroom : Roomy g)
    (hsize : c.packet.length ≤ maxPacketSize) :
    (s.sendUdpPacket ⟨true, batchSize⟩ c).isSome ↔ Fits g c := by
  have hoff : (⟨true, batchSize⟩ : Config).batchOn = false → g = [] := fun hf => nomatch hf
  unfold sendUdpPacket
  rw [Option.isSome_map, h.isSome_load hoff, h.size]
  constructor
  · rintro (hnil | hfits) last hlast hlt
    · rw [hnil] at hlt
      exact absurd hlt (Nat.not_lt_zero _)
    · exact hfits
  · intro hfits
    cases hlast : g.getLast? with
    | none =>
      rw [List.getLast?_eq_none_iff] at hlast
      subst hlast
      exact .inr (by simpa [bytes] using hsize)
    | some last =>
      by_cases hlt : last.packet.length < c.packet.length
      · exact .inr (hfits last hlast hlt)
      · have htwice := hroom last hlast
        exact .inr (by omega)

/-! ## All calls -/

/-- What the calls of a run have left in the buffer. -/
theorem holds_exec {tr : List (SendCall δ × Output δ)} (h : s.Fresh)
    (hr : (machine δ ⟨true, batchSize⟩).Run s tr m) :
    m.Holds (batches tr).opened ∧ Roomy (batches tr).opened := by
  induction hr with
  | nil =>
    refine ⟨h.holds, fun last hlast => ?_⟩
    cases hlast
  | @snoc m m' tr c o hr hs ih =>
    refine ⟨(holds_run (hr.snoc hs) h).1, ?_⟩
    obtain ⟨-, hs⟩ := machine_eq_some (x := (c, o)) hs
    obtain ⟨found, sent⟩ := o
    cases sent with
    | none =>
      rw [batches, Grouping.group_snoc_none (by rfl)]
      exact ih.1.roomy_of_waits ih.2 hs
    | some d =>
      rw [batches, Grouping.group_snoc_some (o := d) (by rfl)]
      intro last hlast
      cases hlast

/-- Every packet that is larger than the one before it in its batch finds room behind what is
pending. -/
def AllFit (batchSize : Nat) (s : SendBatch) (cs : List (SendCall δ)) : Prop :=
  ∀ pre c post, cs = pre ++ c :: post → ∀ m tr,
    (machine δ ⟨true, batchSize⟩).exec s pre = some (m, tr) → Fits (batches tr).opened c

theorem Contained.allFit (hall : Contained batchSize s cs) (h : s.Fresh)
    (hsize : ∀ c ∈ cs, c.packet.length ≤ maxPacketSize) : AllFit batchSize s cs := by
  rintro pre c post rfl m tr hexec
  obtain ⟨hholds, hroom⟩ := holds_exec h (.of_exec hexec)
  have hiff : (m.sendUdpPacket ⟨true, batchSize⟩ c).isSome ↔ Fits (batches tr).opened c :=
    hholds.isSome_send_iff hroom (hsize c (by simp))
  rw [← hiff]
  obtain ⟨q, hq, -⟩ := hall (pre ++ [c]) ⟨post, by simp⟩
  rw [Machine.exec_snoc hexec] at hq
  obtain ⟨p, hp, -⟩ := Option.map_eq_some_iff.1 hq
  exact Option.isSome_of_eq_some (machine_eq_some (x := (c, p.2)) hp).2

/-- **The buffer never overflows, exactly when larger packets find room.** -/
theorem contained_iff (h : s.Fresh) (hsize : ∀ c ∈ cs, c.packet.length ≤ maxPacketSize) :
    Contained batchSize s cs ↔ AllFit batchSize s cs := by
  refine ⟨fun hall => hall.allFit h hsize, ?_⟩
  · intro hfit pre hpre
    induction pre using List.reverseRecOn with
    | nil => exact ⟨(s, []), rfl, h.size ▸ Nat.zero_le _⟩
    | append_singleton pre c ih =>
      obtain ⟨⟨m, tr⟩, hexec, -⟩ := ih ((List.prefix_append _ _).trans hpre)
      obtain ⟨hholds, hroom⟩ := holds_exec h (.of_exec hexec)
      obtain ⟨post, rfl⟩ := hpre
      have hc : Fits (batches tr).opened c := hfit pre c post (by simp) m tr hexec
      obtain ⟨⟨m', o⟩, hs⟩ := Option.isSome_iff_exists.1
        (show (m.sendUdpPacket ⟨true, batchSize⟩ c).isSome from
          (hholds.isSome_send_iff hroom (hsize c (by simp))).2 hc)
      have hexec' := Machine.exec_snoc hexec c
      rw [machine_step hs] at hexec'
      refine ⟨_, hexec', ?_⟩
      have hholds' := (holds_exec h (.of_exec hexec')).1
      exact hholds'.size ▸ hholds'.length_le

/-! ## A larger packet -/

/-- A call in time, with a packet of a given size. -/
def sizedCall (size : Nat) : SendCall Nat := ⟨0, List.replicate size 1, true⟩

theorem length_sizedCall (size : Nat) : (sizedCall size).packet.length = size :=
  List.length_replicate

theorem given_sizedCall {size : Nat} (h : 0 < size) : given (sizedCall size) = [sizedCall size] := by
  refine if_neg ?_
  intro hnil
  have hlen := length_sizedCall size
  rw [hnil, List.length_nil] at hlen
  omega

/-- The first packet of a batch of two waits for the second. -/
theorem opened_sizedCall {size : Nat} {tr : List (SendCall Nat × Output Nat)} (hpos : 0 < size)
    (hsize : 2 * size < maxPacketSize)
    (hexec : (machine Nat ⟨true, 2⟩).exec emptyBatch [sizedCall size] = some (m, tr)) :
    (batches tr).opened = [sizedCall size] := by
  rw [← List.nil_append [sizedCall size], Machine.exec_snoc rfl] at hexec
  obtain ⟨⟨m', found, o⟩, hp, heq⟩ := Option.map_eq_some_iff.1 hexec
  obtain ⟨-, hs⟩ := machine_eq_some (x := (sizedCall size, found, o)) hp
  have hwaits : ¬ emptyBatch.Completes 2 (sizedCall size) := by
    rw [Completes, given_sizedCall hpos, length_sizedCall]
    rintro (hnum | hbytes | htimely)
    · exact absurd (show 2 ≤ 0 + 1 from hnum) (by decide)
    · have hzero : emptyBatch.runningPktSize = 0 := rfl
      omega
    · cases htimely
  have hnone : o = none := by
    rw [← Option.not_isSome_iff_eq_none, fresh_emptyBatch.holds.send_isSome hs]
    exact fun hsent => hwaits hsent.1
  subst hnone
  cases heq
  rw [batches, Grouping.group_snoc_none (by rfl)]
  exact given_sizedCall hpos

theorem sizes_sizedCall {sizes : List Nat} (h : ∀ n ∈ sizes, n ≤ maxPacketSize) :
    ∀ c ∈ sizes.map sizedCall, c.packet.length ≤ maxPacketSize := by
  intro c hc
  obtain ⟨n, hn, rfl⟩ := List.mem_map.1 hc
  rw [length_sizedCall]
  exact h n hn

/-- Two packets of one size. -/
theorem contained_two : Contained 2 emptyBatch [sizedCall 100, sizedCall 100] := by
  have hsize : ∀ c ∈ [100, 100].map sizedCall, c.packet.length ≤ maxPacketSize :=
    sizes_sizedCall (by decide)
  refine (contained_iff fresh_emptyBatch hsize).2 ?_
  intro pre c post heq m tr hexec last hlast hlt
  cases pre with
  | nil =>
    cases hexec
    cases hlast
  | cons x pre =>
    obtain ⟨rfl, hrest⟩ := List.cons.inj heq
    cases pre with
    | nil =>
      have hc : sizedCall 100 = c := (List.cons.inj hrest).1
      subst hc
      rw [opened_sizedCall (by decide) (by decide) hexec, List.getLast?_singleton,
        Option.mem_some_iff] at hlast
      rw [hlast] at hlt
      exact absurd hlt (Nat.lt_irrefl _)
    | cons y pre =>
      have hlen := congrArg List.length hrest
      simp at hlen

/-- A packet of 100 bytes waits in the buffer, and one of 8192 bytes does not fit behind it. -/
theorem not_contained : (∀ c ∈ [sizedCall 100, sizedCall 8192],
      c.packet.length ≤ maxPacketSize) ∧
    ¬ Contained 2 emptyBatch [sizedCall 100, sizedCall 8192] := by
  have hsize : ∀ c ∈ [100, 8192].map sizedCall, c.packet.length ≤ maxPacketSize :=
    sizes_sizedCall (by decide)
  refine ⟨hsize, ?_⟩
  intro hall
  obtain ⟨⟨m, tr⟩, hexec, -⟩ := hall [sizedCall 100] ⟨[sizedCall 8192], rfl⟩
  have hfits := hall.allFit fresh_emptyBatch hsize [sizedCall 100] (sizedCall 8192) [] rfl m tr hexec
  rw [opened_sizedCall (by decide) (by decide) hexec] at hfits
  have hroom := hfits (sizedCall 100) rfl (by rw [length_sizedCall, length_sizedCall]; decide)
  rw [length_sizedCall, bytes, List.flatMap_singleton, length_sizedCall] at hroom
  exact absurd hroom (by decide)

end SendBatch

end Pringles.Software
