import Pringles.Ring.Invariant
import Pringles.Switch.ViewChange

/-!
# View changes in a ring with one control packet

The control packet never comes back with less than it had, so the base of a batch covers all batches
before it. What the answer to a view-change request misses is the last batch, and nothing else.
-/

namespace Pringles.P4

namespace Ring

variable {ι : Type} {N : Net ι} {R : Ring ι} {i : ι} {q : Headers} {tstamp : BitVec 48} {out : Pipe}

/-- The base of the last batch covers the batches before, and no append of its own. -/
theorem Inv.lastCovers_iff (h : R.Inv) (hlt : R.arrived < 2 ^ 32) (hne : (R.sw i).batches ≠ []) :
    (R.sw i).LastCovers ((R.sw i).batches.getLast hne) ↔
      ∀ f ∈ ((R.sw i).batches.getLast hne).tickets, ¬ f.hdr.IsAppend := by
  constructor
  · intro hcovers f hf ha
    obtain ⟨j, hj⟩ := List.getElem?_of_mem hf
    have hlen : j < ((R.sw i).batches.getLast hne).tickets.length :=
      (List.getElem?_eq_some_iff.1 hj).1
    have hbound := (h.bounded hlt i).closed _ (List.getLast_mem hne)
    refine hcovers.none j f hj ha ⟨?_, ?_⟩
    · rw [Nat.mod_eq_of_lt (by omega)]
      exact Nat.succ_pos j
    · rw [Nat.mod_eq_of_lt (by omega)]
      omega
  · intro hnone
    refine Switch.lastCovers_of_le hnone ?_
    intro b hb
    have hpair := h.increasing i
    rw [← List.dropLast_append_getLast hne] at hpair
    exact (List.pairwise_append.1 hpair).2.2 b hb _ (List.mem_singleton_self _)

variable [DecidableEq ι] {hdr : Headers} {tr : List (Event ι × Served ι)}

/-- With one control packet, an answer covers every append that its switch has numbered if and only
if the batch that the switch closed last has no append. -/
theorem answer_covers_iff (hr : (machine N).Run (start hdr) tr R)
    (hA : ∀ x ∈ tr, x.1.Arrives Headers.Enters) (hlt : R.arrived < 2 ^ 32)
    (hne : (R.sw i).batches ≠ []) (hq : MyIngress.Answered N.program q)
    (hout : MyIngress.apply N.program (N.tables i) tstamp (R.sw i).regs q = some out) :
    (R.sw i).Covers out.hdr.startView.highestSeenSeqNo ↔
      ∀ f ∈ ((R.sw i).batches.getLast hne).tickets, ¬ f.hdr.IsAppend := by
  have h := inv_run hr hA hlt
  rw [(h.numbered i).slots.view_eq_base hne hq hout, Switch.covers_base_iff]
  exact h.lastCovers_iff hlt hne

end Ring

end Pringles.P4
