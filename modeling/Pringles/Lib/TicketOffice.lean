import Mathlib.Data.List.Induction
import Pringles.Lib.BatchOrder

/-!
# An office that stamps its tickets

Tickets are drawn at any number of lanes, and each is stamped with the number of tickets drawn
before it, at whatever lane. The calls that the office has served determine the batch order: its
tickets are the stamps given out (`exists_drawn_iff`), and a ticket has been issued once its lane was
closed after the ticket was drawn (`mem_issued_iff`).
-/

universe u

/-- A ticket is drawn at a lane, or the lane is closed. -/
inductive Call (ι : Type u) where
  | draw (i : ι)
  | close (i : ι)

structure TicketOffice (ι : Type u) where
  order : BatchOrder ι Nat := .empty
  drawn : Nat := 0

namespace TicketOffice

variable {ι : Type u} [DecidableEq ι] {i : ι} {a : Nat} {c d : Call ι} {cs : List (Call ι)}

def serve (O : TicketOffice ι) : Call ι → TicketOffice ι
  | .draw i => ⟨O.order.draw i O.drawn, O.drawn + 1⟩
  | .close i => { O with order := O.order.close i }

/-- The office after a list of calls. -/
def after (cs : List (Call ι)) : TicketOffice ι := cs.foldl serve {}

@[simp] theorem after_nil : after ([] : List (Call ι)) = {} := rfl

@[simp] theorem after_snoc (cs : List (Call ι)) (c : Call ι) :
    after (cs ++ [c]) = (after cs).serve c := by
  simp [after]

/-! ## What has been drawn -/

omit [DecidableEq ι] in
/-- A list is cut at its last entry, or before it. -/
theorem exists_cut_snoc {P : List (Call ι) → List (Call ι) → Prop} :
    (∃ cs₁ cs₂, cs ++ [c] = cs₁ ++ d :: cs₂ ∧ P cs₁ cs₂) ↔
      (∃ cs₁ cs₂, cs = cs₁ ++ d :: cs₂ ∧ P cs₁ (cs₂ ++ [c])) ∨ c = d ∧ P cs [] := by
  constructor
  · rintro ⟨cs₁, cs₂, heq, hP⟩
    rcases List.eq_nil_or_concat cs₂ with rfl | ⟨cs₃, x, rfl⟩
    · obtain ⟨rfl, hx⟩ := List.append_inj' heq rfl
      cases hx
      exact .inr ⟨rfl, hP⟩
    · rw [List.concat_eq_append, ← List.cons_append, ← List.append_assoc] at heq
      obtain ⟨rfl, hx⟩ := List.append_inj' heq rfl
      cases hx
      exact .inl ⟨cs₁, cs₃, rfl, List.concat_eq_append .. ▸ hP⟩
  · rintro (⟨cs₁, cs₂, rfl, hP⟩ | ⟨rfl, hP⟩)
    · exact ⟨cs₁, cs₂ ++ [c], by simp, hP⟩
    · exact ⟨cs, [], rfl, hP⟩

theorem drawn_iff : (after cs).order.Drawn i a ↔
    ∃ cs₁ cs₂, cs = cs₁ ++ .draw i :: cs₂ ∧ (after cs₁).drawn = a := by
  induction cs using List.reverseRecOn with
  | nil => simp
  | append_singleton cs c ih =>
    rw [after_snoc, exists_cut_snoc, ← ih]
    cases c with
    | draw j => simp [serve, BatchOrder.drawn_draw, eq_comm]
    | close j => simp [serve]

/-! ## What has been issued -/

/-- **A ticket has been issued once its lane was closed after the ticket was drawn.** -/
theorem mem_issued_iff : (i, a) ∈ (after cs).order.issued ↔
    ∃ cs₁ cs₂, cs = cs₁ ++ .draw i :: cs₂ ∧ (after cs₁).drawn = a ∧ .close i ∈ cs₂ := by
  induction cs using List.reverseRecOn with
  | nil => simp [BatchOrder.empty]
  | append_singleton cs c ih =>
    rw [after_snoc, exists_cut_snoc]
    cases c with
    | draw j => simp [serve, ih]
    | close j =>
      by_cases hj : j = i
      · -- the lane has just been closed, so what it has drawn has been issued
        subst hj
        have hdrawn : (after cs).order.Drawn j a ↔ _ := drawn_iff
        simpa [serve, BatchOrder.Drawn] using hdrawn
      · simp [serve, hj, Ne.symm hj, ih]

end TicketOffice
