import CapabilityFlow.Evaluation
import CapabilityFlow.Proofs.Facts

namespace CapabilityFlow

variable {α : Type} [DecidableEq α]

theorem ValueSet.isEmpty_eq_of_beq {s t : ValueSet α} (h : (s == t) = true) :
    s.isEmpty = t.isEmpty := by
  rw [Bool.eq_iff_iff, isEmpty_iff, isEmpty_iff]
  simp only [ValueSet.beq_iff.1 h]

namespace SlotState

omit [DecidableEq α] in
theorem says_bound_of_get {state : SlotState α} {slot : Slot}
    (h : (state.get slot).isEmpty = false) : state.Says (.bound slot) := by
  rw [says_bound]
  cases hs : state.slots.get? slot with
  | some values => exact ⟨values, rfl⟩
  | none =>
    rw [get, hs] at h
    cases h

/-- How a state came about, from the empty one. -/
inductive History (α : Type) where
  | start
  | set (before : History α) (slot : Slot) (values : ValueSet α)
  | join (left right : History α)

namespace History

def state : History α → SlotState α
  | start => ∅
  | set before slot values => before.state.set slot values
  | join left right => left.state.join right.state

omit [DecidableEq α] in
/-- Something was assigned to the slot, be it nothing but the empty set. -/
def Assigns : History α → Slot → Prop
  | start, _ => False
  | set before slot _, slot' => slot' = slot ∨ before.Assigns slot'
  | join left right, slot => left.Assigns slot ∨ right.Assigns slot

theorem says_bound_iff {slot : Slot} (h : History α) :
    h.state.Says (.bound slot) ↔ h.Assigns slot := by
  induction h with
  | start => exact iff_of_false (not_says_empty _) id
  | set before slot' values ih => exact says_set_bound.trans (or_congr_right ih)
  | join left right ihLeft ihRight => exact (says_join _).trans (or_congr ihLeft ihRight)

theorem assigns_of_get {slot : Slot} {h : History α} (hs : (h.state.get slot).isEmpty = false) :
    h.Assigns slot :=
  h.says_bound_iff.1 (says_bound_of_get hs)

/-- Two states are equal exactly if every slot reads alike in both, and a slot that reads as the
empty set was assigned on the way to both of them or to neither. -/
theorem beq_iff_reads_alike (h k : History α) :
    (h.state == k.state) = true ↔
      (∀ slot, (h.state.get slot == k.state.get slot) = true) ∧
        ∀ slot, (h.state.get slot).isEmpty = true → (h.Assigns slot ↔ k.Assigns slot) := by
  rw [beq_iff_same]
  constructor
  · intro hsame
    refine ⟨fun slot => ValueSet.beq_iff.2 fun v => hsame (.holds slot v), fun slot _ => ?_⟩
    rw [← says_bound_iff, ← says_bound_iff]
    exact hsame (.bound slot)
  · rintro ⟨hread, hassigned⟩ f
    cases f with
    | holds slot v => exact ValueSet.beq_iff.1 (hread slot) v
    | bound slot =>
      rw [says_bound_iff, says_bound_iff]
      cases he : (h.state.get slot).isEmpty with
      | true => exact hassigned slot he
      | false =>
        -- a slot that reads as something was assigned, and it reads so in both states
        have he' : (k.state.get slot).isEmpty = false := by
          rw [← ValueSet.isEmpty_eq_of_beq (hread slot), he]
        exact iff_of_true (assigns_of_get he) (assigns_of_get he')

end History

end SlotState

/-- Reading a variable that was never assigned gives the empty set, and to assign that one to
another variable gives a state that differs from the empty one, although all slots read alike. -/
theorem MethodBody.assigned_nothing_differs :
    let copied := SlotState.History.start.set (.localVar 0) (.empty : ValueSet Value)
    (∀ (m : MethodBody) (host : Host),
      m.step host ⟨.assign (.localVar 0) (.read (.localVar 1)), {}⟩ ∅ = .done copied.state) ∧
    (∀ slot, (copied.state.get slot == SlotState.History.start.state.get slot) = true) ∧
    (copied.state == SlotState.History.start.state) = false := by
  intro copied
  refine ⟨fun m host => rfl, fun slot => ?_, rfl⟩
  have hget : copied.state.get slot = .empty := by
    rw [SlotState.History.state, SlotState.get_set]
    exact ite_self _
  rw [hget]
  rfl

end CapabilityFlow
