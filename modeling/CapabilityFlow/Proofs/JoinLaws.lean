import CapabilityFlow.Proofs.Facts

namespace CapabilityFlow

/-- The laws of a join with an identity, up to the equality that its elements are compared by. -/
structure JoinLaws {α : Type} [BEq α] (join : α → α → α) (bottom : α) : Prop where
  comm a b : join a b == join b a
  assoc a b c : join (join a b) c == join a (join b c)
  idem a : join a a == a
  bottom_join a : join bottom a == a
  join_bottom a : join a bottom == a

/-- The laws hold of any join that says what either of its sides says, where being equal is saying
the same and the identity says nothing. -/
theorem JoinLaws.of_meaning {α φ : Type} [BEq α] {join : α → α → α} {bottom : α}
    {Says : α → φ → Prop}
    (beq_iff : ∀ a b, (a == b) = true ↔ ∀ f, Says a f ↔ Says b f)
    (says_join : ∀ a b f, Says (join a b) f ↔ Says a f ∨ Says b f)
    (says_bottom : ∀ f, ¬ Says bottom f) : JoinLaws join bottom where
  comm a b := by
    rw [beq_iff]
    intro f
    rw [says_join, says_join]
    exact or_comm
  assoc a b c := by
    rw [beq_iff]
    intro f
    rw [says_join, says_join, says_join, says_join]
    exact or_assoc
  idem a := by
    rw [beq_iff]
    intro f
    rw [says_join]
    exact or_self_iff
  bottom_join a := by
    rw [beq_iff]
    intro f
    rw [says_join]
    exact or_iff_right (says_bottom f)
  join_bottom a := by
    rw [beq_iff]
    intro f
    rw [says_join]
    exact or_iff_left (says_bottom f)

variable {α : Type} [DecidableEq α]

namespace ValueSet

theorem meet_joinLaws : JoinLaws meet (empty : ValueSet α) :=
  .of_meaning (fun _ _ => beq_iff) (fun _ _ _ => mem_meet) fun _ => List.not_mem_nil

theorem contains_meet (a b : ValueSet α) (x : α) :
    (a.meet b).contains x = (a.contains x || b.contains x) := by
  rw [Bool.eq_iff_iff, Bool.or_eq_true, contains_iff, contains_iff, contains_iff]
  exact mem_meet

end ValueSet

namespace SlotState

theorem join_joinLaws : JoinLaws join (∅ : SlotState α) :=
  .of_meaning (fun _ _ => beq_iff_same) (fun _ _ => says_join) not_says_empty

end SlotState

/-- Joins of value sets and of states obey the same laws: a set holds just the values of the two
that it is joined from, a state holds in each slot the join of what the two hold there, whichever
slots are bound and in whatever order, and joining in place is joining. -/
theorem joins_lawful :
    JoinLaws ValueSet.meet (.empty : ValueSet α) ∧
    (∀ (a b : ValueSet α) (x : α), x ∈ (a.meet b).toList ↔ x ∈ a.toList ∨ x ∈ b.toList) ∧
    (∀ (a b : ValueSet α) (x : α), (a.meet b).contains x = (a.contains x || b.contains x)) ∧
    JoinLaws SlotState.join (∅ : SlotState α) ∧
    (∀ (p q : SlotState α) (slot : Slot),
      (p.join q).get slot = (p.get slot).meet (q.get slot)) ∧
    ∀ p q : SlotState α, (SlotState.joinInPlace q).run p = ((), p.join q) :=
  ⟨ValueSet.meet_joinLaws, fun _ _ _ => ValueSet.mem_meet, ValueSet.contains_meet,
    SlotState.join_joinLaws, SlotState.get_join, fun _ _ => rfl⟩

/-- A slot that is bound to nothing comes first in one of the two joins and last in the other. -/
example :
    (((∅ : SlotState Nat).set (.localVar 0) .empty).join ((∅ : SlotState Nat).set .this (.one 1)) ==
      ((∅ : SlotState Nat).set .this (.one 1)).join
        ((∅ : SlotState Nat).set (.localVar 0) .empty)) = true := by
  decide

end CapabilityFlow
