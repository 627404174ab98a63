import CapabilityFlow.SlotState
import Mathlib.Data.List.Nodup
import Mathlib.Data.List.Perm.Subperm
import Mathlib.Data.Set.Insert

namespace CapabilityFlow

/-- One thing that a state may say: that a slot is bound, or that it may hold a value. -/
inductive Fact (α : Type) where
  | bound (slot : Slot)
  | holds (slot : Slot) (value : α)

/-- Sets of unlike forms differ in size, and a list of as many values as another has all of them if
the other has all of its own. -/
theorem Storage.beq_eq_true {α : Type} [DecidableEq α] {s t : Storage α} (hs : s.Canonical)
    (ht : t.Canonical) : (s == t) = true ↔ s.size = t.size ∧ ∀ x ∈ s.toList, x ∈ t.toList := by
  cases s <;> cases t <;> simp [BEq.beq, size] <;> grind [Canonical]

namespace ValueSet

variable {α : Type} {a b : ValueSet α}

theorem toList_perm_iff : a.toList.Perm b.toList ↔ ∀ x, x ∈ a ↔ x ∈ b :=
  List.perm_ext_iff_of_nodup a.nodup_toList b.nodup_toList

variable [DecidableEq α]

theorem beq_eq_true : (a == b) = true ↔ a.size = b.size ∧ ∀ x ∈ a, x ∈ b :=
  Storage.beq_eq_true a.canonical b.canonical

theorem beq_iff : (a == b) = true ↔ ∀ x, x ∈ a ↔ x ∈ b := by
  rw [beq_eq_true, ← toList_perm_iff, ← length_toList, ← length_toList]
  constructor
  · intro h
    obtain ⟨hl, hs⟩ := h
    exact (List.subperm_of_subset a.nodup_toList hs).perm_of_length_le hl.ge
  · intro h
    exact ⟨h.length_eq, fun x hx => h.mem_iff.1 hx⟩

end ValueSet

namespace SlotState

variable {α : Type} {a b : SlotState α} {slot : Slot}

def Says (state : SlotState α) : Fact α → Prop
  | .bound slot => slot ∈ state.slots.entries.map Prod.fst
  | .holds slot v => v ∈ state.get slot

/-- Two states say the same. -/
def Same (a b : SlotState α) : Prop := ∀ f, a.Says f ↔ b.Says f

/-- A state says what some states of a set say, and nothing else. -/
def Collects (join : SlotState α) (states : Set (SlotState α)) : Prop :=
  ∀ f, join.Says f ↔ ∃ s ∈ states, s.Says f

theorem Collects.same {states : Set (SlotState α)} (ha : a.Collects states)
    (hb : b.Collects states) : a.Same b :=
  fun f => (ha f).trans (hb f).symm

theorem collects_singleton : a.Collects {b} ↔ a.Same b := by
  simp only [Collects, Set.mem_singleton_iff, exists_eq_left, Same]

theorem says_holds {v : α} : a.Says (.holds slot v) ↔ v ∈ a.get slot := Iff.rfl

theorem says_bound : a.Says (.bound slot) ↔ ∃ values, a.slots.get? slot = some values := by
  unfold Says OrderedMap.get?
  rw [← not_iff_not, ← Bindings.get?_eq_none]
  cases Bindings.get? slot a.slots.entries <;> simp

theorem not_says_empty (f : Fact α) : ¬ (∅ : SlotState α).Says f := by
  cases f with
  | bound slot => exact List.not_mem_nil
  | holds slot v => exact List.not_mem_nil

theorem says_set_bound {slot' : Slot} {values : ValueSet α} :
    (a.set slot values).Says (.bound slot') ↔ slot' = slot ∨ a.Says (.bound slot') := by
  simp only [says_bound, set, OrderedMap.get?_insert]
  by_cases h : slot = slot'
  · simp [h]
  · simp [h, Ne.symm h]

theorem says_set_holds {slot' : Slot} {values : ValueSet α} {v : α} :
    (a.set slot values).Says (.holds slot' v) ↔
      if slot = slot' then v ∈ values else a.Says (.holds slot' v) := by
  simp only [Says, get_set]
  split <;> rfl

variable [DecidableEq α]

theorem says_add_bound {slot' : Slot} {values : ValueSet α} :
    (a.add slot values).Says (.bound slot') ↔ slot' = slot ∨ a.Says (.bound slot') := by
  unfold add
  split <;> exact says_set_bound

theorem says_foldl_add_bound {entries : List (Slot × ValueSet α)} :
    (entries.foldl (fun state entry => state.add entry.1 entry.2) a).Says (.bound slot) ↔
      a.Says (.bound slot) ∨ slot ∈ entries.map Prod.fst := by
  induction entries generalizing a with
  | nil => simp
  | cons entry entries ih =>
    rw [List.foldl_cons, ih, says_add_bound, List.map_cons, List.mem_cons, or_comm (a := slot = _),
      or_assoc]

/-- A join says what either of its states says. -/
theorem says_join (f : Fact α) : (a.join b).Says f ↔ a.Says f ∨ b.Says f := by
  cases f with
  | holds slot v => rw [says_holds, get_join, ValueSet.mem_meet, says_holds, says_holds]
  | bound slot =>
    rw [join_eq_foldl]
    exact says_foldl_add_bound

theorem says_foldl_join {states : List (SlotState α)} (f : Fact α) :
    (states.foldl join a).Says f ↔ a.Says f ∨ ∃ s ∈ states, s.Says f := by
  induction states generalizing a with
  | nil => simp
  | cons s states ih =>
    rw [List.foldl_cons, ih, says_join, or_assoc, List.exists_mem_cons_iff]

theorem beq_eq_true : (a == b) = true ↔ a.slots.entries.length = b.slots.entries.length ∧
    ∀ slot values, a.slots.get? slot = some values →
      ∃ values', b.slots.get? slot = some values' ∧ (values == values') = true := by
  have he : (a == b) = (decide (a.slots.entries.length = b.slots.entries.length)
      && a.slots.entries.all _) := rfl
  rw [he, Bool.and_eq_true, decide_eq_true_eq, List.all_eq_true]
  simp only [Prod.forall, OrderedMap.get?_eq_some_iff (m := a.slots)]
  refine and_congr_right fun _ => forall₃_congr fun slot values _ => ?_
  cases b.slots.get? slot <;> simp

theorem beq_iff_same : (a == b) = true ↔ a.Same b := by
  rw [beq_eq_true]
  constructor
  · intro h
    obtain ⟨hl, hv⟩ := h
    have hk : a.slots.entries.map Prod.fst ⊆ b.slots.entries.map Prod.fst := by
      intro slot hs
      obtain ⟨values, hs⟩ := says_bound.1 hs
      obtain ⟨values', hs', -⟩ := hv slot values hs
      exact says_bound.2 ⟨values', hs'⟩
    have hp : (a.slots.entries.map Prod.fst).Perm (b.slots.entries.map Prod.fst) :=
      (List.subperm_of_subset a.slots.nodup_keys hk).perm_of_length_le (by simp [hl])
    intro f
    cases f with
    | bound slot => exact hp.mem_iff
    | holds slot v =>
      rw [says_holds, says_holds, get, get]
      cases hs : a.slots.get? slot with
      | some values =>
        obtain ⟨values', hs', he⟩ := hv slot values hs
        rw [hs']
        exact ValueSet.beq_iff.1 he v
      | none =>
        have hs' : b.slots.get? slot = none :=
          Bindings.get?_eq_none.2 fun hm => Bindings.get?_eq_none.1 hs (hp.mem_iff.2 hm)
        rw [hs']
  · intro h
    have hp : (a.slots.entries.map Prod.fst).Perm (b.slots.entries.map Prod.fst) :=
      (List.perm_ext_iff_of_nodup a.slots.nodup_keys b.slots.nodup_keys).2 fun slot =>
        h (.bound slot)
    refine ⟨by simpa using hp.length_eq, fun slot values hs => ?_⟩
    obtain ⟨values', hs'⟩ := says_bound.1 ((h (.bound slot)).1 (says_bound.2 ⟨values, hs⟩))
    refine ⟨values', hs', ValueSet.beq_iff.2 fun v => ?_⟩
    simpa only [says_holds, get, hs, hs', Option.getD_some] using h (.holds slot v)

end SlotState

end CapabilityFlow
