import CapabilityFlow.OrderedMap
import CapabilityFlow.ValueSet

namespace CapabilityFlow

inductive Slot where
  | localVar (index : UInt32)
  | parameter (index : UInt32)
  | this
  deriving DecidableEq

structure SlotState (α : Type) where
  slots : OrderedMap Slot (ValueSet α)

namespace SlotState

variable {α : Type}

def empty : SlotState α := ⟨∅⟩

instance : EmptyCollection (SlotState α) := ⟨empty⟩
instance : Inhabited (SlotState α) := ⟨empty⟩

def get (state : SlotState α) (slot : Slot) : ValueSet α :=
  (state.slots.get? slot).getD .empty

def set (state : SlotState α) (slot : Slot) (values : ValueSet α) : SlotState α :=
  ⟨state.slots.insert slot values⟩

@[simp] theorem get_empty (slot : Slot) : (∅ : SlotState α).get slot = .empty := rfl

theorem get_set (state : SlotState α) (slot slot' : Slot) (values : ValueSet α) :
    (state.set slot values).get slot' = if slot = slot' then values else state.get slot' := by
  simp only [get, set, OrderedMap.get?_insert]
  split <;> rfl

variable [DecidableEq α]

/-- Adds the values of one slot; a slot that is not bound yet takes them as they are. -/
def add (state : SlotState α) (slot : Slot) (values : ValueSet α) : SlotState α :=
  match state.slots.get? slot with
  | some old => state.set slot (old.meet values)
  | none => state.set slot values

/-- Joins another state into the current one, slot by slot. -/
def joinInPlace (other : SlotState α) : StateM (SlotState α) Unit :=
  other.slots.entries.forM fun entry => modify (·.add entry.1 entry.2)

/-- The state that joining in place leaves behind. -/
def join (a b : SlotState α) : SlotState α := ((joinInPlace b).run a).2

theorem join_eq_foldl (a b : SlotState α) :
    a.join b = b.slots.entries.foldl (fun state entry => state.add entry.1 entry.2) a := by
  have hrun (entries : List (Slot × ValueSet α)) : ∀ state : SlotState α,
      (entries.forM fun entry => modify (·.add entry.1 entry.2) : StateM _ Unit).run state =
        ((), entries.foldl (fun state entry => state.add entry.1 entry.2) state) := by
    induction entries with
    | nil => exact fun _ => rfl
    | cons entry entries ih => exact fun state => ih (state.add entry.1 entry.2)
  rw [join, joinInPlace, hrun]

theorem get_add (state : SlotState α) (slot slot' : Slot) (values : ValueSet α) :
    (state.add slot values).get slot' =
      if slot = slot' then (state.get slot).meet values else state.get slot' := by
  unfold add
  split
  · rename_i old h
    rw [get_set]
    simp [get, h]
  · rename_i h
    rw [get_set]
    simp [get, h]

theorem get_foldl_add (entries : List (Slot × ValueSet α)) (h : (entries.map Prod.fst).Nodup)
    (state : SlotState α) (slot : Slot) :
    (entries.foldl (fun state entry => state.add entry.1 entry.2) state).get slot =
      (state.get slot).meet ((Bindings.get? slot entries).getD .empty) := by
  induction entries generalizing state with
  | nil => simp [Bindings.get?]
  | cons entry entries ih =>
    rw [List.map_cons, List.nodup_cons] at h
    rw [List.foldl_cons, ih h.2, get_add]
    by_cases hs : entry.1 = slot
    · subst hs
      simp [Bindings.get?, Bindings.get?_eq_none.2 h.1]
    · simp [Bindings.get?, hs]

theorem get_join (a b : SlotState α) (slot : Slot) :
    (a.join b).get slot = (a.get slot).meet (b.get slot) := by
  rw [join_eq_foldl]
  exact get_foldl_add b.slots.entries b.slots.nodup_keys a slot

instance : BEq (SlotState α) where
  beq a b :=
    a.slots.entries.length = b.slots.entries.length
      && a.slots.entries.all fun (slot, values) =>
        match b.slots.get? slot with
        | some values' => values == values'
        | none => false

end SlotState

end CapabilityFlow
