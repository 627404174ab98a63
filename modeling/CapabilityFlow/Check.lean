import CapabilityFlow.Capabilities
import CapabilityFlow.Diagnostic
import CapabilityFlow.Symbol

namespace CapabilityFlow

structure Mark where
  type : TypeName
  required : Capabilities
  deriving DecidableEq

/-- The types marked so far: each mark once, in the order of the first times. -/
structure MarkedTypes where
  toList : List Mark := []
  nodup : toList.Nodup := by decide

namespace MarkedTypes

instance : EmptyCollection MarkedTypes := ⟨{}⟩
instance : Inhabited MarkedTypes := ⟨∅⟩

def insert (marked : MarkedTypes) (m : Mark) : MarkedTypes :=
  if h : m ∈ marked.toList then marked
  else ⟨marked.toList ++ [m], by
    refine List.nodup_append.2 ⟨marked.nodup, by simp, ?_⟩
    rintro a ha b hb rfl
    rw [List.mem_singleton] at hb
    exact h (hb ▸ ha)⟩

def insertAll (marked : MarkedTypes) (marks : List Mark) : MarkedTypes :=
  marks.foldl insert marked

@[simp] theorem toList_empty : (∅ : MarkedTypes).toList = [] := rfl

theorem toList_insert (marked : MarkedTypes) (m : Mark) :
    (marked.insert m).toList =
      if m ∈ marked.toList then marked.toList else marked.toList ++ [m] := by
  unfold insert
  split <;> rfl

@[simp] theorem mem_insert {marked : MarkedTypes} {m m' : Mark} :
    m' ∈ (marked.insert m).toList ↔ m' ∈ marked.toList ∨ m' = m := by
  rw [toList_insert]
  split
  · rename_i h
    exact ⟨.inl, fun h' => h'.elim id (· ▸ h)⟩
  · simp

theorem mem_insertAll {marked : MarkedTypes} {marks : List Mark} {m : Mark} :
    m ∈ (marked.insertAll marks).toList ↔ m ∈ marked.toList ∨ m ∈ marks := by
  induction marks generalizing marked with
  | nil => simp [insertAll]
  | cons m' marks ih =>
    rw [insertAll, List.foldl_cons, ← insertAll, ih, mem_insert, List.mem_cons, or_assoc]

theorem prefix_insert (marked : MarkedTypes) (m : Mark) :
    marked.toList <+: (marked.insert m).toList := by
  rw [toList_insert]
  split
  · exact List.prefix_refl _
  · exact List.prefix_append _ _

/-- Marks that are made later come behind those that were made before. -/
theorem prefix_insertAll (marked : MarkedTypes) (marks : List Mark) :
    marked.toList <+: (marked.insertAll marks).toList := by
  induction marks generalizing marked with
  | nil => exact List.prefix_refl _
  | cons m marks ih => exact (marked.prefix_insert m).trans (ih (marked.insert m))

theorem insertAll_eq_self_iff {marked : MarkedTypes} {marks : List Mark} :
    marked.insertAll marks = marked ↔ ∀ m ∈ marks, m ∈ marked.toList := by
  constructor
  · intro h m hm
    rw [← h]
    exact mem_insertAll.2 (.inr hm)
  · intro h
    induction marks with
    | nil => rfl
    | cons m marks ih =>
      rw [List.forall_mem_cons] at h
      rw [insertAll, List.foldl_cons, insert, dif_pos h.1]
      exact ih h.2

end MarkedTypes

inductive Event where
  | report (diagnostic : Diagnostic)
  | mark (mark : Mark)
  deriving DecidableEq

namespace Event

def diagnostic? : Event → Option Diagnostic
  | report d => some d
  | mark _ => none

def mark? : Event → Option Mark
  | report _ => none
  | mark m => some m

end Event

def DiagnosticLog.record (log : DiagnosticLog) (events : List Event) : DiagnosticLog :=
  (events.filterMap Event.diagnostic?).foldl report log

theorem DiagnosticLog.toList_record (log : DiagnosticLog) (events : List Event) :
    (log.record events).toList = log.toList ++ events.filterMap Event.diagnostic? :=
  log.toList_foldl_report _

/-- A result or a violation, with the events up to there. -/
structure Check (α : Type) where
  events : List Event
  outcome : Except Violation α

namespace Check

variable {α β γ : Type}

def done (a : α) : Check α := ⟨[], .ok a⟩

def fail (v : Violation) : Check α := ⟨[], .error v⟩

def emit (events : List Event) : Check Unit := ⟨events, .ok ()⟩

def ofExcept (outcome : Except Violation α) : Check α := ⟨[], outcome⟩

/-- Goes on with the result of a check; a violation ends both. -/
def andThen (c : Check α) (next : α → Check β) : Check β :=
  match c.outcome with
  | .error v => ⟨c.events, .error v⟩
  | .ok a =>
    let d := next a
    ⟨c.events ++ d.events, d.outcome⟩

instance : Monad Check where
  pure := done
  bind := andThen

def diagnostics (c : Check α) : List Diagnostic := c.events.filterMap Event.diagnostic?

def marks (c : Check α) : List Mark := c.events.filterMap Event.mark?

@[simp] theorem pure_eq (a : α) : (pure a : Check α) = done a := rfl
@[simp] theorem bind_eq (c : Check α) (next : α → Check β) : c >>= next = c.andThen next := rfl

@[simp] theorem done_andThen (a : α) (next : α → Check β) : (done a).andThen next = next a := rfl

@[simp] theorem fail_andThen (v : Violation) (next : α → Check β) :
    (fail v).andThen next = fail v := rfl

theorem ext {c d : Check α} (he : c.events = d.events) (ho : c.outcome = d.outcome) : c = d := by
  cases c; cases d; cases he; cases ho; rfl

@[simp] theorem andThen_done (c : Check α) : c.andThen done = c := by
  obtain ⟨events, outcome⟩ := c
  cases outcome <;> simp [andThen, done]

theorem andThen_assoc (c : Check α) (f : α → Check β) (g : β → Check γ) :
    (c.andThen f).andThen g = c.andThen fun a => (f a).andThen g := by
  obtain ⟨events, outcome⟩ := c
  cases outcome with
  | error v => rfl
  | ok a => rcases h : (f a) with ⟨events', _ | b⟩ <;> simp [andThen, h]

end Check

end CapabilityFlow
