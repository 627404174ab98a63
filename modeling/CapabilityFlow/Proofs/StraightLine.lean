import CapabilityFlow.Proofs.Facts
import CapabilityFlow.Proofs.Violations
import Mathlib.Data.Set.Image

namespace CapabilityFlow

/-- Runs statements one after the other from one state. -/
def MethodBody.execute (m : MethodBody) (host : Host) : List Statement → State → Check State
  | [], state => .done state
  | statement :: code, state => do
    let next ← m.step host statement state
    m.execute host code next

/-- What a statement reports and marks in a state, if it does not violate the contract. -/
def Statement.events (m : MethodBody) (host : Host) (statement : Statement) (state : State) :
    List Event :=
  (statement.operation.demands m.method).flatMap fun d =>
    (d.check m host statement.location state).events

/-- The state after some statements. -/
def finalState (host : Host) (code : List Statement) (state : State) : State :=
  code.foldl (fun s statement => statement.effect host s) state

def statesAfter (host : Host) : List Statement → State → List State
  | [], _ => []
  | statement :: code, state =>
    statement.effect host state :: statesAfter host code (statement.effect host state)

/-- What some statements report and mark. -/
def trace (m : MethodBody) (host : Host) : List Statement → State → List Event
  | [], _ => []
  | statement :: code, state =>
    statement.events m host state ++ trace m host code (statement.effect host state)

section Running

variable {m : MethodBody} {host : Host}

@[simp] theorem finalState_nil (state : State) : finalState host [] state = state := rfl

@[simp] theorem finalState_cons (statement : Statement) (code : List Statement) (state : State) :
    finalState host (statement :: code) state =
      finalState host code (statement.effect host state) := rfl

theorem finalState_append (code code' : List Statement) (state : State) :
    finalState host (code ++ code') state = finalState host code' (finalState host code state) :=
  List.foldl_append

theorem trace_append (code code' : List Statement) (state : State) :
    trace m host (code ++ code') state =
      trace m host code state ++ trace m host code' (finalState host code state) := by
  induction code generalizing state with
  | nil => rfl
  | cons statement code ih =>
    simp only [List.cons_append, trace, ih, List.append_assoc, finalState_cons]

theorem getLast_statesAfter (code : List Statement) (state : State) :
    (statesAfter host code state).getLast?.getD state = finalState host code state := by
  induction code generalizing state with
  | nil => rfl
  | cons statement code ih =>
    rw [statesAfter, finalState_cons, ← ih, List.getLast?_cons]
    rfl

theorem mem_statesAfter {code : List Statement} {state s : State} :
    s ∈ state :: statesAfter host code state ↔
      ∃ ran, ran <+: code ∧ s = finalState host ran state := by
  induction code generalizing state with
  | nil => simp [statesAfter]
  | cons statement code ih =>
    rw [statesAfter, List.mem_cons, ih]
    constructor
    · intro h
      rcases h with rfl | ⟨ran, hr, rfl⟩
      · exact ⟨[], List.nil_prefix, rfl⟩
      · exact ⟨statement :: ran, List.cons_prefix_cons.2 ⟨rfl, hr⟩, rfl⟩
    · intro h
      obtain ⟨ran, hr, rfl⟩ := h
      cases ran with
      | nil => exact .inl rfl
      | cons statement' ran =>
        obtain ⟨rfl, hp⟩ := List.cons_prefix_cons.1 hr
        exact .inr ⟨ran, hp, rfl⟩

theorem MethodBody.checkDemands_eq {location : Location} {state : State} {ds : List Demand}
    (h : ¬ FailsIn m host ds) : m.checkDemands host location state ds =
      ⟨ds.flatMap fun d => (d.check m host location state).events, .ok ()⟩ := by
  have hd : ∀ d ∈ ds, (d.check m host location state).outcome = .ok () := fun d hd =>
    Check.succeeds_iff.1 (Demand.check_succeeds.2 fun hf => h ⟨d, hd, hf⟩)
  apply Check.ext
  · rw [checkDemands, Check.events_all (List.forall_mem_map.2 hd), List.flatMap_map]
  · exact Check.outcome_all.2 (List.forall_mem_map.2 hd)

theorem MethodBody.step_of_admitted {statement : Statement} {state : State}
    (h : ¬ statement.operation.Violates m host) : m.step host statement state =
      ⟨statement.events m host state, .ok (statement.effect host state)⟩ := by
  rw [step_eq, checkDemands_eq (mt failsIn_operation.1 h)]
  simp only [Check.andThen, Check.done, List.append_nil]
  rfl

theorem MethodBody.execute_of_admits {code : List Statement} {state : State}
    (h : m.Admits host code) :
    m.execute host code state = ⟨trace m host code state, .ok (finalState host code state)⟩ := by
  induction code generalizing state with
  | nil => rfl
  | cons statement code ih =>
    obtain ⟨hs, hc⟩ := List.forall_mem_cons.1 h
    rw [execute, step_of_admitted hs, Check.bind_eq, Check.andThen_of_ok rfl, ih hc]
    rfl

theorem MethodBody.steps_of_admits {code : List Statement} {state : State}
    (h : m.Admits host code) :
    m.steps host code state = ⟨trace m host code state, .ok (statesAfter host code state)⟩ := by
  induction code generalizing state with
  | nil => rfl
  | cons statement code ih =>
    obtain ⟨hs, hc⟩ := List.forall_mem_cons.1 h
    rw [steps, step_of_admitted hs, Check.bind_eq, Check.andThen_of_ok rfl, ih hc]
    simp only [Check.bind_eq, Check.andThen, Check.pure_eq, Check.done, List.append_nil]
    rfl

end Running

def SlotState.IsJoin (join : State) (states : Set State) : Prop :=
  ∀ slot v, v ∈ join.get slot ↔ ∃ s ∈ states, v ∈ s.get slot

theorem SlotState.Collects.isJoin {join : State} {states : Set State}
    (h : join.Collects states) : join.IsJoin states :=
  fun slot v => h (.holds slot v)

section Joining

variable {m : MethodBody} {host : Host} {join : State} {states : Set State}

theorem exists_mem_const (hn : states.Nonempty) {p : Prop} : p ↔ ∃ s ∈ states, p := by
  obtain ⟨s, hs⟩ := hn
  exact ⟨fun hp => ⟨s, hs, hp⟩, fun ⟨_, _, hp⟩ => hp⟩

theorem mem_values_join (h : join.IsJoin states) (hn : states.Nonempty) {v : Value} :
    ∀ o : Operand, v ∈ o.values host join ↔ ∃ s ∈ states, v ∈ o.values host s
  | .read slot => h slot v
  | .baseTypeOf operand => by
    simp only [Operand.values, Host.baseValues, ValueSet.mem_map, mem_values_join h hn operand]
    constructor
    · intro hx
      obtain ⟨w, ⟨s, hs, hw⟩, he⟩ := hx
      exact ⟨s, hs, w, hw, he⟩
    · intro hx
      obtain ⟨s, hs, w, hw, he⟩ := hx
      exact ⟨w, ⟨s, hs, hw⟩, he⟩
  | .typeOf _ | .genericParameter _ | .literal _ | .null | .load _ | .nameOf _ _
  | .invoke _ _ _ _ | .element _ | .unmodelled _ _ => exists_mem_const hn

theorem collects_effect (h : join.Collects states) (hn : states.Nonempty)
    (statement : Statement) :
    (statement.effect host join).Collects (statement.effect host '' states) := by
  obtain ⟨operation, location⟩ := statement
  intro f
  rw [Set.exists_mem_image]
  cases operation with
  | assign slot value =>
    cases f with
    | bound slot' =>
      simp only [Statement.effect, SlotState.says_set_bound, h (.bound slot'), and_or_left,
        exists_or, ← exists_mem_const hn]
    | holds slot' v =>
      simp only [Statement.effect, SlotState.says_set_holds]
      by_cases he : slot = slot'
      · simp only [he, if_true, mem_values_join h.isJoin hn value]
      · simp only [he, if_false, h (.holds slot' v)]
  | _ => exact h f

theorem collects_finalState (h : join.Collects states) (hn : states.Nonempty)
    (code : List Statement) :
    (finalState host code join).Collects (finalState host code '' states) := by
  induction code generalizing join states with
  | nil =>
    have he : finalState host [] = id := rfl
    rwa [he, Set.image_id]
  | cons statement code ih =>
    have he : (statement.effect host join).Collects (statement.effect host '' states) :=
      collects_effect h hn statement
    have hs := ih he (hn.image _)
    rwa [Set.image_image] at hs

/-- What a join says at the points of straight-line code is what some state says at them. -/
theorem says_points_join (h : join.Collects states) (hn : states.Nonempty)
    {code : List Statement} {f : Fact Value} :
    (∃ s ∈ join :: statesAfter host code join, s.Says f) ↔
      ∃ s ∈ states, ∃ ran, ran <+: code ∧ (finalState host ran s).Says f := by
  simp only [mem_statesAfter]
  constructor
  · intro hx
    obtain ⟨_, ⟨ran, hran, rfl⟩, hf⟩ := hx
    obtain ⟨_, ⟨s, hs, rfl⟩, hf⟩ := (collects_finalState h hn ran f).1 hf
    exact ⟨s, hs, ran, hran, hf⟩
  · intro hx
    obtain ⟨s, hs, ran, hran, hf⟩ := hx
    have hj : (finalState host ran join).Says f :=
      (collects_finalState h hn ran f).2 ⟨_, ⟨s, hs, rfl⟩, hf⟩
    exact ⟨_, ⟨ran, hran, rfl⟩, hj⟩

theorem Requirement.mem_enforce (r : Requirement) {resolve : String → Option TypeName}
    {location : Location} {values : ValueSet Value} {e : Event} :
    e ∈ r.enforce resolve location values ↔
      r.required ≠ ∅ ∧ ∃ v ∈ values, e ∈ r.judge resolve location v := by
  rw [enforce]
  by_cases hr : r.required = ∅
  · simp [hr]
  · simp [hr, ValueSet.mem_def]

theorem mem_enforce {r : Requirement} {location : Location} {values : ValueSet Value} {e : Event} :
    e ∈ (host.enforce r location values).events ↔
      r.required ≠ ∅ ∧ ∃ v ∈ values, e ∈ r.judge host.resolve location v :=
  r.mem_enforce

theorem mem_check_join (h : join.IsJoin states) (hn : states.Nonempty) {location : Location}
    {e : Event} (d : Demand) : e ∈ (d.check m host location join).events ↔
      ∃ s ∈ states, e ∈ (d.check m host location s).events := by
  cases d with
  | access slot => exact exists_mem_const hn
  | instantiate i => exact exists_mem_const hn
  | flow place source =>
    simp only [Demand.check, mem_enforce, mem_values_join h hn source]
    constructor
    · intro hx
      obtain ⟨hr, v, ⟨s, hs, hv⟩, he⟩ := hx
      exact ⟨s, hs, hr, v, hv, he⟩
    · intro hx
      obtain ⟨s, hs, hr, v, hv, he⟩ := hx
      exact ⟨hr, v, ⟨s, hs, hv⟩, he⟩

theorem mem_events_join (h : join.IsJoin states) (hn : states.Nonempty) {e : Event}
    (statement : Statement) : e ∈ statement.events m host join ↔
      ∃ s ∈ states, e ∈ statement.events m host s := by
  simp only [Statement.events, List.mem_flatMap, mem_check_join h hn]
  constructor
  · intro hx
    obtain ⟨d, hd, s, hs, he⟩ := hx
    exact ⟨s, hs, d, hd, he⟩
  · intro hx
    obtain ⟨s, hs, d, hd, he⟩ := hx
    exact ⟨d, hd, s, hs, he⟩

/-- Straight-line code reports and marks on a join what it does on the states one by one. -/
theorem mem_trace_join (h : join.Collects states) (hn : states.Nonempty) {e : Event}
    (code : List Statement) : e ∈ trace m host code join ↔
      ∃ s ∈ states, e ∈ trace m host code s := by
  induction code generalizing join states with
  | nil => simp [trace]
  | cons statement code ih =>
    simp only [trace, List.mem_append, mem_events_join h.isJoin hn statement,
      ih (collects_effect h hn statement) (hn.image _), Set.exists_mem_image, ← exists_or,
      ← and_or_left]

end Joining

end CapabilityFlow
