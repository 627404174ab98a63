import CapabilityFlow.Proofs.JustifiedDiagnostics
import CapabilityFlow.Proofs.Relaxation

namespace CapabilityFlow

instance (required : Capabilities) : DecidablePred (Value.Meets required)
  | .annotated _ available => inferInstanceAs (Decidable (required ⊆ available))
  | .constructible _ available => inferInstanceAs
      (Decidable (required = Kind.publicParameterlessConstructor.set ∨ required ⊆ available))
  | .unknown => inferInstanceAs (Decidable False)
  | .type _ | .constant _ | .null => inferInstanceAs (Decidable True)

/-- What is reported of a value: that nothing is known of it, or what its annotation lacks. -/
inductive Requirement.Blames (r : Requirement) (location : Location) : Value → Diagnostic → Prop
  | unverifiable :
    Blames r location .unknown ⟨.unverifiable r.target.shape, r.target.arguments, location⟩
  | mismatch {v : Value} {source : Origin} {available : Capabilities} :
    v.Carries source available → Blames r location v
      ⟨.mismatch source.shape r.target.shape,
        r.target.arguments ++ source.arguments ++ [(available.missing r.required).text], location⟩

theorem Value.Carries.eq_of_blames {r : Requirement} {location : Location} {d : Diagnostic}
    {v : Value} {source : Origin} {available : Capabilities} (h : v.Carries source available)
    (hd : r.Blames location v d) :
    d = ⟨.mismatch source.shape r.target.shape,
      r.target.arguments ++ source.arguments ++ [(available.missing r.required).text],
      location⟩ := by
  cases h with
  | annotated | constructible =>
    cases hd with
    | mismatch hv =>
      cases hv
      rfl

namespace Requirement

variable {r : Requirement} {resolve : String → Option TypeName} {location : Location} {v : Value}

theorem judgeAnnotated_of_not_subset {source : Origin} {available : Capabilities}
    (h : ¬ r.required ⊆ available) : r.judgeAnnotated location source available =
      [.report ⟨.mismatch source.shape r.target.shape,
        r.target.arguments ++ source.arguments ++ [(available.missing r.required).text],
        location⟩] := by
  rw [judgeAnnotated, if_neg (mt Capabilities.satisfies_iff.1 h)]

theorem exists_judge_of_not_meets (resolve : String → Option TypeName) (location : Location)
    (h : ¬ v.Meets r.required) :
    ∃ d, r.Blames location v d ∧ r.judge resolve location v = [.report d] := by
  cases v with
  | unknown => exact ⟨_, .unverifiable, rfl⟩
  | annotated source available => exact ⟨_, .mismatch .annotated, judgeAnnotated_of_not_subset h⟩
  | constructible parameter available =>
    obtain ⟨hexact, hlacks⟩ := not_or.1 h
    refine ⟨_, .mismatch .constructible, ?_⟩
    rw [judge, if_neg hexact, judgeAnnotated_of_not_subset hlacks]
  | type name | constant text | null => exact absurd trivial h

theorem reports_eq_nil {events : List Event} :
    events.filterMap Event.diagnostic? = [] ↔ Quiet events :=
  diagnostics_eq_nil (c := Check.emit events)

/-- The reports of some values are those of the ones that are not good enough, one for each. -/
theorem blames_insufficient (values : List Value) :
    List.Forall₂ (r.Blames location) (values.filter (¬ ·.Meets r.required))
      ((values.flatMap (r.judge resolve location)).filterMap Event.diagnostic?) := by
  induction values with
  | nil => exact .nil
  | cons v values ih =>
    rw [List.flatMap_cons, List.filterMap_append]
    by_cases h : v.Meets r.required
    · rw [List.filter_cons_of_neg (by simpa using h),
        reports_eq_nil.2 ((quiet_judge resolve location).2 h), List.nil_append]
      exact ih
    · obtain ⟨d, hd, hjudge⟩ := exists_judge_of_not_meets resolve location h
      rw [List.filter_cons_of_pos (by simpa using h), hjudge]
      exact .cons hd ih

end Requirement

namespace Host

variable {host : Host} {r r' : Requirement} {location location' : Location}
  {values : ValueSet Value} {d : Diagnostic}

theorem events_enforce_of_empty (h : r.required = ∅) :
    (host.enforce r location values).events = [] := by
  simp only [enforce, Check.emit, Requirement.enforce, if_pos h]

theorem blames_enforce (h : r.required ≠ ∅) :
    List.Forall₂ (r.Blames location) (values.toList.filter (¬ ·.Meets r.required))
      (host.enforce r location values).diagnostics := by
  simp only [Check.diagnostics, enforce, Check.emit, Requirement.enforce, if_neg h]
  exact Requirement.blames_insufficient values.toList

theorem mem_diagnostics_enforce : d ∈ (host.enforce r location values).diagnostics ↔
    r.required ≠ ∅ ∧ ∃ v ∈ values, .report d ∈ r.judge host.resolve location v := by
  rw [MethodBody.mem_diagnostics, mem_enforce]

theorem mem_diagnostics_enforce_meet {a b : ValueSet Value} :
    d ∈ (host.enforce r location (a.meet b)).diagnostics ↔
      d ∈ (host.enforce r location a).diagnostics ∨
        d ∈ (host.enforce r location b).diagnostics := by
  simp only [mem_diagnostics_enforce, ValueSet.mem_meet, or_and_right, exists_or, and_or_left]

theorem diagnostics_enforce_meet_eq_nil {a b : ValueSet Value} :
    (host.enforce r location (a.meet b)).diagnostics = [] ↔
      (host.enforce r location a).diagnostics = [] ∧
        (host.enforce r location b).diagnostics = [] := by
  simp only [List.eq_nil_iff_forall_not_mem, mem_diagnostics_enforce_meet, not_or, forall_and]

theorem diagnostics_enforce_eq_nil : (host.enforce r location values).diagnostics = [] ↔
    (r.required ≠ ∅ → ∀ v ∈ values, v.Meets r.required) :=
  diagnostics_eq_nil.trans quiet_enforce

theorem diagnostics_enforce_eq_nil_of_subset (hr : r'.required ⊆ r.required)
    (h : (host.enforce r location values).diagnostics = []) :
    (host.enforce r' location' values).diagnostics = [] := by
  rw [diagnostics_enforce_eq_nil] at h ⊢
  intro hn v hv
  have hrequired : r.required ≠ ∅ := fun he => hn (Capabilities.subset_empty (he ▸ hr))
  exact (h hrequired v hv).mono (.same v) hr hn

/-- Whatever was reported and marked before, enforcing a requirement keeps it and goes well, and
what it reports to a log comes behind what the log holds. It does nothing if nothing is required,
and else it reports exactly once each member of the set that is not good enough, in the order of the
set. So the union of two sets is reported for what either is, and where a requirement leaves a set
without a report, each part of it does too. -/
theorem judged_separately (host : Host) (r : Requirement) (location : Location) :
    (∀ (before : List Event) (values : ValueSet Value),
      let c := (Check.emit before).andThen fun _ => host.enforce r location values
      c.outcome = .ok () ∧
      c.diagnostics = (Check.emit before).diagnostics ++
        (host.enforce r location values).diagnostics) ∧
    (∀ (log : DiagnosticLog) (values : ValueSet Value),
      let c := host.enforce r location values
      (log.record c.events).toList = log.toList ++ c.diagnostics) ∧
    (∀ values : ValueSet Value,
      (r.required = ∅ → (host.enforce r location values).events = []) ∧
      (r.required ≠ ∅ → List.Forall₂ (r.Blames location)
        (values.toList.filter (¬ ·.Meets r.required))
        (host.enforce r location values).diagnostics)) ∧
    (∀ a b : ValueSet Value,
      (∀ d, d ∈ (host.enforce r location (a.meet b)).diagnostics ↔
        d ∈ (host.enforce r location a).diagnostics ∨
          d ∈ (host.enforce r location b).diagnostics) ∧
      ((host.enforce r location (a.meet b)).diagnostics = [] ↔
        (host.enforce r location a).diagnostics = [] ∧
          (host.enforce r location b).diagnostics = [])) ∧
    ∀ (part : Requirement) (location' : Location) (values : ValueSet Value),
      part.required ⊆ r.required → (host.enforce r location values).diagnostics = [] →
        (host.enforce part location' values).diagnostics = [] := by
  refine ⟨?_, ?_, ?_, ?_, ?_⟩
  · intro before values c
    exact ⟨rfl, List.filterMap_append⟩
  · intro log values c
    exact log.toList_record c.events
  · intro values
    exact ⟨events_enforce_of_empty, blames_enforce⟩
  · intro a b
    exact ⟨fun d => mem_diagnostics_enforce_meet, diagnostics_enforce_meet_eq_nil⟩
  · intro part location' values hpart h
    exact diagnostics_enforce_eq_nil_of_subset hpart h

def factoryRequirement : Requirement :=
  ⟨.parameter "Create(Type)" 0 "type", Kind.publicConstructors.set⟩

def someFound : ValueSet Value :=
  .ofList [.annotated (.returnValue "Find()") Kind.publicFields.set, .type "Widget"]

def someMade : ValueSet Value :=
  .ofList [.constructible ⟨"Make`1", "T"⟩ ∅, .unknown,
    .annotated (.returnValue "Load()") Kind.publicConstructors.set]

def someComplete : ValueSet Value :=
  .ofList [.constructible ⟨"Make`1", "T"⟩ Kind.publicConstructors.set, .type "Widget"]

theorem judged_separately_factory :
    let host := (∅ : SymbolTable).host
    let bare := Requirement.mk factoryRequirement.target Kind.publicParameterlessConstructor.set
    factoryRequirement.required ≠ ∅ ∧
    List.Forall₂ (factoryRequirement.Blames ⟨4, 2⟩)
      [.annotated (.returnValue "Find()") Kind.publicFields.set, .constructible ⟨"Make`1", "T"⟩ ∅,
        .unknown]
      (host.enforce factoryRequirement ⟨4, 2⟩ (someFound.meet someMade)).diagnostics ∧
    bare.required ⊆ factoryRequirement.required ∧
    (host.enforce factoryRequirement ⟨4, 2⟩ someComplete).diagnostics = [] ∧
    (host.enforce bare {} someComplete).diagnostics = [] := by
  intro host bare
  obtain ⟨-, -, hjudged, -, hpart⟩ := judged_separately host factoryRequirement ⟨4, 2⟩
  have hrequired : factoryRequirement.required ≠ ∅ := by decide
  have hsubset : bare.required ⊆ factoryRequirement.required := by decide
  have hinsufficient : (someFound.meet someMade).toList.filter
      (¬ ·.Meets factoryRequirement.required) =
        [.annotated (.returnValue "Find()") Kind.publicFields.set,
          .constructible ⟨"Make`1", "T"⟩ ∅, .unknown] := by decide
  have hquiet : (host.enforce factoryRequirement ⟨4, 2⟩ someComplete).diagnostics = [] := by
    decide
  refine ⟨hrequired, ?_, hsubset, hquiet, hpart bare {} _ hsubset hquiet⟩
  rw [← hinsufficient]
  exact (hjudged (someFound.meet someMade)).2 hrequired

end Host

end CapabilityFlow
