import CapabilityFlow.Proofs.MissingKinds
import CapabilityFlow.Proofs.SeparateJudgement

namespace CapabilityFlow

namespace Capabilities

variable {available required : Capabilities}

theorem missing_ne_empty (hr : required ⊆ named) (h : ¬ required ⊆ available) :
    available.missing required ≠ ∅ := by
  rw [subset_iff] at hr h
  obtain ⟨i, hi⟩ := not_forall.1 h
  obtain ⟨hrequired, hlacks⟩ := Classical.not_imp.1 hi
  intro hempty
  exact eq_empty_iff.1 hempty i (has_missing.2 ⟨⟨hrequired, hlacks⟩, has_named.1 (hr i hrequired)⟩)

theorem subset_union_missing (hr : required ⊆ named) :
    required ⊆ available ∪ available.missing required := by
  rw [subset_iff] at hr ⊢
  intro i hi
  rw [has_union, has_missing]
  by_cases ha : available.Has i
  · exact .inl ha
  · exact .inr ⟨⟨hi, ha⟩, has_named.1 (hr i hi)⟩

theorem missing_all : available.missing all = named \ available := by
  apply eq_of_has
  intro i
  rw [has_missing, has_sdiff, has_all, has_named]
  constructor
  · rintro ⟨⟨-, hlacks⟩, hi⟩
    exact ⟨hi, hlacks⟩
  · rintro ⟨hi, hlacks⟩
    exact ⟨⟨by omega, hlacks⟩, hi⟩

theorem union_missing_all (ha : available ⊆ named) : available ∪ available.missing all = named := by
  rw [subset_iff] at ha
  apply eq_of_has
  intro i
  rw [missing_all, has_union, has_sdiff]
  have hi := ha i
  tauto

theorem missing_all_eq_empty_iff (ha : available ⊆ named) :
    available.missing all = ∅ ↔ available = named := by
  constructor
  · intro h
    have hunion := union_missing_all ha
    rwa [h, union_empty] at hunion
  · rintro rfl
    decide

theorem Parsed.subset_named (h : required.Parsed) (ha : required ≠ all) : required ⊆ named :=
  (h.nameable.resolve_left ha).1

theorem parsed_named : named.Parsed := parsed_iff_nameable.2 (by decide)

end Capabilities

def Value.enlarge (more : Capabilities) : Value → Value
  | .annotated origin available => .annotated origin (available ∪ more)
  | .constructible parameter available => .constructible parameter (available ∪ more)
  | .unknown => .unknown
  | .null => .null
  | .type name => .type name
  | .constant text => .constant text

namespace Value.Carries

variable {v : Value} {source : Origin} {available required : Capabilities}

theorem enlarge (h : v.Carries source available) (more : Capabilities) :
    (v.enlarge more).Carries source (available ∪ more) := by
  cases h with
  | annotated => exact .annotated
  | constructible => exact .constructible

theorem meets (h : v.Carries source available) (hr : required ⊆ available) : v.Meets required := by
  cases h with
  | annotated => exact hr
  | constructible => exact .inr hr

theorem not_meets_all (h : v.Carries source available) (ha : available ⊆ .named) :
    ¬ v.Meets .all := by
  have hlacks : ¬ Capabilities.all ⊆ available := by
    intro hall
    exact absurd (Capabilities.subset_trans hall ha) (by decide)
  cases h with
  | annotated => exact hlacks
  | constructible => exact not_or.2 ⟨by decide, hlacks⟩

end Value.Carries

namespace Requirement

variable {r : Requirement} {resolve : String → Option TypeName} {location : Location} {v : Value}
  {source : Origin} {available : Capabilities} {d : Diagnostic}

theorem enforce_one_of_meets (hv : v.Carries source available) (h : v.Meets r.required) :
    r.enforce resolve location (.one v) = [] := by
  have hquiet : Quiet (r.judge resolve location v) := (quiet_judge resolve location).2 h
  have hmarks : ∀ k, .mark k ∉ r.judge resolve location v := by
    intro k hk
    obtain ⟨-, hknown⟩ := mark_mem_judge.1 hk
    cases hv <;> simp at hknown
  rw [List.eq_nil_iff_forall_not_mem]
  intro e he
  obtain ⟨-, w, hw, hjudged⟩ := r.mem_enforce.1 he
  cases ValueSet.mem_one.1 hw
  cases e with
  | report d => exact hquiet d hjudged
  | mark k => exact hmarks k hjudged

theorem enforce_one_of_not_meets (hr : r.required ≠ ∅) (h : ¬ v.Meets r.required) :
    ∃ d, r.Blames location v d ∧ r.enforce resolve location (.one v) = [.report d] := by
  rw [enforce, if_neg hr, ValueSet.toList_one, List.flatMap_singleton]
  exact exists_judge_of_not_meets resolve location h

/-- A mismatch tells what is missing. Unless everything is required, that is something, and the
value passes once it has that as well. Where everything is required, only the kinds with names that
the value does not have are told: none if it has them all, and with all of them it is reported
still. -/
theorem mismatch_repaired (hv : v.Carries source available) (ha : available.Parsed)
    (hr : r.required.Parsed) (hd : .report d ∈ r.enforce resolve location (.one v)) :
    let missing := available.missing r.required
    let repaired := v.enlarge missing
    d = ⟨.mismatch source.shape r.target.shape,
      r.target.arguments ++ source.arguments ++ [missing.text], location⟩ ∧
    (r.required ≠ .all → missing ≠ ∅ ∧ r.enforce resolve location (.one repaired) = []) ∧
    (r.required = .all → missing = .named \ available ∧ (missing = ∅ ↔ available = .named) ∧
      available ∪ missing = .named ∧ ∃ d', r.Blames location repaired d' ∧
        r.enforce resolve location (.one repaired) = [.report d']) := by
  intro missing repaired
  obtain ⟨hrequired, w, hw, hjudged⟩ := r.mem_enforce.1 hd
  cases ValueSet.mem_one.1 hw
  have hbad : ¬ v.Meets r.required := fun h => (quiet_judge resolve location).2 h d hjudged
  have hlacks : ¬ r.required ⊆ available := fun h => hbad (hv.meets h)
  have hrepaired : repaired.Carries source (available ∪ missing) := hv.enlarge missing
  refine ⟨?_, ?_, ?_⟩
  · obtain ⟨d', hblames, hevents⟩ := exists_judge_of_not_meets resolve location hbad
    rw [hevents, List.mem_singleton, Event.report.injEq] at hjudged
    exact hjudged ▸ hv.eq_of_blames hblames
  · intro hall
    have hnamed : r.required ⊆ .named := hr.subset_named hall
    refine ⟨Capabilities.missing_ne_empty hnamed hlacks, ?_⟩
    have hgood : repaired.Meets r.required :=
      hrepaired.meets (Capabilities.subset_union_missing hnamed)
    exact enforce_one_of_meets hrepaired hgood
  · intro hall
    have havailable : available ≠ .all := by
      rintro rfl
      exact hlacks (hall ▸ Capabilities.subset_of_eq rfl)
    have hnamed : available ⊆ .named := ha.subset_named havailable
    have hmissing : missing = available.missing .all := congrArg available.missing hall
    have hunion : available ∪ missing = .named :=
      hmissing ▸ Capabilities.union_missing_all hnamed
    have hempty : missing = ∅ ↔ available = .named :=
      hmissing ▸ Capabilities.missing_all_eq_empty_iff hnamed
    have hstill : ¬ repaired.Meets r.required :=
      hall ▸ hrepaired.not_meets_all (Capabilities.subset_of_eq hunion)
    exact ⟨hmissing.trans Capabilities.missing_all, hempty, hunion,
      enforce_one_of_not_meets hrequired hstill⟩

def keepAll : Requirement := ⟨.parameter "Keep(Type)" 0 "type", .all⟩

def keepConstructors : Requirement :=
  ⟨.parameter "Create(Type)" 0 "type", Kind.publicConstructors.set⟩

def foundWith (available : Capabilities) : Value := .annotated (.returnValue "Find()") available

def madeWith (available : Capabilities) : Value := .constructible ⟨"Make`1", "T"⟩ available

theorem mismatch_repaired_constructors :
    Kind.publicMethods.set.Parsed ∧ keepConstructors.required.Parsed ∧
    (∃ d, keepConstructors.enforce (fun _ => none) {} (.one (madeWith Kind.publicMethods.set)) =
      [.report d]) ∧
    Kind.publicMethods.set.missing keepConstructors.required ≠ ∅ ∧
    keepConstructors.enforce (fun _ => none) {}
      (.one ((madeWith Kind.publicMethods.set).enlarge
        (Kind.publicMethods.set.missing keepConstructors.required))) = [] := by
  have hmethods : Kind.publicMethods.set.Parsed := ⟨"PublicMethods", by decide⟩
  have hconstructors : keepConstructors.required.Parsed := ⟨"PublicConstructors", by decide⟩
  have hreport : keepConstructors.enforce (fun _ => none) {}
      (.one (madeWith Kind.publicMethods.set)) =
        [.report ⟨.mismatch .genericParameter .parameter,
          ["type", "Create(Type)", "T", "Make`1", "PublicConstructors"], {}⟩] := by decide
  obtain ⟨-, hrepaired, -⟩ := mismatch_repaired .constructible hmethods hconstructors
    (hreport ▸ List.mem_cons_self)
  exact ⟨hmethods, hconstructors, ⟨_, hreport⟩, hrepaired (by decide)⟩

/-- All kinds together are less than everything, but nothing of what they lack is told. A value that
has one kind and gets all others, which are what is reported to be missing, is reported again, and
then no kind is missing. -/
theorem every_kind_lacks_all :
    keepAll.required.Parsed ∧ Kind.publicMethods.set.Parsed ∧ Capabilities.named.Parsed ∧
    (∃ d, keepAll.enforce (fun _ => none) {} (.one (foundWith Kind.publicMethods.set)) =
      [.report d]) ∧
    (foundWith Kind.publicMethods.set).enlarge
      (Kind.publicMethods.set.missing keepAll.required) = foundWith .named ∧
    keepAll.enforce (fun _ => none) {} (.one (foundWith .named)) =
      [.report ⟨.mismatch .returnValue .parameter,
        ["type", "Keep(Type)", "Find()", "None"], {}⟩] ∧
    Capabilities.named.missing keepAll.required = ∅ := by
  have hall : keepAll.required.Parsed := ⟨"All", by decide⟩
  have hmethods : Kind.publicMethods.set.Parsed := ⟨"PublicMethods", by decide⟩
  exact ⟨hall, hmethods, Capabilities.parsed_named, ⟨_, rfl⟩, by decide, by decide, by decide⟩

end Requirement

end CapabilityFlow
