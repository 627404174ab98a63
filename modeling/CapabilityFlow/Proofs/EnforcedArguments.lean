import CapabilityFlow.Proofs.NestedArguments
import CapabilityFlow.Proofs.StraightLine

namespace CapabilityFlow

theorem Check.mem_events_all {cs : List (Check Unit)} {e : Event} :
    e ∈ (all cs).events ↔ ∃ before c after, cs = before ++ c :: after ∧
      (∀ c' ∈ before, c'.Succeeds) ∧ e ∈ c.events := by
  constructor
  · induction cs with
    | nil => exact fun he => absurd he List.not_mem_nil
    | cons c cs ih =>
      intro he
      rw [all_cons, mem_events_andThen] at he
      rcases he with he | ⟨u, hu, he⟩
      · exact ⟨[], c, cs, rfl, fun _ h => absurd h List.not_mem_nil, he⟩
      · obtain ⟨before, c', after, rfl, hbefore, he'⟩ := ih he
        exact ⟨c :: before, c', after, rfl, List.forall_mem_cons.2 ⟨⟨u, hu⟩, hbefore⟩, he'⟩
  · rintro ⟨before, c, after, rfl, hbefore, he⟩
    induction before with
    | nil => exact mem_events_andThen.2 (.inl he)
    | cons c' before ih =>
      obtain ⟨⟨u, hu⟩, hrest⟩ := List.forall_mem_cons.1 hbefore
      exact mem_events_andThen.2 (.inr ⟨u, hu, ih hrest⟩)

theorem Requirement.mark_mem_judge {r : Requirement} {resolve : String → Option TypeName}
    {location : Location} {v : Value} {k : Mark} :
    .mark k ∈ r.judge resolve location v ↔ k.required = r.required ∧
      (v = .type k.type ∨ ∃ text, v = .constant text ∧ resolve text = some k.type) := by
  have hannotated (source : Origin) (available : Capabilities) :
      .mark k ∉ r.judgeAnnotated location source available := by
    unfold judgeAnnotated
    split <;> simp
  obtain ⟨name, required⟩ := k
  cases v with
  | constructible parameter available =>
    rw [judge]
    split <;> simp [hannotated]
  | annotated source available => simp [judge, hannotated]
  | type name' => simp [judge, and_comm, eq_comm]
  | constant text =>
    rw [judge]
    cases hresolve : resolve text with
    | none => simp [hresolve]
    | some name' => simp [hresolve, and_comm, eq_comm]
  | null => simp [judge]
  | unknown => simp [judge]

/-- The check of an instantiation comes to an argument: everything in front of it fits. -/
def Instantiation.ComesTo (host : Host) (i : Instantiation) (parameter : GenericParameter)
    (argument : TypeArgument) : Prop :=
  ∃ parameters before after, host.genericParameters i.definition = some parameters ∧
    parameters.length = i.arguments.length ∧
    parameters.zip i.arguments = before ++ (parameter, argument) :: after ∧
    ∀ pair ∈ before, host.Fits pair.2

/-- The check of an instantiation enforces what a parameter requires of an argument, in its own list
of arguments or in one that it comes to. -/
inductive Instantiation.Enforces (host : Host) :
    Instantiation → GenericParameter → TypeArgument → Prop
  | here {i : Instantiation} {parameter : GenericParameter} {argument : TypeArgument} :
    i.ComesTo host parameter argument → host.Fits argument → Enforces host i parameter argument
  | nested {i n : Instantiation} {outer parameter : GenericParameter} {argument : TypeArgument} :
    i.ComesTo host outer (.constructed n.definition n.arguments) →
    Enforces host n parameter argument → Enforces host i parameter argument

namespace Instantiation

variable {host : Host} {i : Instantiation} {parameter : GenericParameter} {argument : TypeArgument}

theorem ComesTo.mem (h : i.ComesTo host parameter argument) : argument ∈ i.arguments := by
  obtain ⟨parameters, before, after, -, -, hzip, -⟩ := h
  have hpair : (parameter, argument) ∈ parameters.zip i.arguments := hzip ▸ by simp
  exact (List.of_mem_zip hpair).2

end Instantiation

namespace Host

variable {host : Host} {location : Location} {i : Instantiation} {parameter : GenericParameter}
  {argument : TypeArgument} {e : Event} {k : Mark}

theorem mem_checkInstantiation_iff_comesTo :
    e ∈ (host.checkInstantiation location i).events ↔ ∃ parameter argument,
      i.ComesTo host parameter argument ∧
        e ∈ (host.checkArgument location parameter argument).events := by
  rw [checkInstantiation, withParameters]
  cases hk : host.genericParameters i.definition with
  | none => simp [Instantiation.ComesTo, hk, Check.done]
  | some parameters =>
    by_cases hl : parameters.length = i.arguments.length
    · simp only [if_pos hl, checkArguments_eq_all, Check.mem_events_all, List.map_eq_append_iff,
        List.map_eq_cons_iff]
      constructor
      · rintro ⟨_, _, _, ⟨before, _, hzip, rfl, ⟨parameter, argument⟩, after, rfl, rfl, rfl⟩, hfits,
          he⟩
        refine ⟨parameter, argument, ⟨parameters, before, after, hk, hl, hzip, ?_⟩, he⟩
        intro pair hpair
        exact (checkArgument_succeeds pair.1 pair.2).1 (hfits _ (List.mem_map_of_mem hpair))
      · rintro ⟨parameter, argument, ⟨_, before, after, hk', -, hzip, hfits⟩, he⟩
        cases hk.symm.trans hk'
        refine ⟨_, _, _, ⟨before, _, hzip, rfl, (parameter, argument), after, rfl, rfl, rfl⟩, ?_,
          he⟩
        rw [List.forall_mem_map]
        exact fun pair hpair => (checkArgument_succeeds pair.1 pair.2).2 (hfits pair hpair)
    · simp [Instantiation.ComesTo, hk, hl, Check.fail]

theorem mem_checkArgument : e ∈ (host.checkArgument location parameter argument).events ↔
    (∃ n : Instantiation, argument = .constructed n.definition n.arguments ∧
      e ∈ (host.checkInstantiation location n).events) ∨
    host.Fits argument ∧ e ∈ (host.enforceArgument location parameter argument).events := by
  cases argument with
  | constructed definition arguments =>
    have hcheck : host.checkArgument location parameter (.constructed definition arguments) = _ :=
      checkArgument_constructed parameter ⟨definition, arguments⟩
    have hfits : (∃ u, (host.checkInstantiation location ⟨definition, arguments⟩).outcome = .ok u) ↔
        host.Fits (.constructed definition arguments) := checkInstantiation_succeeds
    rw [hcheck, Check.mem_events_andThen, ← hfits, ← exists_and_right]
    refine or_congr_left ?_
    constructor
    · intro he
      exact ⟨⟨definition, arguments⟩, rfl, he⟩
    · rintro ⟨n, hn, he⟩
      cases hn
      exact he
  | named _ | array _ | parameter _ | missing => simp [checkArgument, Fits]

theorem mem_checkInstantiation_of_enforces (h : i.Enforces host parameter argument)
    (he : e ∈ (host.enforceArgument location parameter argument).events) :
    e ∈ (host.checkInstantiation location i).events := by
  induction h with
  | here hcomes hfits =>
    exact mem_checkInstantiation_iff_comesTo.2
      ⟨_, _, hcomes, mem_checkArgument.2 (.inr ⟨hfits, he⟩)⟩
  | nested hcomes _ ih =>
    exact mem_checkInstantiation_iff_comesTo.2
      ⟨_, _, hcomes, mem_checkArgument.2 (.inl ⟨_, rfl, ih he⟩)⟩

theorem exists_enforces (i : Instantiation)
    (he : e ∈ (host.checkInstantiation location i).events) : ∃ parameter argument,
      i.Enforces host parameter argument ∧
        e ∈ (host.enforceArgument location parameter argument).events := by
  obtain ⟨outer, argument, hcomes, hargument⟩ := mem_checkInstantiation_iff_comesTo.1 he
  have hmem := hcomes.mem
  rcases mem_checkArgument.1 hargument with ⟨n, rfl, hn⟩ | ⟨hfits, henforced⟩
  · obtain ⟨parameter, inner, hinner, henforced⟩ := exists_enforces n hn
    exact ⟨parameter, inner, .nested hcomes hinner, henforced⟩
  · exact ⟨outer, argument, .here hcomes hfits, henforced⟩
termination_by sizeOf i.arguments
decreasing_by
  -- The arguments of a construction are smaller than the list in which it stands.
  have hlt := List.sizeOf_lt_of_mem hmem
  simp only [TypeArgument.constructed.sizeOf_spec] at hlt
  omega

/-- All that the check of an instantiation reports and marks comes from the arguments enforced. -/
theorem mem_checkInstantiation : e ∈ (host.checkInstantiation location i).events ↔
    ∃ parameter argument, i.Enforces host parameter argument ∧
      e ∈ (host.enforceArgument location parameter argument).events := by
  constructor
  · exact exists_enforces i
  · rintro ⟨parameter, argument, henforces, he⟩
    exact mem_checkInstantiation_of_enforces henforces he

theorem mark_mem_enforceArgument :
    .mark k ∈ (host.enforceArgument location parameter argument).events ↔
      host.argumentValue? argument = some (.type k.type) ∧
        k.required = (host.genericRequirement parameter).required ∧ k.required ≠ ∅ := by
  have hvalue (text : String) : host.argumentValue? argument ≠ some (.constant text) := by
    cases argument with
    | parameter supplied =>
      simp only [argumentValue?, genericValue]
      split <;> simp
    | named _ | array _ | constructed _ _ | missing => simp [argumentValue?]
  unfold enforceArgument
  cases hargument : host.argumentValue? argument with
  | none => simp [Check.done]
  | some value =>
    have hconstant (text : String) : value ≠ .constant text := by
      rintro rfl
      exact hvalue text hargument
    simp only [mem_enforce, ValueSet.mem_one, exists_eq_left, Requirement.mark_mem_judge, hconstant,
      false_and, exists_false, or_false, Option.some.injEq]
    constructor
    · rintro ⟨hr, hrequired, htype⟩
      exact ⟨htype, hrequired, hrequired ▸ hr⟩
    · rintro ⟨htype, hrequired, hr⟩
      exact ⟨hrequired ▸ hr, hrequired, htype⟩

end Host

end CapabilityFlow
