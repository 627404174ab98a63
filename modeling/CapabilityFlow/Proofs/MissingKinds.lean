import CapabilityFlow.Proofs.CarriedAnnotations

namespace CapabilityFlow

namespace Capabilities

variable {available required c : Capabilities} {i : Nat}

/-- All public constructors are required, but only the parameterless one is available. -/
def SplitsConstructors (available required : Capabilities) : Prop :=
  Kind.publicConstructors.set ⊆ required ∧
    Kind.publicParameterlessConstructor.set ⊆ available ∧ ¬ Kind.publicConstructors.set ⊆ available

instance : Decidable (SplitsConstructors available required) :=
  inferInstanceAs (Decidable (_ ∧ _ ∧ _))

theorem publicConstructors_subset_iff :
    Kind.publicConstructors.set ⊆ c ↔ c.Has 0 ∧ c.Has 1 := by
  have hbits : Kind.publicConstructors.set.Has 0 ∧ Kind.publicConstructors.set.Has 1 := by decide
  refine ⟨fun h => ?_, fun h => publicConstructors_subset h.1 h.2⟩
  rw [subset_iff] at h
  exact ⟨h 0 hbits.1, h 1 hbits.2⟩

theorem publicParameterlessConstructor_subset_iff :
    Kind.publicParameterlessConstructor.set ⊆ c ↔ c.Has 0 :=
  twoPow_subset_iff (i := 0) (by decide)

theorem has_missing :
    (available.missing required).Has i ↔ (required.Has i ∧ ¬ available.Has i) ∧ i < 14 := by
  rw [missing, has_inter, has_sdiff, has_named]

theorem missing_subset_named : available.missing required ⊆ named := by
  rw [subset_iff]
  intro i hi
  exact has_named.2 (has_missing.1 hi).2

theorem ne_all_of_subset_named (h : c ⊆ named) : c ≠ all := by
  rintro rfl
  exact absurd h (by decide)

theorem nameable_iff_of_subset_named (h : c ⊆ named) : c.Nameable ↔ (c.Has 1 → c.Has 0) :=
  ⟨fun hc => (hc.resolve_left (ne_all_of_subset_named h)).2, fun h01 => .inr ⟨h, h01⟩⟩

theorem Nameable.has_zero (h : c.Nameable) (h1 : c.Has 1) : c.Has 0 := by
  rcases h with rfl | ⟨-, h01⟩
  · decide
  · exact h01 h1

theorem nameable_missing_iff (hr : required.Nameable) :
    (available.missing required).Nameable ↔ ¬ SplitsConstructors available required := by
  have h01 := hr.has_zero
  rw [nameable_iff_of_subset_named missing_subset_named, SplitsConstructors,
    publicConstructors_subset_iff, publicConstructors_subset_iff,
    publicParameterlessConstructor_subset_iff, has_missing, has_missing]
  simp only [Nat.reduceLT, and_true]
  tauto

theorem rest_of_not_nameable (hc : c ⊆ named) (h : ¬ c.Nameable) :
    c.rest Kind.every = ⟨.twoPow 32 1⟩ := by
  have hsecond : ∀ i < 32, Has ⟨.twoPow 32 1⟩ i ↔ i = 1 := by decide
  have hone : (c.rest Kind.every).Has 1 := by
    have hne : ¬ ∀ i, ¬ (c.rest Kind.every).Has i := mt eq_empty_iff.2 (mt nameable_of_rest h)
    obtain ⟨i, hi⟩ := not_forall_not.1 hne
    exact eq_one_of_has_rest hc hi ▸ hi
  apply eq_of_has
  intro i
  constructor
  · intro hi
    exact (hsecond i hi.lt).2 (eq_one_of_has_rest hc hi)
  · intro hi
    exact (hsecond i hi.lt).1 hi ▸ hone

theorem text_of_ne (h : c ≠ ∅) (ha : c ≠ all) :
    c.text = " | ".intercalate (c.parts Kind.every) := by
  rw [text, if_neg h, if_neg ha]

/-- The text names kinds that make up the set, and nothing else. -/
def Lists (c : Capabilities) (kinds : List Kind) : Prop :=
  c = ofKinds kinds ∧
    c.text = if kinds = [] then "None" else " | ".intercalate (kinds.map Kind.name)

theorem Nameable.exists_lists (h : c.Nameable) (ha : c ≠ all) : ∃ kinds, c.Lists kinds := by
  by_cases hc : c = ∅
  · subst hc
    exact ⟨[], rfl, rfl⟩
  · have hunions := unions_written c Kind.every
    have hparts := parts_eq c Kind.every
    rw [rest_eq_empty h ha, union_empty] at hunions
    rw [rest_eq_empty h ha, if_pos rfl, List.append_nil] at hparts
    have hwritten : c.written Kind.every ≠ [] := by
      intro hnil
      rw [hnil] at hparts
      exact parts_ne_nil hc _ hparts
    refine ⟨c.written Kind.every, hunions.symm, ?_⟩
    rw [if_neg hwritten, text_of_ne hc ha, hparts]

/-- The text names kinds and ends with the number of the second bit. -/
def ListsNumber (c : Capabilities) (kinds : List Kind) : Prop :=
  c = ofKinds kinds ∪ ⟨.twoPow 32 1⟩ ∧
    c.text = " | ".intercalate (kinds.map Kind.name ++ ["0x2"])

theorem exists_listsNumber (hc : c ⊆ named) (h : ¬ c.Nameable) : ∃ kinds, c.ListsNumber kinds := by
  have hne : c ≠ ∅ := by
    rintro rfl
    exact h (by decide)
  have hnumber : Text.hexadecimal (BitVec.twoPow 32 1).toNat = "0x2" := by decide
  have hunions := unions_written c Kind.every
  have hparts := parts_eq c Kind.every
  rw [rest_of_not_nameable hc h] at hunions hparts
  rw [if_neg (by decide), hnumber] at hparts
  refine ⟨c.written Kind.every, hunions.symm, ?_⟩
  rw [text_of_ne hne (ne_all_of_subset_named hc), hparts]

theorem parse_of_not_nameable (hc : c ⊆ named) (h : ¬ c.Nameable) :
    parse c.text = .error (.unknownKind "0x2") := by
  rw [parse_text_of_not_nameable h, rest_of_not_nameable hc h]
  decide

theorem exists_parse_missing_iff (hr : required.Nameable) :
    (∃ c, parse (available.missing required).text = .ok c) ↔
      ¬ SplitsConstructors available required := by
  rw [← nameable_missing_iff hr]
  refine ⟨?_, fun h => ⟨_, h.parse_text⟩⟩
  rintro ⟨c, hc⟩
  by_contra h
  rw [parse_of_not_nameable missing_subset_named h] at hc
  cases hc

/-- Whatever is available of a set that was read, the text of what is missing can be read, and then
as that very set and as a list of names, exactly if the constructors are not split; else it ends
with a number that is no name. The last argument of a mismatch is such a text, of a single
enforcement and of all that an analyzer answers over a table, where the annotations were read. -/
theorem missing_text_of_parsed (available : Capabilities) {text : String}
    (hr : parse text = .ok required) :
    let missing := available.missing required
    ((∃ c, parse missing.text = .ok c) ↔ ¬ SplitsConstructors available required) ∧
    (¬ SplitsConstructors available required →
      parse missing.text = .ok missing ∧ ∃ kinds, missing.Lists kinds) ∧
    (SplitsConstructors available required →
      parse missing.text = .error (.unknownKind "0x2") ∧ ∃ kinds, missing.ListsNumber kinds) ∧
    (∀ (r : Requirement) (resolve : String → Option TypeName) (location : Location)
      (values : ValueSet Value), r.required.Parsed → (∀ v ∈ values, v.Parsed) →
      ∀ d, .report d ∈ r.enforce resolve location values → d.TellsMissing) ∧
    ∀ (t : MarkedTable) (options : Options) (c : Call) (ds : List Diagnostic),
      t.table.Parsed → t.answer options c = .ok ds → ∀ d ∈ ds, d.TellsMissing := by
  intro missing
  have hrequired : required.Nameable := nameable_of_parse hr
  have hnamed : missing ⊆ named := missing_subset_named
  have hiff : missing.Nameable ↔ ¬ SplitsConstructors available required :=
    nameable_missing_iff hrequired
  refine ⟨exists_parse_missing_iff hrequired, ?_, ?_, ?_, ?_⟩
  · intro h
    have hn : missing.Nameable := hiff.2 h
    exact ⟨hn.parse_text, hn.exists_lists (ne_all_of_subset_named hnamed)⟩
  · intro h
    have hn : ¬ missing.Nameable := fun hm => hiff.1 hm h
    exact ⟨parse_of_not_nameable hnamed hn, exists_listsNumber hnamed hn⟩
  · intro r resolve location values hr hv d hd
    exact (Requirement.fromParsed_of_mem_enforce hr hv hd).tellsMissing
  · intro t options c ds ht h
    exact MarkedTable.tellsMissing_of_answer ht h

end Capabilities

namespace MarkedTable

def factorySteps : List DeclarationStep :=
  [.method "Create(Type)" [.parameter ⟨"type", Kind.publicConstructors.set⟩],
    .method "Find()" [.returns Kind.publicParameterlessConstructor.set]]

def factoryTable : MarkedTable := declareAll ⟨∅, ∅⟩ factorySteps

def createFound : Call :=
  .analyze
    { method := "Main()"
      graph :=
        { blocks :=
            [{ id := ⟨0⟩
               statements := [⟨.evaluate (.invoke "Create(Type)" none
                 [.invoke "Find()" none [] []] []), {}⟩] }] } }

theorem parsed_factoryTable : factoryTable.table.Parsed := by
  have hconstructors : Kind.publicConstructors.set.Parsed := ⟨"PublicConstructors", by decide⟩
  have hparameterless : Kind.publicParameterlessConstructor.set.Parsed :=
    ⟨"PublicParameterlessConstructor", by decide⟩
  have hsteps : ∀ s ∈ factorySteps, s.Parsed := by
    simp only [factorySteps, List.forall_mem_cons, DeclarationStep.Parsed,
      MethodSymbol.Change.Parsed, List.not_mem_nil, false_implies, implies_true, and_true]
    exact ⟨hconstructors, hparameterless⟩
  exact (Made.empty.declareAll hsteps).parsed

def splitReport : Diagnostic :=
  ⟨.mismatch .returnValue .parameter, ["type", "Create(Type)", "Find()", "0x2"], {}⟩

/-- What one annotation that can be read lacks of another cannot be read, and an analysis reports it
in this form. -/
theorem missing_constructors_number :
    Capabilities.parse "PublicParameterlessConstructor" =
      .ok Kind.publicParameterlessConstructor.set ∧
    Capabilities.parse "PublicConstructors" = .ok Kind.publicConstructors.set ∧
    (Kind.publicParameterlessConstructor.set.missing Kind.publicConstructors.set).text = "0x2" ∧
    (¬ ∃ c, Capabilities.parse "0x2" = .ok c) ∧
    factoryTable.table.Parsed ∧
    factoryTable.answer {} createFound = .ok [splitReport] := by
  refine ⟨by decide, by decide, by decide, ?_, parsed_factoryTable, by decide +kernel⟩
  rintro ⟨c, hc⟩
  have hnone : Capabilities.parse "0x2" = .error (.unknownKind "0x2") := by decide
  rw [hnone] at hc
  cases hc

theorem missing_text_factory :
    (∃ kinds, (Kind.publicFields.set.missing Capabilities.all).Lists kinds) ∧
    (∃ kinds,
      (Kind.publicParameterlessConstructor.set.missing Capabilities.all).ListsNumber kinds) ∧
    factoryTable.answer {} createFound = .ok [splitReport] ∧ splitReport.TellsMissing := by
  have hall : Capabilities.parse "All" = .ok Capabilities.all := by decide
  obtain ⟨-, hfields, -, -, hanswer⟩ :=
    Capabilities.missing_text_of_parsed Kind.publicFields.set hall
  obtain ⟨-, -, hconstructors, -⟩ :=
    Capabilities.missing_text_of_parsed Kind.publicParameterlessConstructor.set hall
  have hreport : factoryTable.answer {} createFound = .ok [splitReport] := by decide +kernel
  exact ⟨(hfields (by decide)).2, (hconstructors (by decide)).2, hreport,
    hanswer factoryTable {} createFound _ parsed_factoryTable hreport _ List.mem_cons_self⟩

end MarkedTable

end CapabilityFlow
