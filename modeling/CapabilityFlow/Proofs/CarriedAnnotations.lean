import CapabilityFlow.Proofs.AbortedCalls
import CapabilityFlow.Proofs.JustifiedDiagnostics
import CapabilityFlow.Proofs.ParsedTables
import CapabilityFlow.Proofs.Relaxation
import CapabilityFlow.Proofs.SiteReports

namespace CapabilityFlow

namespace Capabilities

theorem nameable_ofBaseType (c : Capabilities) : c.ofBaseType.Nameable := by
  unfold ofBaseType
  split
  · exact .inl rfl
  · have hinherited : inherited ⊆ named ∧ ¬ inherited.Has 1 := by decide
    right
    constructor
    · rw [subset_iff]
      intro i hi
      exact subset_iff.1 hinherited.1 i (has_inter.1 hi).2
    · intro h
      exact absurd (has_inter.1 h).2 hinherited.2

end Capabilities

/-- All that is known of a value was read. -/
def Value.Parsed : Value → Prop
  | .annotated _ capabilities | .constructible _ capabilities => capabilities.Parsed
  | .unknown | .null | .type _ | .constant _ => True

theorem Value.Parsed.of_carries {v : Value} {source : Origin} {available : Capabilities}
    (hv : v.Parsed) (h : v.Carries source available) : available.Parsed := by
  cases h with
  | annotated => exact hv
  | constructible => exact hv

structure Host.Parsed (host : Host) : Prop where
  parameter : ∀ method index, (host.parameterCapabilities method index).Parsed
  result : ∀ method, (host.returnCapabilities method).Parsed
  receiver : ∀ method, (host.thisCapabilities method).Parsed
  field : ∀ name, (host.fieldCapabilities name).Parsed
  generic : ∀ parameter, (host.genericDeclaration parameter).capabilities.Parsed

theorem Capabilities.parsed_getD {α : Type} {x : Option α} {f : α → Capabilities}
    (h : ∀ a, x = some a → (f a).Parsed) : ((x.map f).getD ∅).Parsed := by
  cases x with
  | none => exact parsed_empty
  | some a => exact h a rfl

namespace SymbolTable.Parsed

variable {table : SymbolTable} (h : table.Parsed)

include h

theorem method {name : MethodName} {symbol : MethodSymbol}
    (hs : table.methods.get? name = some symbol) : symbol.Parsed :=
  h.methods _ (OrderedMap.get?_eq_some_iff.1 hs)

theorem parameter {name : MethodName} {index : UInt32} {symbol : ParameterSymbol}
    (hs : table.parameter? name index = some symbol) : symbol.capabilities.Parsed := by
  obtain ⟨method, hmethod, hsymbol⟩ := Option.bind_eq_some_iff.1 hs
  exact (h.method hmethod).parameters symbol (List.mem_of_getElem? hsymbol)

theorem genericSymbol {parameter : GenericParameter} {symbol : GenericSymbol}
    (hs : table.generic? parameter = some symbol) : symbol.capabilities.Parsed := by
  obtain ⟨symbols, hsymbols, hsymbol⟩ := Option.bind_eq_some_iff.1 hs
  exact h.generics _ (OrderedMap.get?_eq_some_iff.1 hsymbols) symbol
    (List.mem_of_find?_eq_some hsymbol)

/-- A table gives no annotations but those it declares, and empty ones. -/
theorem host : table.host.Parsed where
  parameter method index := Capabilities.parsed_getD fun _ hs => h.parameter hs
  result method := Capabilities.parsed_getD fun _ hs => (h.method hs).result
  receiver method := Capabilities.parsed_getD fun _ hs => (h.method hs).receiver
  field name := by
    simp only [SymbolTable.host]
    cases hf : table.fields.get? name with
    | none => exact Capabilities.parsed_empty
    | some capabilities => exact h.fields _ (OrderedMap.get?_eq_some_iff.1 hf)
  generic parameter := by
    simp only [SymbolTable.host]
    cases hg : table.generic? parameter with
    | none => exact Capabilities.parsed_empty
    | some symbol => exact h.genericSymbol hg

end SymbolTable.Parsed

def ParsedState (state : State) : Prop := ∀ slot, ∀ v ∈ state.get slot, v.Parsed

namespace Host.Parsed

variable {m : MethodBody} {host : Host} {state : State} (h : host.Parsed)

include h

theorem required {r : Requirement} (hr : host.Imposes r) : r.required.Parsed := by
  cases hr with
  | place p =>
    cases p with
    | receiver method => exact h.receiver method
    | argument method index => exact h.parameter method index
    | field name => exact h.field name
    | result method => exact h.result method
  | generic parameter => exact h.generic parameter

theorem genericValue (parameter : GenericParameter) : (host.genericValue parameter).Parsed := by
  rw [Host.genericValue]
  split
  · exact h.generic parameter
  · exact h.generic parameter

theorem argumentValue? {argument : TypeArgument} {v : Value}
    (hv : host.argumentValue? argument = some v) : v.Parsed := by
  cases argument with
  | parameter supplied =>
    cases hv
    exact h.genericValue supplied
  | missing => cases hv
  | named name | array element | constructed definition arguments =>
    cases hv
    trivial

omit h in
theorem baseValue (host : Host) (v : Value) : (host.baseValue v).Parsed := by
  cases v with
  | annotated origin capabilities =>
    exact Capabilities.parsed_iff_nameable.2 capabilities.nameable_ofBaseType
  | constructible parameter capabilities =>
    exact Capabilities.parsed_iff_nameable.2 capabilities.nameable_ofBaseType
  | type name =>
    rw [Host.baseValue]
    cases host.baseType name <;> trivial
  | null | constant | unknown => trivial

theorem values (hs : ParsedState state) (o : Operand) : ∀ v ∈ o.values host state, v.Parsed := by
  cases o with
  | read slot => exact hs slot
  | baseTypeOf operand =>
    intro v hv
    obtain ⟨w, -, rfl⟩ := ValueSet.mem_map.1 hv
    exact baseValue host w
  | genericParameter parameter => exact fun v hv => ValueSet.mem_one.1 hv ▸ h.genericValue parameter
  | load field => exact fun v hv => ValueSet.mem_one.1 hv ▸ h.field field
  | invoke method => exact fun v hv => ValueSet.mem_one.1 hv ▸ h.result method
  | typeOf | literal | null | element | nameOf | unmodelled =>
    exact fun v hv => ValueSet.mem_one.1 hv ▸ trivial

theorem initialState (m : MethodBody) : ParsedState (m.initialState host) := by
  intro slot v hv
  rcases MethodBody.mem_initialState.1 hv with ⟨-, -, rfl⟩ | ⟨i, -, -, rfl⟩
  · exact h.receiver m.method
  · exact h.parameter m.method _

theorem effect (hs : ParsedState state) (statement : Statement) :
    ParsedState (statement.effect host state) := by
  obtain ⟨operation, location⟩ := statement
  cases operation with
  | assign slot value =>
    intro slot' v hv
    rw [Statement.effect, SlotState.get_set] at hv
    split at hv
    · exact h.values hs value v hv
    · exact hs slot' v hv
  | _ => exact hs

theorem finalState (hs : ParsedState state) (code : List Statement) :
    ParsedState (finalState host code state) := by
  induction code generalizing state with
  | nil => exact hs
  | cons statement code ih => exact ih (h.effect hs statement)

end Host.Parsed

/-- An event comes of judging a value by a requirement, and what is known of both was read. -/
def Event.FromParsed (location : Location) (e : Event) : Prop :=
  ∃ (r : Requirement) (resolve : String → Option TypeName) (v : Value),
    r.required.Parsed ∧ v.Parsed ∧ e ∈ r.judge resolve location v

theorem Requirement.fromParsed_of_mem_enforce {r : Requirement}
    {resolve : String → Option TypeName} {location : Location} {values : ValueSet Value} {e : Event}
    (hr : r.required.Parsed) (hv : ∀ v ∈ values, v.Parsed)
    (he : e ∈ r.enforce resolve location values) : e.FromParsed location := by
  obtain ⟨-, v, hmem, hjudged⟩ := r.mem_enforce.1 he
  exact ⟨r, resolve, v, hr, hv v hmem, hjudged⟩

namespace Host.Parsed

variable {m : MethodBody} {host : Host} {state : State} {location : Location} {e : Event}
  (h : host.Parsed)

include h

theorem of_mem_checkInstantiation {i : Instantiation}
    (he : e ∈ (host.checkInstantiation location i).events) : e.FromParsed location := by
  obtain ⟨parameter, argument, -, he⟩ := mem_checkInstantiation.1 he
  unfold enforceArgument at he
  split at he
  · rename_i v hv
    refine Requirement.fromParsed_of_mem_enforce (h.required (.generic parameter)) ?_ he
    exact fun w hw => ValueSet.mem_one.1 hw ▸ h.argumentValue? hv
  · cases he

theorem of_mem_check {d : Demand} (hs : ParsedState state)
    (he : e ∈ (d.check m host location state).events) : e.FromParsed location := by
  cases d with
  | access slot =>
    rw [Demand.check, MethodBody.events_checkSlot] at he
    cases he
  | flow place source =>
    exact Requirement.fromParsed_of_mem_enforce (h.required (.place place)) (h.values hs source) he
  | instantiate i => exact h.of_mem_checkInstantiation he

/-- All that a pass reports comes of what was read, also when a violation ends the pass. -/
theorem of_mem_pass (he : e ∈ (m.pass host).events) : ∃ location, e.FromParsed location := by
  obtain ⟨-, b, block, code, s, hvisits, -, hf, hrun, he⟩ := MethodBody.mem_pass_iff_emits.1 he
  obtain ⟨code', -, rfl⟩ := (MethodBody.mem_arriving_of_visits hvisits).2 ⟨code, hf, hrun⟩
  obtain ⟨ran, statement, rest, -, d, -, he⟩ := MethodBody.exists_demand_of_mem_execute he
  have hs := h.finalState (h.finalState (h.initialState m) code') ran
  exact ⟨statement.location, h.of_mem_check hs he⟩

end Host.Parsed

/-- A mismatch ends with what is missing in some set of what another one requires, and both sets
were read. -/
def Diagnostic.TellsMissing (d : Diagnostic) : Prop :=
  ∀ source target, d.kind = .mismatch source target → ∃ available required : Capabilities,
    available.Parsed ∧ required.Parsed ∧ ¬ required ⊆ available ∧
      d.arguments.getLast? = some (available.missing required).text

theorem Event.FromParsed.tellsMissing {location : Location} {d : Diagnostic}
    (h : (Event.report d).FromParsed location) : d.TellsMissing := by
  obtain ⟨r, resolve, v, hr, hv, hd⟩ := h
  rcases Requirement.report_mem_judge hd with rfl | ⟨source, available, hcarries, hd⟩
  · rintro _ _ ⟨⟩
  · obtain ⟨hlacks, rfl⟩ := Requirement.report_mem_judgeAnnotated.1 hd
    intro _ _ _
    exact ⟨available, r.required, hv.of_carries hcarries, hr, hlacks, List.getLast?_concat⟩

theorem Declaration.tellsMissing_of_validateAll {declarations : List Declaration} :
    ∀ d ∈ validateAll declarations, d.TellsMissing := by
  rw [validateAll_eq]
  intro d hd source target hkind
  obtain ⟨declaration, -, rfl⟩ := List.mem_map.1 hd
  cases hkind

namespace Host.Parsed

variable {host : Host} {options : Options} {ds : List Diagnostic} (h : host.Parsed)

include h

theorem tellsMissing_of_analyze {m : MethodBody} (hd : (m.analyze host options).result = .ok ds) :
    ∀ d ∈ ds, d.TellsMissing := by
  cases hx : m.exemption? host options with
  | some reason =>
    rw [MethodBody.analyze_of_exempt hx] at hd
    cases hd
    exact fun _ hd => absurd hd List.not_mem_nil
  | none =>
    obtain ⟨-, rfl⟩ := (MethodBody.analyze_eq_ok hx).1 hd
    intro d hd
    obtain ⟨location, hfrom⟩ := h.of_mem_pass (MethodBody.mem_diagnostics.1 hd)
    exact hfrom.tellsMissing

theorem tellsMissing_of_site {site : InstantiationSite}
    (hd : (site.analyze host).result = .ok ds) : ∀ d ∈ ds, d.TellsMissing := by
  rw [InstantiationSite.analyze] at hd
  split at hd
  · cases hd
    exact fun _ hd => absurd hd List.not_mem_nil
  · obtain ⟨-, rfl⟩ := Check.result_verdict_eq_ok.1 hd
    intro d hd
    exact (h.of_mem_checkInstantiation (MethodBody.mem_diagnostics.1 hd)).tellsMissing

end Host.Parsed

/-- Where all annotations of a table were read, mismatches tell what is missing of sets that were
read, whatever an analyzer is asked to do. -/
theorem MarkedTable.tellsMissing_of_answer {t : MarkedTable} {options : Options} {c : Call}
    {ds : List Diagnostic} (ht : t.table.Parsed) (h : t.answer options c = .ok ds) :
    ∀ d ∈ ds, d.TellsMissing := by
  cases c with
  | analyze m => exact ht.host.tellsMissing_of_analyze h
  | checkSite site => exact ht.host.tellsMissing_of_site h
  | validate declarations =>
    cases h
    exact Declaration.tellsMissing_of_validateAll

end CapabilityFlow
