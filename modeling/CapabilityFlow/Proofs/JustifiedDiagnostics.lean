import CapabilityFlow.Proofs.EnforcedArguments
import CapabilityFlow.Proofs.PathDecomposition
import CapabilityFlow.Proofs.VisitedBlocks

namespace CapabilityFlow

/-- The requirements that a host imposes: those of the places that values flow into, and those of
generic parameters. -/
inductive Host.Imposes (host : Host) : Requirement → Prop
  | place (p : Place) : Imposes host (host.requirement p)
  | generic (parameter : GenericParameter) : Imposes host (host.genericRequirement parameter)

/-- An event comes of judging some value by a requirement that asks for something. -/
def Host.Raises (host : Host) (location : Location) (e : Event) : Prop :=
  ∃ r value, host.Imposes r ∧ r.required ≠ ∅ ∧ e ∈ r.judge host.resolve location value

section Raising

variable {m : MethodBody} {host : Host} {location : Location}

theorem Host.Imposes.raises {r : Requirement} (h : host.Imposes r) (values : ValueSet Value) :
    ∀ e ∈ (host.enforce r location values).events, host.Raises location e := by
  intro e he
  obtain ⟨hr, v, -, hv⟩ := mem_enforce.1 he
  exact ⟨r, v, h, hr, hv⟩

namespace Host

theorem raises_enforceArgument (parameter : GenericParameter) (argument : TypeArgument) :
    ∀ e ∈ (host.enforceArgument location parameter argument).events, host.Raises location e := by
  unfold enforceArgument
  split
  · exact (Imposes.generic parameter).raises _
  · exact fun _ he => absurd he List.not_mem_nil

theorem raises_checkInstantiation (i : Instantiation) :
    ∀ e ∈ (host.checkInstantiation location i).events, host.Raises location e := by
  intro e he
  obtain ⟨parameter, argument, -, hargument⟩ := mem_checkInstantiation.1 he
  exact raises_enforceArgument parameter argument e hargument

end Host

theorem MethodBody.events_checkSlot (slot : Slot) : (m.checkSlot slot).events = [] := by
  cases slot with
  | localVar index => rfl
  | parameter index | this =>
    rw [checkSlot]
    split <;> rfl

theorem Demand.raises (d : Demand) (state : State) :
    ∀ e ∈ (d.check m host location state).events, host.Raises location e := by
  cases d with
  | access slot =>
    rw [Demand.check, MethodBody.events_checkSlot]
    exact fun _ he => absurd he List.not_mem_nil
  | flow place source => exact (Host.Imposes.place place).raises _
  | instantiate i => exact Host.raises_checkInstantiation i

/-- An event is raised at one of some statements. -/
def RaisedIn (host : Host) (code : List Statement) (e : Event) : Prop :=
  ∃ statement ∈ code, host.Raises statement.location e

theorem MethodBody.raisedIn_execute (code : List Statement) (state : State) :
    ∀ e ∈ (m.execute host code state).events, RaisedIn host code e := by
  intro e he
  obtain ⟨ran, statement, rest, rfl, d, -, he⟩ := exists_demand_of_mem_execute he
  exact ⟨statement, List.mem_append_right _ List.mem_cons_self, d.raises _ e he⟩

def RaisedAt (m : MethodBody) (host : Host) (ids : List BlockId) (e : Event) : Prop :=
  ∃ b ∈ ids, ∃ block, m.graph.block? b = some block ∧ RaisedIn host block.statements e

/-- Every event of a pass is raised at a statement of a block that can be reached. -/
theorem MethodBody.raisedAt_pass :
    ∀ e ∈ (m.pass host).events, RaisedAt m host m.graph.reversePostorder e := by
  intro e he
  obtain ⟨-, b, block, code, s, hvisits, hblock, -, -, he⟩ := mem_pass_iff_emits.1 he
  exact ⟨b, hvisits.1, block, hblock, m.raisedIn_execute block.statements s e he⟩

end Raising

def Shape.arity : Shape → Nat
  | .parameter | .genericParameter => 2
  | .returnValue | .field | .thisParameter => 1

theorem Origin.length_arguments (o : Origin) : o.arguments.length = o.shape.arity := by
  cases o <;> rfl

/-- All that is known of a value is the annotation of its origin. -/
inductive Value.Carries : Value → Origin → Capabilities → Prop
  | annotated {source : Origin} {available : Capabilities} :
    Carries (.annotated source available) source available
  | constructible {parameter : GenericParameter} {available : Capabilities} :
    Carries (.constructible parameter available) (.genericParameter parameter) available

/-- A diagnostic says that some value may lack what a requirement asks for. -/
inductive Requirement.Accuses (r : Requirement) (location : Location) : Diagnostic → Prop
  | unverifiable : Accuses r location
    ⟨.unverifiable r.target.shape, r.target.arguments, location⟩
  | mismatch (source : Origin) (missing : Capabilities) : Accuses r location
    ⟨.mismatch source.shape r.target.shape,
      r.target.arguments ++ source.arguments ++ [missing.text], location⟩

namespace Requirement

variable {r : Requirement} {location : Location} {d : Diagnostic}

theorem report_mem_judgeAnnotated {source : Origin} {available : Capabilities} :
    .report d ∈ r.judgeAnnotated location source available ↔ ¬ r.required ⊆ available ∧
      d = ⟨.mismatch source.shape r.target.shape,
        r.target.arguments ++ source.arguments ++ [(available.missing r.required).text],
        location⟩ := by
  rw [judgeAnnotated, ← Capabilities.satisfies_iff]
  cases available.satisfies r.required <;> simp

theorem report_mem_judge {resolve : String → Option TypeName} {v : Value}
    (h : .report d ∈ r.judge resolve location v) :
    d = ⟨.unverifiable r.target.shape, r.target.arguments, location⟩ ∨
    ∃ source available, v.Carries source available ∧
      .report d ∈ r.judgeAnnotated location source available := by
  cases v with
  | constructible parameter available =>
    rw [judge] at h
    split at h
    · cases h
    · exact .inr ⟨_, _, .constructible, h⟩
  | annotated source available => exact .inr ⟨_, _, .annotated, h⟩
  | type name => cases List.mem_singleton.1 h
  | constant text =>
    rw [judge] at h
    split at h
    · cases List.mem_singleton.1 h
    · cases h
  | null => cases h
  | unknown =>
    cases List.mem_singleton.1 h
    exact .inl rfl

theorem accuses_of_judge {resolve : String → Option TypeName} {v : Value}
    (h : .report d ∈ r.judge resolve location v) : r.Accuses location d := by
  rcases report_mem_judge h with rfl | ⟨source, available, -, hd⟩
  · exact .unverifiable
  · obtain ⟨-, rfl⟩ := report_mem_judgeAnnotated.1 hd
    exact .mismatch source _

theorem Accuses.location_eq (h : r.Accuses location d) : d.location = location := by
  cases h <;> rfl

theorem Accuses.take_arguments (h : r.Accuses location d) :
    d.arguments.take r.target.shape.arity = r.target.arguments := by
  rw [← Origin.length_arguments]
  cases h with
  | unverifiable => exact List.take_length
  | mismatch source missing =>
    rw [List.append_assoc]
    exact List.take_left

end Requirement

/-- The table declares an origin with some capabilities. Of generic parameters of one name, the
first one counts. -/
def SymbolTable.Declares (table : SymbolTable) (capabilities : Capabilities) : Origin → Prop
  | .parameter method index name => ∃ symbol, table.parameter? method index = some symbol ∧
      symbol.name = name ∧ symbol.capabilities = capabilities
  | .returnValue method => ∃ symbol, table.methods.get? method = some symbol ∧
      symbol.returnCapabilities = capabilities
  | .field name => table.fields.get? name = some capabilities
  | .thisParameter method => ∃ symbol, table.methods.get? method = some symbol ∧
      symbol.thisCapabilities = capabilities
  | .genericParameter parameter => ∃ symbol, table.generic? parameter = some symbol ∧
      symbol.capabilities = capabilities

theorem exists_of_getD_ne {α : Type} {x : Option α} {f : α → Capabilities}
    (h : (x.map f).getD ∅ ≠ ∅) : ∃ a, x = some a ∧ f a = (x.map f).getD ∅ := by
  cases x with
  | none => exact absurd rfl h
  | some a => exact ⟨a, rfl, rfl⟩

theorem SymbolTable.declares_of_imposes {table : SymbolTable} {r : Requirement}
    (h : table.host.Imposes r) (hr : r.required ≠ ∅) : table.Declares r.required r.target := by
  cases h with
  | place p =>
    cases p with
    | receiver method => exact exists_of_getD_ne hr
    | result method => exact exists_of_getD_ne hr
    | field name =>
      cases hf : table.fields.get? name with
      | none => simp [Host.requirement, Host.fieldRequirement, host, hf] at hr
      | some capabilities =>
        simp [Declares, Host.requirement, Host.fieldRequirement, host, hf]
    | argument method index =>
      obtain ⟨symbol, hs, hc⟩ := exists_of_getD_ne hr
      have hn : table.host.parameterName method index = symbol.name := by simp [host, hs]
      exact ⟨symbol, hs, hn.symm, hc⟩
  | generic parameter =>
    cases hg : table.generic? parameter with
    | none => simp [Host.genericRequirement, host, hg] at hr
    | some symbol => exact ⟨symbol, hg, by simp [Host.genericRequirement, host, hg]⟩

/-- The first arguments of a diagnostic are those of a declaration of the shape, which the table
declares to require something. -/
def SymbolTable.Backs (table : SymbolTable) (target : Shape) (d : Diagnostic) : Prop :=
  ∃ origin capabilities, origin.shape = target ∧ table.Declares capabilities origin ∧
    capabilities ≠ ∅ ∧ d.arguments.take target.arity = origin.arguments

/-- A diagnostic has the arguments that its kind asks for, the table backs it, and it points at a
statement of the body that can be reached. -/
structure Diagnostic.Justified (table : SymbolTable) (m : MethodBody) (d : Diagnostic) : Prop where
  form :
    (∃ target, d.kind = .unverifiable target ∧ d.arguments.length = target.arity ∧
      table.Backs target d) ∨
    ∃ source target, d.kind = .mismatch source target ∧
      d.arguments.length = target.arity + source.arity + 1 ∧ table.Backs target d
  place : ∃ b block statement, m.graph.Reaches m.graph.entry b ∧ m.graph.block? b = some block ∧
    statement ∈ block.statements ∧ d.location = statement.location

theorem SymbolTable.backs_of_accuses {table : SymbolTable} {r : Requirement} {location : Location}
    {d : Diagnostic} (h : table.host.Imposes r) (hr : r.required ≠ ∅) (ha : r.Accuses location d) :
    table.Backs r.target.shape d :=
  ⟨r.target, r.required, rfl, declares_of_imposes h hr, hr, ha.take_arguments⟩

namespace MethodBody

variable {m : MethodBody} {table : SymbolTable} {options : Options}

/-- A diagnostic that a pass reports is justified, whether or not a violation ends the pass. -/
theorem pass_justified : ∀ d ∈ (m.pass table.host).diagnostics, d.Justified table m := by
  intro d hd
  obtain ⟨b, hb, block, hblock, statement, hs, r, v, himposed, hr, hj⟩ :=
    raisedAt_pass _ (mem_diagnostics.1 hd)
  have ha : r.Accuses statement.location d := Requirement.accuses_of_judge hj
  have hbacks : table.Backs r.target.shape d := SymbolTable.backs_of_accuses himposed hr ha
  constructor
  · cases ha with
    | unverifiable =>
      left
      exact ⟨r.target.shape, rfl, Origin.length_arguments _, hbacks⟩
    | mismatch source missing =>
      right
      refine ⟨source.shape, r.target.shape, rfl, ?_, hbacks⟩
      rw [List.length_append, List.length_append, Origin.length_arguments,
        Origin.length_arguments]
      rfl
  · have hreach := FlowGraph.mem_reversePostorder_iff.1 hb
    exact ⟨b, block, statement, hreach, hblock, hs, ha.location_eq⟩

/-- Each diagnostic of an analysis tells that a value is unverifiable or lacks something and has as
many arguments as that takes; the first ones identify a declaration of the target's shape that the
table annotates, and the location is that of a statement that can be reached. -/
theorem analyze_justified {ds : List Diagnostic}
    (h : (m.analyze table.host options).result = .ok ds) : ∀ d ∈ ds, d.Justified table m := by
  cases hx : m.exemption? table.host options with
  | some reason =>
    rw [analyze_of_exempt hx] at h
    cases h
    exact fun _ hd => absurd hd List.not_mem_nil
  | none =>
    obtain ⟨-, rfl⟩ := (analyze_eq_ok hx).1 h
    exact pass_justified

def registryTable : SymbolTable where
  methods := .ofList
    [("Add(Type)", { parameters := [{ name := "type", capabilities := Kind.publicMethods.set }]
                     thisCapabilities := Kind.publicFields.set }),
      ("Load()", { returnCapabilities := Kind.publicEvents.set })]
  fields := .ofList [("cache", Kind.publicProperties.set)]
  generics := .ofList [("Add(Type)", [{ name := "T", capabilities := Kind.interfaces.set }])]

def register : MethodBody where
  method := "Load()"
  parameterCount := 1
  graph :=
    { blocks :=
        [{ id := ⟨0⟩
           statements :=
            [⟨.evaluate (.invoke "Add(Type)" (some (.load "raw"))
                [.baseTypeOf (.read (.parameter 0))] [.parameter ⟨"Load()", "U"⟩]), ⟨1, 5⟩⟩,
              ⟨.store "cache" (.element .null), ⟨2, 5⟩⟩,
              ⟨.ret (some (.read (.parameter 0))), ⟨3, 5⟩⟩] }] }

def registerDiagnostics : List Diagnostic :=
  [⟨.mismatch .field .thisParameter, ["Add(Type)", "raw", "PublicFields"], ⟨1, 5⟩⟩,
    ⟨.mismatch .returnValue .parameter,
      ["type", "Add(Type)", "System.Type.get_BaseType()", "PublicMethods"], ⟨1, 5⟩⟩,
    ⟨.mismatch .genericParameter .genericParameter,
      ["T", "Add(Type)", "U", "Load()", "Interfaces"], ⟨1, 5⟩⟩,
    ⟨.unverifiable .field, ["cache"], ⟨2, 5⟩⟩,
    ⟨.mismatch .parameter .returnValue, ["Load()", "#0", "Load()", "PublicEvents"], ⟨3, 5⟩⟩]

theorem analyze_register_justified :
    (register.analyze registryTable.host {}).result = .ok registerDiagnostics ∧
    ∀ d ∈ registerDiagnostics, d.Justified registryTable register := by
  have h : (register.analyze registryTable.host {}).result = .ok registerDiagnostics := by
    decide +kernel
  exact ⟨h, analyze_justified h⟩

end MethodBody

end CapabilityFlow
