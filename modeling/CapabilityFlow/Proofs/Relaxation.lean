import CapabilityFlow.Proofs.PathDecomposition

namespace CapabilityFlow

namespace Capabilities

variable {a b : Capabilities}

theorem subset_of_eq (h : a = b) : a ⊆ b := h ▸ BitVec.and_self

theorem subset_trans {c : Capabilities} (h : a ⊆ b) (h' : b ⊆ c) : a ⊆ c := by
  rw [subset_def] at *
  rw [← h, BitVec.and_assoc, h']

theorem subset_empty (h : a ⊆ ∅) : a = ∅ := ext (h.symm.trans BitVec.and_zero)

theorem inter_subset_inter (h : a ⊆ b) (c : Capabilities) : a ∩ c ⊆ b ∩ c := by
  rw [subset_def] at *
  simp only [bits_inter]
  rw [← h]
  ext i
  simp only [BitVec.getElem_and]
  grind

theorem ofBaseType_subset (h : a ⊆ b) : a.ofBaseType ⊆ b.ofBaseType := by
  unfold ofBaseType
  by_cases hb : b = all
  · rw [if_pos hb]
    exact BitVec.and_allOnes
  · have ha : a ≠ all := by
      rintro rfl
      rw [subset_def, bits_all, BitVec.allOnes_and] at h
      exact hb (ext h)
    rw [if_neg ha, if_neg hb]
    exact inter_subset_inter h inherited

theorem eq_of_subset_parameterless (h : a ⊆ Kind.publicParameterlessConstructor.set)
    (hn : a ≠ ∅) : a = Kind.publicParameterlessConstructor.set := by
  have hle : a.bits.toNat ≤ 1 := by
    have hb := congrArg BitVec.toNat (subset_def.1 h)
    rw [BitVec.toNat_and] at hb
    rw [← hb]
    exact Nat.and_le_right
  have hne : a.bits.toNat ≠ 0 := fun h0 => hn (ext (BitVec.eq_of_toNat_eq h0))
  apply ext
  apply BitVec.eq_of_toNat_eq
  show a.bits.toNat = 1
  omega

end Capabilities

/-- The second value carries at least what the first one does. -/
inductive Value.Improves : Value → Value → Prop
  | same (v : Value) : Improves v v
  | annotated {origin origin' : Origin} {c c' : Capabilities} :
    c ⊆ c' → Improves (.annotated origin c) (.annotated origin' c')

/-- A value gives no reason for a report where something is required. -/
def Value.Meets (required : Capabilities) : Value → Prop
  | .annotated _ available => required ⊆ available
  | .constructible _ available =>
    required = Kind.publicParameterlessConstructor.set ∨ required ⊆ available
  | .unknown => False
  | .type _ | .constant _ | .null => True

theorem Value.Meets.mono {required required' : Capabilities} {v v' : Value}
    (h : v.Meets required) (hi : v.Improves v') (hr : required' ⊆ required)
    (hn : required' ≠ ∅) : v'.Meets required' := by
  cases hi with
  | annotated hc => exact Capabilities.subset_trans hr (Capabilities.subset_trans h hc)
  | same =>
    cases v with
    | annotated origin available => exact Capabilities.subset_trans hr h
    | constructible parameter available =>
      rcases h with rfl | h
      · exact .inl (Capabilities.eq_of_subset_parameterless hr hn)
      · exact .inr (Capabilities.subset_trans hr h)
    | unknown => exact h
    | _ => trivial

/-- Nothing is reported. -/
def Quiet (events : List Event) : Prop := ∀ d, .report d ∉ events

theorem quiet_append {es fs : List Event} : Quiet (es ++ fs) ↔ Quiet es ∧ Quiet fs := by
  simp only [Quiet, List.mem_append, not_or, forall_and]

theorem quiet_flatMap {α : Type} {xs : List α} {f : α → List Event} :
    Quiet (xs.flatMap f) ↔ ∀ x ∈ xs, Quiet (f x) := by
  constructor
  · intro h x hx d hd
    exact h d (List.mem_flatMap.2 ⟨x, hx, hd⟩)
  · intro h d hd
    obtain ⟨x, hx, hd⟩ := List.mem_flatMap.1 hd
    exact h x hx d hd

theorem diagnostics_eq_nil {α : Type} {c : Check α} : c.diagnostics = [] ↔ Quiet c.events := by
  simp only [List.eq_nil_iff_forall_not_mem, MethodBody.mem_diagnostics, Quiet]

namespace Requirement

variable {r : Requirement}

theorem quiet_judgeAnnotated {location : Location} {source : Origin} {available : Capabilities} :
    Quiet (r.judgeAnnotated location source available) ↔ r.required ⊆ available := by
  rw [judgeAnnotated, Quiet]
  by_cases h : r.required ⊆ available
  · simp [h]
  · simp [h]

theorem quiet_judge (resolve : String → Option TypeName) (location : Location) {v : Value} :
    Quiet (r.judge resolve location v) ↔ v.Meets r.required := by
  cases v with
  | annotated source available => exact quiet_judgeAnnotated
  | constructible parameter available =>
    rw [judge, Value.Meets]
    by_cases h : r.required = Kind.publicParameterlessConstructor.set
    · simp [h, Quiet]
    · rw [if_neg h, quiet_judgeAnnotated, or_iff_right h]
  | unknown => simp [judge, Quiet, Value.Meets]
  | constant text =>
    rw [judge]
    cases resolve text <;> simp [Quiet, Value.Meets]
  | _ => simp [judge, Quiet, Value.Meets]

end Requirement

theorem quiet_enforce {host : Host} {r : Requirement} {location : Location}
    {values : ValueSet Value} : Quiet (host.enforce r location values).events ↔
      (r.required ≠ ∅ → ∀ v ∈ values, v.Meets r.required) := by
  simp only [← Requirement.quiet_judge host.resolve location, Quiet, mem_enforce, not_and,
    not_exists]
  grind

/-- Two hosts differ in the annotations of other methods than one only, and the second promises at
least what the first one does and requires at most what it does. -/
structure Host.Relaxes (host : Host) (method : MethodName) (host' : Host) : Prop where
  genericDeclaration_eq : host'.genericDeclaration = host.genericDeclaration
  genericParameters_eq : host'.genericParameters = host.genericParameters
  fieldCapabilities_eq : host'.fieldCapabilities = host.fieldCapabilities
  baseType_eq : host'.baseType = host.baseType
  resolve_eq : host'.resolve = host.resolve
  isExempt_eq : host'.isExempt method = host.isExempt method
  own_parameter index :
    host'.parameterCapabilities method index = host.parameterCapabilities method index
  own_return : host'.returnCapabilities method = host.returnCapabilities method
  own_this : host'.thisCapabilities method = host.thisCapabilities method
  parameter_subset name index :
    host'.parameterCapabilities name index ⊆ host.parameterCapabilities name index
  subset_return name : host.returnCapabilities name ⊆ host'.returnCapabilities name
  this_subset name : host'.thisCapabilities name ⊆ host.thisCapabilities name

def ValueSet.Improves (values values' : ValueSet Value) : Prop :=
  ∀ v' ∈ values', ∃ v ∈ values, v.Improves v'

def SlotState.Improves (state state' : State) : Prop :=
  ∀ slot, (state.get slot).Improves (state'.get slot)

theorem ValueSet.improves_one {v v' : Value} (h : v.Improves v') :
    (one v).Improves (one v') := by
  intro w hw
  rw [mem_def, toList_one, List.mem_singleton] at hw
  subst hw
  exact ⟨v, List.mem_singleton_self v, h⟩

theorem ValueSet.improves_same (values : ValueSet Value) : values.Improves values :=
  fun v hv => ⟨v, hv, .same v⟩

section Relaxing

variable {m : MethodBody} {host host' : Host} {state state' : State}

theorem Host.baseValue_improves (hb : host'.baseType = host.baseType) {v v' : Value}
    (h : v.Improves v') : (host.baseValue v).Improves (host'.baseValue v') := by
  cases h with
  | annotated hc => exact .annotated (Capabilities.ofBaseType_subset hc)
  | same =>
    have he : host'.baseValue v = host.baseValue v := by
      cases v <;> simp only [baseValue, hb]
    rw [he]
    exact .same _

theorem Host.baseValues_improves (hb : host'.baseType = host.baseType)
    {values values' : ValueSet Value} (h : values.Improves values') :
    (host.baseValues values).Improves (host'.baseValues values') := by
  intro w' hw'
  obtain ⟨v', hv', rfl⟩ := ValueSet.mem_map.1 hw'
  obtain ⟨v, hv, hi⟩ := h v' hv'
  exact ⟨_, ValueSet.mem_map.2 ⟨v, hv, rfl⟩, baseValue_improves hb hi⟩

theorem Host.Relaxes.genericValue_eq {method : MethodName} (hr : host.Relaxes method host') :
    host'.genericValue = host.genericValue := by
  funext parameter
  rw [genericValue, hr.genericDeclaration_eq]
  rfl

theorem Host.Relaxes.fieldValue_eq {method : MethodName} (hr : host.Relaxes method host') :
    host'.fieldValue = host.fieldValue := by
  funext field
  rw [fieldValue, hr.fieldCapabilities_eq]
  rfl

theorem SlotState.Improves.values {method : MethodName} (hr : host.Relaxes method host')
    (h : state.Improves state') :
    ∀ o : Operand, (o.values host state).Improves (o.values host' state')
  | .read slot => h slot
  | .invoke callee _ _ _ => ValueSet.improves_one (.annotated (hr.subset_return callee))
  | .baseTypeOf operand => Host.baseValues_improves hr.baseType_eq (h.values hr operand)
  | .genericParameter parameter => by
    rw [Operand.values, Operand.values, hr.genericValue_eq]
    exact ValueSet.improves_same _
  | .load field => by
    rw [Operand.values, Operand.values, hr.fieldValue_eq]
    exact ValueSet.improves_same _
  | .typeOf _ | .literal _ | .null | .nameOf _ _ | .element _ | .unmodelled _ _ =>
    ValueSet.improves_same _

theorem SlotState.Improves.effect {method : MethodName} (hr : host.Relaxes method host')
    (h : state.Improves state') (statement : Statement) :
    (statement.effect host state).Improves (statement.effect host' state') := by
  obtain ⟨operation, location⟩ := statement
  cases operation with
  | assign slot value =>
    intro slot'
    simp only [Statement.effect, SlotState.get_set]
    by_cases he : slot = slot'
    · simp only [he, if_true]
      exact h.values hr value
    · simp only [he, if_false]
      exact h slot'
  | _ => exact h

/-- A relaxed requirement is met where the stricter one is, by values that are at least as good. -/
theorem Quiet.enforce_mono {r r' : Requirement} {location : Location}
    {values values' : ValueSet Value} (hrequired : r'.required ⊆ r.required)
    (hi : values.Improves values') (h : Quiet (host.enforce r location values).events) :
    Quiet (host'.enforce r' location values').events := by
  rw [quiet_enforce] at *
  intro hn v' hv'
  obtain ⟨v, hv, hvv⟩ := hi v' hv'
  have hne : r.required ≠ ∅ := by
    intro h0
    rw [h0] at hrequired
    exact hn (Capabilities.subset_empty hrequired)
  exact (h hne v hv).mono hvv hrequired hn

theorem Host.Relaxes.requirement_subset {method : MethodName} (hr : host.Relaxes method host')
    {place : Place} (h : place.IsWithin method) :
    (host'.requirement place).required ⊆ (host.requirement place).required := by
  cases place with
  | receiver callee => exact hr.this_subset callee
  | argument callee index => exact hr.parameter_subset callee index
  | field name =>
    exact Capabilities.subset_of_eq (congrFun hr.fieldCapabilities_eq name)
  | result name =>
    cases h
    exact Capabilities.subset_of_eq hr.own_return

namespace Host.Relaxes

variable {method : MethodName}

theorem enforceArgument_eq (hr : host.Relaxes method host') (location : Location)
    (parameter : GenericParameter) (argument : TypeArgument) :
    host'.enforceArgument location parameter argument =
      host.enforceArgument location parameter argument := by
  have hv : host'.argumentValue? argument = host.argumentValue? argument := by
    cases argument <;> simp only [argumentValue?, hr.genericValue_eq]
  simp only [enforceArgument, hv, enforce, genericRequirement, hr.genericDeclaration_eq,
    hr.resolve_eq]

mutual

theorem checkArgument_eq (hr : host.Relaxes method host') (location : Location)
    (parameter : GenericParameter) : ∀ argument : TypeArgument,
    host'.checkArgument location parameter argument = host.checkArgument location parameter argument
  | .constructed definition arguments => by
    have ha (parameters) := checkArguments_eq hr location parameters arguments
    simp only [checkArgument, withParameters, hr.genericParameters_eq, ha, hr.enforceArgument_eq]
  | .named _ | .array _ | .parameter _ | .missing => by
    simp only [checkArgument, hr.enforceArgument_eq]

theorem checkArguments_eq (hr : host.Relaxes method host') (location : Location)
    (parameters : List GenericParameter) : ∀ arguments : List TypeArgument,
    host'.checkArguments location parameters arguments =
      host.checkArguments location parameters arguments
  | [] => by
    cases parameters <;> simp only [checkArguments]
  | argument :: arguments => by
    cases parameters with
    | nil => simp only [checkArguments]
    | cons parameter parameters =>
      simp only [checkArguments, checkArgument_eq hr location parameter argument,
        checkArguments_eq hr location parameters arguments]

end

theorem checkInstantiation_eq (hr : host.Relaxes method host') (location : Location)
    (i : Instantiation) :
    host'.checkInstantiation location i = host.checkInstantiation location i := by
  simp only [checkInstantiation, withParameters, hr.genericParameters_eq, hr.checkArguments_eq]

end Host.Relaxes

theorem SlotState.mem_get {slot : Slot} {v : Value} :
    v ∈ state.get slot ↔ ∃ values, (slot, values) ∈ state.slots.entries ∧ v ∈ values := by
  simp only [SlotState.get, ← OrderedMap.get?_eq_some_iff]
  cases state.slots.get? slot with
  | none => simp [ValueSet.mem_def]
  | some values => simp

theorem MethodBody.mem_initialState {slot : Slot} {v : Value} :
    v ∈ (m.initialState host).get slot ↔
      (slot = .this ∧ m.hasThis = true ∧ v = host.thisValue m.method) ∨
      ∃ i < m.parameterCount.toNat, slot = .parameter (UInt32.ofNat i) ∧
        v = host.parameterValue m.method (UInt32.ofNat i) := by
  have hp : v ∈ SlotState.get
      ⟨⟨m.annotatedParameters host, m.nodup_annotatedParameters host⟩⟩ slot ↔
        ∃ i < m.parameterCount.toNat, slot = .parameter (UInt32.ofNat i) ∧
          v = host.parameterValue m.method (UInt32.ofNat i) := by
    simp only [SlotState.mem_get, annotatedParameters, List.mem_map, List.mem_range, Prod.mk.injEq]
    constructor
    · intro h
      obtain ⟨_, ⟨i, hi, rfl, rfl⟩, hv⟩ := h
      exact ⟨i, hi, rfl, List.mem_singleton.1 hv⟩
    · intro h
      obtain ⟨i, hi, rfl, rfl⟩ := h
      exact ⟨_, ⟨i, hi, rfl, rfl⟩, List.mem_singleton_self _⟩
  unfold initialState
  cases m.hasThis with
  | false => simp [hp]
  | true =>
    simp only [if_true, SlotState.get_set]
    by_cases hs : Slot.this = slot
    · subst hs
      simp [ValueSet.mem_def]
    · simp only [if_neg hs, hp, Ne.symm hs, false_and, false_or]

namespace Host.Relaxes

theorem quiet_check (hr : host.Relaxes m.method host') (hs : state.Improves state')
    {location : Location} {d : Demand} (hd : d.IsWithin m.method)
    (h : Quiet (d.check m host location state).events) :
    Quiet (d.check m host' location state').events := by
  cases d with
  | access slot => exact h
  | flow place source =>
    exact Quiet.enforce_mono (hr.requirement_subset hd) (hs.values hr source) h
  | instantiate i =>
    rw [Demand.check, hr.checkInstantiation_eq]
    exact h

theorem quiet_events (hr : host.Relaxes m.method host') (hs : state.Improves state')
    {statement : Statement} (h : Quiet (statement.events m host state)) :
    Quiet (statement.events m host' state') := by
  rw [Statement.events, quiet_flatMap] at *
  intro d hd
  exact hr.quiet_check hs (isWithin_operation statement.operation d hd) (h d hd)

theorem quiet_trace (hr : host.Relaxes m.method host') (hs : state.Improves state')
    {code : List Statement} (h : Quiet (trace m host code state)) :
    Quiet (trace m host' code state') := by
  induction code generalizing state state' with
  | nil => exact h
  | cons statement code ih =>
    rw [trace, quiet_append] at *
    exact ⟨hr.quiet_events hs h.1, ih (hs.effect hr statement) h.2⟩

theorem arityFault_iff {method : MethodName} (hr : host.Relaxes method host') {i : Instantiation} :
    i.ArityFault host' ↔ i.ArityFault host := by
  have hs : (host'.checkInstantiation {} i).Succeeds ↔ ¬ i.ArityFault host' :=
    checkInstantiation_succeeds
  rw [hr.checkInstantiation_eq, checkInstantiation_succeeds] at hs
  exact (not_iff_not.1 hs).symm

theorem admits_iff (hr : host.Relaxes m.method host') {code : List Statement} :
    m.Admits host' code ↔ m.Admits host code := by
  have hf (d : Demand) : d.Fails m host' ↔ d.Fails m host := by
    cases d with
    | instantiate i => exact hr.arityFault_iff
    | _ => exact Iff.rfl
  simp only [MethodBody.Admits, ← failsIn_operation, FailsIn, hf]

theorem pass_succeeds_iff (hr : host.Relaxes m.method host') :
    (m.pass host').Succeeds ↔ (m.pass host).Succeeds := by
  simp only [MethodBody.pass_succeeds, hr.admits_iff]

theorem initialState_improves (hr : host.Relaxes m.method host') :
    (m.initialState host).Improves (m.initialState host') := by
  intro slot v' hv'
  simp only [MethodBody.mem_initialState] at *
  rcases hv' with ⟨rfl, ht, rfl⟩ | ⟨i, hi, rfl, rfl⟩
  · have hc := Capabilities.subset_of_eq hr.own_this.symm
    exact ⟨host.thisValue m.method, .inl ⟨rfl, ht, rfl⟩, .annotated hc⟩
  · have hc := Capabilities.subset_of_eq (hr.own_parameter (UInt32.ofNat i)).symm
    exact ⟨host.parameterValue m.method (UInt32.ofNat i), .inr ⟨i, hi, rfl, rfl⟩, .annotated hc⟩

theorem pass_clean (hr : host.Relaxes m.method host') (h : (m.pass host).Succeeds)
    (hc : (m.pass host).diagnostics = []) : (m.pass host').diagnostics = [] := by
  have h' := hr.pass_succeeds_iff.2 h
  rw [MethodBody.pass_clean_iff h']
  intro code hrun
  have hq := (MethodBody.pass_clean_iff h).1 hc code hrun
  rw [diagnostics_eq_nil, MethodBody.execute_of_forwardRun h hrun] at hq
  rw [diagnostics_eq_nil, MethodBody.execute_of_forwardRun h' hrun]
  exact hr.quiet_trace hr.initialState_improves hq

theorem analyze_clean (hr : host.Relaxes m.method host') {options : Options}
    (hc : (m.analyze host options).result = .ok []) :
    (m.analyze host' options).result = .ok [] := by
  have he : m.exemption? host' options = m.exemption? host options := by
    rw [MethodBody.exemption?, hr.isExempt_eq]
    rfl
  cases hx : m.exemption? host options with
  | some reason => rw [MethodBody.analyze_of_exempt (he.trans hx)]
  | none =>
    obtain ⟨hs, hd⟩ := (MethodBody.analyze_eq_ok hx).1 hc
    exact (MethodBody.analyze_eq_ok (he.trans hx)).2
      ⟨hr.pass_succeeds_iff.2 hs, hr.pass_clean hs hd⟩

end Host.Relaxes

end Relaxing

/-- Two declarations of a method differ in annotations only, and the second promises at least what
the first one does and requires at most what it does. -/
structure MethodSymbol.Relaxes (symbol symbol' : MethodSymbol) : Prop where
  declaringType_eq : symbol'.declaringType = symbol.declaringType
  isExempt_eq : symbol'.isExempt = symbol.isExempt
  parameters : symbol.parameters.Forall₂
    (fun p p' => p'.name = p.name ∧ p'.capabilities ⊆ p.capabilities) symbol'.parameters
  subset_return : symbol.returnCapabilities ⊆ symbol'.returnCapabilities
  this_subset : symbol'.thisCapabilities ⊆ symbol.thisCapabilities

def MethodSymbol.parameterCapabilities (symbol : MethodSymbol) (i : Nat) : Capabilities :=
  ((symbol.parameters[i]?).map (·.capabilities)).getD ∅

theorem MethodSymbol.Relaxes.parameter_subset {symbol symbol' : MethodSymbol}
    (h : symbol.Relaxes symbol') (i : Nat) :
    symbol'.parameterCapabilities i ⊆ symbol.parameterCapabilities i := by
  unfold parameterCapabilities
  have hl := h.parameters.length_eq
  by_cases hi : i < symbol.parameters.length
  · rw [List.getElem?_eq_getElem hi, List.getElem?_eq_getElem (hl ▸ hi)]
    exact (h.parameters.get hi (hl ▸ hi)).2
  · rw [List.getElem?_eq_none (Nat.not_lt.1 hi), List.getElem?_eq_none (hl ▸ Nat.not_lt.1 hi)]
    exact Capabilities.subset_of_eq rfl

def SymbolTable.symbol (table : SymbolTable) (name : MethodName) : MethodSymbol :=
  (table.methods.get? name).getD {}

/-- Two tables differ in the annotations of other methods than one only, and those of the second are
relaxed. -/
structure SymbolTable.Relaxes (table : SymbolTable) (method : MethodName) (table' : SymbolTable) :
    Prop where
  fields_eq name : table'.fields.get? name = table.fields.get? name
  types_eq name : table'.types.get? name = table.types.get? name
  generics_eq name : table'.generics.get? name = table.generics.get? name
  own_eq : table'.methods.get? method = table.methods.get? method
  symbol name : (table.symbol name).Relaxes (table'.symbol name)

namespace SymbolTable

variable {table table' : SymbolTable} {method : MethodName}

theorem host_parameterCapabilities (table : SymbolTable) (name : MethodName) (index : UInt32) :
    table.host.parameterCapabilities name index =
      (table.symbol name).parameterCapabilities index.toNat := by
  simp only [host, parameter?, symbol]
  cases table.methods.get? name <;> rfl

theorem host_returnCapabilities (table : SymbolTable) (name : MethodName) :
    table.host.returnCapabilities name = (table.symbol name).returnCapabilities := by
  simp only [host, symbol]
  cases table.methods.get? name <;> rfl

theorem host_thisCapabilities (table : SymbolTable) (name : MethodName) :
    table.host.thisCapabilities name = (table.symbol name).thisCapabilities := by
  simp only [host, symbol]
  cases table.methods.get? name <;> rfl

theorem Relaxes.host (h : table.Relaxes method table') : table.host.Relaxes method table'.host where
  genericDeclaration_eq := by
    funext parameter
    simp only [SymbolTable.host, generic?, h.generics_eq]
  genericParameters_eq := by
    funext definition
    simp only [SymbolTable.host, h.generics_eq]
  fieldCapabilities_eq := by
    funext field
    simp only [SymbolTable.host, h.fields_eq]
  baseType_eq := by
    funext name
    simp only [SymbolTable.host, h.types_eq]
  resolve_eq := by
    have hc : table'.types.contains = table.types.contains := by
      funext name
      rw [OrderedMap.contains, h.types_eq]
      rfl
    funext text
    rw [SymbolTable.host, SymbolTable.host]
    simp only [resolve]
    rw [hc]
  isExempt_eq := by
    have ht : table'.typeIsExempt = table.typeIsExempt := by
      funext name
      rw [typeIsExempt, h.types_eq]
      rfl
    simp only [SymbolTable.host, methodIsExempt, h.own_eq, ht]
  own_parameter index := by simp only [SymbolTable.host, parameter?, h.own_eq]
  own_return := by simp only [SymbolTable.host, h.own_eq]
  own_this := by simp only [SymbolTable.host, h.own_eq]
  parameter_subset name index := by
    rw [host_parameterCapabilities, host_parameterCapabilities]
    exact (h.symbol name).parameter_subset index.toNat
  subset_return name := by
    rw [host_returnCapabilities, host_returnCapabilities]
    exact (h.symbol name).subset_return
  this_subset name := by
    rw [host_thisCapabilities, host_thisCapabilities]
    exact (h.symbol name).this_subset

end SymbolTable

/-- A body that is clean stays clean when the annotations of other methods are relaxed, whatever
else the results of these methods go through. -/
theorem MethodBody.analyze_clean_of_relaxes {m : MethodBody} {table table' : SymbolTable}
    {options : Options} (h : table.Relaxes m.method table')
    (clean : (m.analyze table.host options).result = .ok []) :
    (m.analyze table'.host options).result = .ok [] :=
  h.host.analyze_clean clean

namespace MethodBody

def sourceTable (promised required : Capabilities) : SymbolTable :=
  let sink : MethodSymbol := { parameters := [{ name := "type", capabilities := required }] }
  let source : MethodSymbol := { returnCapabilities := promised }
  { methods := .ofList [("Sink(Type)", sink), ("Source()", source)] }

theorem sourceTable_relaxes {promised promised' required required' : Capabilities}
    (hp : promised ⊆ promised') (hr : required' ⊆ required) :
    (sourceTable promised required).Relaxes retry.method (sourceTable promised' required') where
  fields_eq _ := rfl
  types_eq _ := rfl
  generics_eq _ := rfl
  own_eq := rfl
  symbol name := by
    simp only [SymbolTable.symbol, sourceTable, OrderedMap.ofList, List.foldl,
      OrderedMap.get?_insert]
    split
    · exact ⟨rfl, rfl, .nil, hp, Capabilities.subset_of_eq rfl⟩
    · split
      · exact ⟨rfl, rfl, .cons ⟨rfl, hr⟩ .nil, Capabilities.subset_of_eq rfl,
          Capabilities.subset_of_eq rfl⟩
      · exact ⟨rfl, rfl, .nil, Capabilities.subset_of_eq rfl, Capabilities.subset_of_eq rfl⟩

theorem analyze_retry_relaxed :
    (sourceTable ⟨0x28⟩ ⟨0x28⟩).Relaxes retry.method (sourceTable .all ⟨0x08⟩) ∧
    (retry.analyze (sourceTable ⟨0x28⟩ ⟨0x28⟩).host {}).result = .ok [] ∧
    (retry.analyze (sourceTable .all ⟨0x08⟩).host {}).result = .ok [] := by
  have h : (sourceTable ⟨0x28⟩ ⟨0x28⟩).Relaxes retry.method (sourceTable .all ⟨0x08⟩) :=
    sourceTable_relaxes (by decide) (by decide)
  have hc : (retry.analyze (sourceTable ⟨0x28⟩ ⟨0x28⟩).host {}).result = .ok [] := by decide +kernel
  exact ⟨h, hc, analyze_clean_of_relaxes h hc⟩

end MethodBody

end CapabilityFlow
