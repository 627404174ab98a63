import CapabilityFlow.Proofs.AbortedCalls
import CapabilityFlow.Proofs.JustifiedDiagnostics
import CapabilityFlow.Proofs.Relaxation

namespace CapabilityFlow

/-- The types that a type argument names: every array is one type, and an instantiation names its
definition besides what its arguments name. -/
inductive TypeArgument.Names : TypeArgument → TypeName → Prop
  | named (name : TypeName) : Names (.named name) name
  | array (element : TypeArgument) : Names (.array element) Host.arrayType
  | constructed (definition : String) (arguments : List TypeArgument) :
    Names (.constructed definition arguments) definition
  | part {definition : String} {arguments : List TypeArgument} {argument : TypeArgument}
      {name : TypeName} :
    argument ∈ arguments → argument.Names name → Names (.constructed definition arguments) name

def Instantiation.Names (i : Instantiation) (name : TypeName) : Prop :=
  ∃ argument ∈ i.arguments, argument.Names name

/-- The operands that an operation evaluates, at any depth. -/
inductive Operation.Evaluates : Operation → Operand → Prop
  | assign {slot : Slot} {value o : Operand} :
    value.Evaluates o → Evaluates (.assign slot value) o
  | evaluate {value o : Operand} : value.Evaluates o → Evaluates (.evaluate value) o
  | store {field : FieldName} {value o : Operand} :
    value.Evaluates o → Evaluates (.store field value) o
  | ret {value o : Operand} : value.Evaluates o → Evaluates (.ret (some value)) o
  | throw {value o : Operand} : value.Evaluates o → Evaluates (.throw (some value)) o
  | yield {value o : Operand} : value.Evaluates o → Evaluates (.yield (some value)) o

namespace MethodBody

/-- Some statement that can be reached has the operation. -/
def Runs (m : MethodBody) (operation : Operation) : Prop :=
  ∃ b block statement, m.graph.Reaches m.graph.entry b ∧ m.graph.block? b = some block ∧
    statement ∈ block.statements ∧ statement.operation = operation

def Evaluates (m : MethodBody) (o : Operand) : Prop :=
  ∃ operation, m.Runs operation ∧ operation.Evaluates o

/-- An instantiation stands in the code by itself or has the type arguments of a call. -/
def Instantiates (m : MethodBody) (i : Instantiation) : Prop :=
  m.Runs (.instantiate i) ∨
    ∃ receiver arguments, m.Evaluates (.invoke i.definition receiver arguments i.arguments)

def Names (m : MethodBody) (name : TypeName) : Prop :=
  m.Evaluates (.typeOf name) ∨ ∃ i, m.Instantiates i ∧ i.Names name

/-- Some literal has the text, or it is the name of some expression. -/
def Quotes (m : MethodBody) (text : String) : Prop :=
  m.Evaluates (.literal text) ∨ ∃ o, m.Evaluates (.nameOf text o)

/-- A type or text comes from the code of the body, or is a base type. -/
def Grounds (m : MethodBody) (host : Host) : Value → Prop
  | .type name => m.Names name ∨ ∃ type, host.baseType type = some name
  | .constant text => m.Quotes text
  | .annotated .. | .constructible .. | .null | .unknown => True

def GroundsState (m : MethodBody) (host : Host) (state : State) : Prop :=
  ∀ slot, ∀ v ∈ state.get slot, m.Grounds host v

def Demands (m : MethodBody) : Demand → Prop
  | .access _ => True
  | .flow _ source => ∀ part, source.Evaluates part → m.Evaluates part
  | .instantiate i => m.Instantiates i

/-- A mark asks for something, and is of a type that the body names or quotes, or of a base type. -/
def Sources (m : MethodBody) (host : Host) (k : Mark) : Prop :=
  k.required ≠ ∅ ∧ (m.Grounds host (.type k.type) ∨
    ∃ text, m.Quotes text ∧ host.resolve text = some k.type)

end MethodBody

section Arguments

variable {host : Host} {i : Instantiation} {parameter : GenericParameter}
  {argument : TypeArgument} {name : TypeName}

theorem TypeArgument.names_of_argumentValue?
    (h : host.argumentValue? argument = some (.type name)) : argument.Names name := by
  cases argument with
  | named name' =>
    cases h
    exact .named name
  | array element =>
    cases h
    exact .array element
  | parameter supplied =>
    simp only [Host.argumentValue?, Host.genericValue, Option.some.injEq] at h
    split at h <;> cases h
  | constructed definition arguments =>
    cases h
    exact .constructed name arguments
  | missing => cases h

theorem Instantiation.Enforces.names (h : i.Enforces host parameter argument)
    (hname : argument.Names name) : i.Names name := by
  induction h with
  | here hcomes _ => exact ⟨_, hcomes.mem, hname⟩
  | nested hcomes _ ih =>
    obtain ⟨part, hpart, hname'⟩ := ih hname
    exact ⟨_, hcomes.mem, .part hpart hname'⟩

end Arguments

namespace MethodBody

variable {m : MethodBody} {host : Host} {state : State}

section Demanding

mutual

theorem demands_operand : ∀ o : Operand, (∀ part, o.Evaluates part → m.Evaluates part) →
    ∀ d ∈ o.demands, m.Demands d
  | .typeOf _, _ | .genericParameter _, _ | .literal _, _ | .null, _ | .load _, _
  | .nameOf _ _, _ => fun _ hd => absurd hd List.not_mem_nil
  | .read slot, _ => List.forall_mem_singleton.2 trivial
  | .invoke method receiver arguments typeArguments, h => by
    rw [Operand.demands, List.forall_mem_append, List.forall_mem_append]
    refine ⟨demands_receiver method receiver ?_, demands_arguments method 0 arguments ?_, ?_⟩
    · rintro _ rfl part hpart
      exact h part (.receiver hpart)
    · intro a ha part hpart
      exact h part (.argument ha hpart)
    · split
      · exact fun _ hd => absurd hd List.not_mem_nil
      · exact List.forall_mem_singleton.2 (.inr ⟨receiver, arguments, h _ (.self _)⟩)
  | .baseTypeOf operand, h =>
    demands_operand operand fun part hpart => h part (.baseTypeOf hpart)
  | .element array, h => demands_operand array fun part hpart => h part (.element hpart)
  | .unmodelled _ operands, h =>
    demands_operands operands fun o ho part hpart => h part (.unmodelled ho hpart)

theorem demands_receiver (method : MethodName) : ∀ r : Option Operand,
    (∀ o ∈ r, ∀ part, o.Evaluates part → m.Evaluates part) →
    ∀ d ∈ receiverDemands method r, m.Demands d
  | none, _ => fun _ hd => absurd hd List.not_mem_nil
  | some receiver, h => by
    have hreceiver := h receiver rfl
    rw [receiverDemands, List.forall_mem_append]
    exact ⟨demands_operand receiver hreceiver, List.forall_mem_singleton.2 hreceiver⟩

theorem demands_arguments (method : MethodName) (index : UInt32) : ∀ os : List Operand,
    (∀ o ∈ os, ∀ part, o.Evaluates part → m.Evaluates part) →
    ∀ d ∈ argumentDemands method index os, m.Demands d
  | [], _ => fun _ hd => absurd hd List.not_mem_nil
  | argument :: arguments, h => by
    obtain ⟨hargument, hrest⟩ := List.forall_mem_cons.1 h
    rw [argumentDemands, List.forall_mem_append, List.forall_mem_cons]
    exact ⟨demands_operand argument hargument, hargument,
      demands_arguments method (index + 1) arguments hrest⟩

theorem demands_operands : ∀ os : List Operand,
    (∀ o ∈ os, ∀ part, o.Evaluates part → m.Evaluates part) →
    ∀ d ∈ operandDemands os, m.Demands d
  | [], _ => fun _ hd => absurd hd List.not_mem_nil
  | operand :: operands, h => by
    obtain ⟨hoperand, hrest⟩ := List.forall_mem_cons.1 h
    rw [operandDemands, List.forall_mem_append]
    exact ⟨demands_operand operand hoperand, demands_operands operands hrest⟩

end

theorem Runs.demands {operation : Operation} (h : m.Runs operation) :
    ∀ d ∈ operation.demands m.method, m.Demands d := by
  cases operation with
  | assign slot value =>
    rw [Operation.demands, List.forall_mem_cons]
    exact ⟨trivial, demands_operand value fun _ hpart => ⟨_, h, .assign hpart⟩⟩
  | store field value =>
    have hvalue : ∀ part, value.Evaluates part → m.Evaluates part :=
      fun _ hpart => ⟨_, h, .store hpart⟩
    rw [Operation.demands, List.forall_mem_append]
    exact ⟨demands_operand value hvalue, List.forall_mem_singleton.2 hvalue⟩
  | ret value =>
    cases value with
    | none => exact fun _ hd => absurd hd List.not_mem_nil
    | some value =>
      have hvalue : ∀ part, value.Evaluates part → m.Evaluates part :=
        fun _ hpart => ⟨_, h, .ret hpart⟩
      rw [Operation.demands, List.forall_mem_append]
      exact ⟨demands_operand value hvalue, List.forall_mem_singleton.2 hvalue⟩
  | instantiate i => exact List.forall_mem_singleton.2 (.inl h)
  | evaluate operand => exact demands_operand operand fun _ hpart => ⟨_, h, .evaluate hpart⟩
  | throw exception =>
    cases exception with
    | none => exact fun _ hd => absurd hd List.not_mem_nil
    | some operand => exact demands_operand operand fun _ hpart => ⟨_, h, .throw hpart⟩
  | yield value =>
    cases value with
    | none => exact fun _ hd => absurd hd List.not_mem_nil
    | some operand => exact demands_operand operand fun _ hpart => ⟨_, h, .yield hpart⟩
  | defineLambda | defineLocalFunction | nop => exact fun _ hd => absurd hd List.not_mem_nil

end Demanding

section Values

theorem Grounds.baseValue {v : Value} (h : m.Grounds host v) :
    m.Grounds host (host.baseValue v) := by
  cases v with
  | type name =>
    rw [Host.baseValue]
    cases hbase : host.baseType name with
    | none => trivial
    | some base => exact .inr ⟨name, hbase⟩
  | annotated | constructible | constant | null | unknown => trivial

theorem GroundsState.values (h : m.GroundsState host state) : ∀ o : Operand,
    (∀ part, o.Evaluates part → m.Evaluates part) → ∀ v ∈ o.values host state, m.Grounds host v
  | .typeOf name, ho => by
    intro v hv
    cases ValueSet.mem_one.1 hv
    exact .inl (.inl (ho _ (.self _)))
  | .genericParameter parameter, _ => by
    intro v hv
    cases ValueSet.mem_one.1 hv
    rw [Host.genericValue]
    split <;> trivial
  | .literal text, ho => by
    intro v hv
    cases ValueSet.mem_one.1 hv
    exact .inl (ho _ (.self _))
  | .nameOf text operand, ho => by
    intro v hv
    cases ValueSet.mem_one.1 hv
    exact .inr ⟨operand, ho _ (.self _)⟩
  | .read slot, _ => h slot
  | .baseTypeOf operand, ho => by
    -- Texts have no base type: only types that the table declares come out of a projection.
    intro v hv
    obtain ⟨w, hw, rfl⟩ := ValueSet.mem_map.1 hv
    exact (h.values operand (fun part hpart => ho part (.baseTypeOf hpart)) w hw).baseValue
  | .null, _ | .load _, _ | .invoke _ _ _ _, _ | .element _, _ | .unmodelled _ _, _ => by
    intro v hv
    cases ValueSet.mem_one.1 hv
    trivial

theorem groundsState_initialState (m : MethodBody) (host : Host) :
    m.GroundsState host (m.initialState host) := by
  intro slot v hv
  rcases mem_initialState.1 hv with ⟨-, -, rfl⟩ | ⟨i, -, -, rfl⟩
  · trivial
  · trivial

theorem GroundsState.effect {statement : Statement} (h : m.GroundsState host state)
    (hs : m.Runs statement.operation) : m.GroundsState host (statement.effect host state) := by
  obtain ⟨operation, location⟩ := statement
  cases operation with
  | assign slot value =>
    intro slot' v hv
    rw [Statement.effect, SlotState.get_set] at hv
    split at hv
    · exact h.values value (fun _ hpart => ⟨_, hs, .assign hpart⟩) v hv
    · exact h slot' v hv
  | _ => exact h

theorem GroundsState.finalState {code : List Statement} (h : m.GroundsState host state)
    (hc : ∀ statement ∈ code, m.Runs statement.operation) :
    m.GroundsState host (finalState host code state) := by
  induction code generalizing state with
  | nil => exact h
  | cons statement code ih =>
    obtain ⟨hs, hrest⟩ := List.forall_mem_cons.1 hc
    exact ih (h.effect hs) hrest

end Values

section Marking

variable {k : Mark}

theorem GroundsState.sources_check {location : Location} {d : Demand}
    (h : m.GroundsState host state) (hd : m.Demands d)
    (hk : .mark k ∈ (d.check m host location state).events) : m.Sources host k := by
  cases d with
  | access slot =>
    rw [Demand.check, events_checkSlot] at hk
    cases hk
  | flow place source =>
    obtain ⟨hr, v, hv, hjudged⟩ := mem_enforce.1 hk
    have hgrounded := h.values source hd v hv
    obtain ⟨hrequired, rfl | ⟨text, rfl, hresolve⟩⟩ := Requirement.mark_mem_judge.1 hjudged
    · exact ⟨hrequired ▸ hr, .inl hgrounded⟩
    · exact ⟨hrequired ▸ hr, .inr ⟨text, hgrounded, hresolve⟩⟩
  | instantiate i =>
    obtain ⟨parameter, argument, henforces, he⟩ := Host.mem_checkInstantiation.1 hk
    obtain ⟨htype, -, hr⟩ := Host.mark_mem_enforceArgument.1 he
    have hname := henforces.names (TypeArgument.names_of_argumentValue? htype)
    exact ⟨hr, .inl (.inl (.inr ⟨i, hd, hname⟩))⟩

/-- What code of the body marks comes from the body, also when a violation ends the code. -/
theorem GroundsState.sources_execute {code : List Statement} (h : m.GroundsState host state)
    (hc : ∀ statement ∈ code, m.Runs statement.operation)
    (hk : .mark k ∈ (m.execute host code state).events) : m.Sources host k := by
  obtain ⟨ran, statement, rest, rfl, d, hd, he⟩ := exists_demand_of_mem_execute hk
  obtain ⟨hran, hrest⟩ := List.forall_mem_append.1 hc
  have hruns : m.Runs statement.operation := hrest statement List.mem_cons_self
  exact (h.finalState hran).sources_check (hruns.demands d hd) he

theorem runs_of_block {b : BlockId} {block : BasicBlock} (hb : b ∈ m.graph.reversePostorder)
    (hblock : m.graph.block? b = some block) :
    ∀ statement ∈ block.statements, m.Runs statement.operation :=
  fun statement hs =>
    ⟨b, block, statement, FlowGraph.mem_reversePostorder_iff.1 hb, hblock, hs, rfl⟩

theorem runs_of_forward {b : BlockId} {code : List Statement} (h : m.graph.Forward b code) :
    ∀ statement ∈ code, m.Runs statement.operation := by
  induction h with
  | start => exact fun _ hs => absurd hs List.not_mem_nil
  | edge ha hblock _ _ ih =>
    exact List.forall_mem_append.2 ⟨ih, runs_of_block (forward_mem ha) hblock⟩
  | thrown ha hblock _ _ hran ih =>
    have hruns := runs_of_block (forward_mem ha) hblock
    exact List.forall_mem_append.2 ⟨ih, fun s hs => hruns s (hran.subset hs)⟩

theorem Emits.sources (h : m.Emits host (.mark k)) : m.Sources host k := by
  obtain ⟨-, b, block, code, s, hvisits, hblock, hf, hrun, hk⟩ := h
  obtain ⟨code', hf', rfl⟩ := (mem_arriving_of_visits hvisits).2 ⟨code, hf, hrun⟩
  have hgrounded := (m.groundsState_initialState host).finalState (runs_of_forward hf')
  exact hgrounded.sources_execute (runs_of_block hvisits.1 hblock) hk

end Marking

end MethodBody

namespace Call

variable {table : SymbolTable} {options : Options} {c : Call} {k : Mark} {name : TypeName}

def Names (name : TypeName) : Call → Prop
  | analyze m => m.Names name
  | checkSite site => site.instantiation.Names name
  | validate _ => False

def Quotes (text : String) : Call → Prop
  | analyze m => m.Quotes text
  | checkSite _ | validate _ => False

/-- Where a type that a call marks comes from. -/
inductive Sources (table : SymbolTable) (c : Call) (name : TypeName) : Prop
  | named : c.Names name → Sources table c name
  | base {type : TypeName} {symbol : TypeSymbol} : table.types.get? type = some symbol →
    symbol.baseType = some name → Sources table c name
  | quoted {text : String} : c.Quotes text → table.resolve text = some name →
    table.types.contains name = true → Sources table c name

/-- Every mark that a call makes asks for something and is of a type with a source. -/
theorem Makes.sources (h : c.Makes table.host options k) :
    k.required ≠ ∅ ∧ c.Sources table k.type := by
  cases h with
  | body _ hemits =>
    obtain ⟨hr, (hname | ⟨type, hbase⟩) | ⟨text, hquotes, hresolve⟩⟩ := hemits.sources
    · exact ⟨hr, .named hname⟩
    · obtain ⟨symbol, hsymbol, hbase⟩ := Option.bind_eq_some_iff.1 hbase
      exact ⟨hr, .base hsymbol hbase⟩
    · exact ⟨hr, .quoted hquotes hresolve (SymbolTable.resolve_eq_some.1 hresolve).1⟩
  | argument _ henforces htype _ hr =>
    exact ⟨hr, .named (henforces.names (TypeArgument.names_of_argumentValue? htype))⟩

end Call

end CapabilityFlow
