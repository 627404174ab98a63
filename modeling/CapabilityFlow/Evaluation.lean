import CapabilityFlow.Enforcement
import CapabilityFlow.FlowGraph
import CapabilityFlow.FlowGraph.Traversal

namespace CapabilityFlow

abbrev State := SlotState Value

/-- The body of a method, with what its signature says about its slots. -/
structure MethodBody where
  method : MethodName
  parameterCount : UInt32 := 0
  hasThis : Bool := false
  isAsync : Bool := false
  graph : FlowGraph

namespace MethodBody

/-- A body may use its own parameters, and `this` only if there is one. -/
def checkSlot (m : MethodBody) : Slot → Check Unit
  | .parameter index =>
    if index < m.parameterCount then .done ()
    else .fail (.parameterOutOfRange m.method index m.parameterCount)
  | .this => if m.hasThis then .done () else .fail (.noThisParameter m.method)
  | .localVar _ => .done ()

mutual

def evaluate (m : MethodBody) (host : Host) (location : Location) (state : State) :
    Operand → Check (ValueSet Value)
  | .typeOf name => .done (.one (.type name))
  | .genericParameter parameter => .done (.one (host.genericValue parameter))
  | .literal text => .done (.one (.constant text))
  | .null => .done (.one .null)
  | .read slot => do
    m.checkSlot slot
    return state.get slot
  | .load field => .done (.one (host.fieldValue field))
  | .invoke method receiver arguments typeArguments => do
    evaluateReceiver m host location state method receiver
    evaluateArguments m host location state method 0 arguments
    if typeArguments.isEmpty then .done ()
    else host.checkInstantiation location ⟨method, typeArguments⟩
    return .one (host.callValue method)
  | .baseTypeOf operand => do
    let values ← evaluate m host location state operand
    return host.baseValues values
  | .element array => do
    let _ ← evaluate m host location state array
    return .one .unknown
  | .nameOf text _ => .done (.one (.constant text))
  | .unmodelled _ operands => do
    evaluateAll m host location state operands
    return .one .unknown

def evaluateReceiver (m : MethodBody) (host : Host) (location : Location) (state : State)
    (method : MethodName) : Option Operand → Check Unit
  | none => .done ()
  | some receiver => do
    let values ← evaluate m host location state receiver
    host.enforce (host.thisRequirement method) location values

def evaluateArguments (m : MethodBody) (host : Host) (location : Location) (state : State)
    (method : MethodName) (index : UInt32) : List Operand → Check Unit
  | [] => .done ()
  | argument :: arguments => do
    let values ← evaluate m host location state argument
    host.enforce (host.parameterRequirement method index) location values
    evaluateArguments m host location state method (index + 1) arguments

def evaluateAll (m : MethodBody) (host : Host) (location : Location) (state : State) :
    List Operand → Check Unit
  | [] => .done ()
  | operand :: operands => do
    let _ ← evaluate m host location state operand
    evaluateAll m host location state operands

end

def step (m : MethodBody) (host : Host) (statement : Statement) (state : State) : Check State :=
  let location := statement.location
  match statement.operation with
  | .assign slot value => do
    m.checkSlot slot
    let values ← m.evaluate host location state value
    return state.set slot values
  | .store field value => do
    let values ← m.evaluate host location state value
    host.enforce (host.fieldRequirement field) location values
    return state
  | .ret (some value) => do
    let values ← m.evaluate host location state value
    host.enforce (host.returnRequirement m.method) location values
    return state
  | .instantiate instantiation => do
    host.checkInstantiation location instantiation
    return state
  | .evaluate operand | .throw (some operand) | .yield (some operand) => do
    let _ ← m.evaluate host location state operand
    return state
  | .ret none | .throw none | .yield none | .defineLambda | .defineLocalFunction | .nop =>
    .done state

/-- The states after each of some statements that run one after the other. -/
def steps (m : MethodBody) (host : Host) : List Statement → State → Check (List State)
  | [], _ => .done []
  | statement :: statements, state => do
    let next ← m.step host statement state
    let rest ← m.steps host statements next
    return next :: rest

def annotatedParameters (m : MethodBody) (host : Host) : List (Slot × ValueSet Value) :=
  (List.range m.parameterCount.toNat).map fun i =>
    let index := UInt32.ofNat i
    (.parameter index, .one (host.parameterValue m.method index))

theorem nodup_annotatedParameters (m : MethodBody) (host : Host) :
    ((m.annotatedParameters host).map Prod.fst).Nodup := by
  rw [annotatedParameters, List.map_map, List.Nodup, List.pairwise_map]
  refine List.nodup_range.imp_of_mem fun {i j} hi hj hij he => hij ?_
  rw [List.mem_range] at hi hj
  have hc := m.parameterCount.toNat_lt
  have hn := congrArg UInt32.toNat (Slot.parameter.inj he)
  rwa [UInt32.toNat_ofNat_of_lt' (Nat.lt_trans hi hc),
    UInt32.toNat_ofNat_of_lt' (Nat.lt_trans hj hc)] at hn

/-- The state in which a body starts: its parameters and `this` carry their annotations. -/
def initialState (m : MethodBody) (host : Host) : State :=
  let parameters : State := ⟨⟨m.annotatedParameters host, m.nodup_annotatedParameters host⟩⟩
  if m.hasThis then parameters.set .this (.one (host.thisValue m.method)) else parameters

def isGenerated (m : MethodBody) : Bool :=
  m.graph.statements.any (·.operation.isGenerated)

end MethodBody

/-- What is known while blocks are visited. -/
structure Pass where
  entryStates : OrderedMap BlockId State := ∅
  exitStates : OrderedMap BlockId State := ∅
  /-- For each handler, the join of the points from which it may have been reached. -/
  thrownStates : OrderedMap BlockId State := ∅

namespace Pass

def throwTo (state : State) (thrown : OrderedMap BlockId State) (handler : BlockId) :
    OrderedMap BlockId State :=
  match thrown.get? handler with
  | some old => thrown.insert handler (old.join state)
  | none => thrown.insert handler state

def throwToAll (handlers : List BlockId) (thrown : OrderedMap BlockId State) (state : State) :
    OrderedMap BlockId State :=
  handlers.foldl (throwTo state) thrown

/-- The state in which a block starts, as far as the blocks visited before tell. -/
def entryState (p : Pass) (m : MethodBody) (host : Host) (b : BasicBlock) : State :=
  let start := if b.id = m.graph.entry then m.initialState host else ∅
  let merged := (b.predecessors.filterMap p.exitStates.get?).foldl SlotState.join start
  match p.thrownStates.get? b.id with
  | some thrown => merged.join thrown
  | none => merged

def visit (p : Pass) (m : MethodBody) (host : Host) (b : BasicBlock) : Check Pass := do
  let start := p.entryState m host b
  let after ← m.steps host b.statements start
  return {
    entryStates := p.entryStates.insert b.id start
    exitStates := p.exitStates.insert b.id (after.getLast?.getD start)
    thrownStates := (start :: after).foldl (throwToAll (m.graph.handlers b.id)) p.thrownStates }

def visitAll (m : MethodBody) (host : Host) : List BlockId → Pass → Check Pass
  | [], p => .done p
  | id :: ids, p => do
    let b ← Check.ofExcept (m.graph.block id)
    let next ← p.visit m host b
    visitAll m host ids next

end Pass

/-- The states at the ends of the blocks of a well-formed body, each block visited once. -/
def MethodBody.pass (m : MethodBody) (host : Host) : Check Pass := do
  Check.ofExcept m.graph.validate
  Pass.visitAll m host m.graph.reversePostorder {}

end CapabilityFlow
