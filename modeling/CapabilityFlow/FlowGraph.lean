import CapabilityFlow.Diagnostic
import CapabilityFlow.SlotState

namespace CapabilityFlow

inductive TypeArgument where
  | named (name : TypeName)
  | array (element : TypeArgument)
  | parameter (parameter : GenericParameter)
  | constructed (definition : String) (arguments : List TypeArgument)
  /-- The place of an argument that is not given, as in the name of an open generic type. -/
  | missing

structure Instantiation where
  definition : String
  arguments : List TypeArgument

inductive Operand where
  | typeOf (name : TypeName)
  | genericParameter (parameter : GenericParameter)
  | literal (text : String)
  | null
  | read (slot : Slot)
  | load (field : FieldName)
  | invoke (method : MethodName) (receiver : Option Operand) (arguments : List Operand)
      (typeArguments : List TypeArgument)
  | baseTypeOf (operand : Operand)
  | element (array : Operand)
  /-- The name of an expression; the expression itself is never evaluated. -/
  | nameOf (text : String) (operand : Operand)
  /-- An operation that the analysis has no model of; its operands are evaluated. -/
  | unmodelled (description : String) (operands : List Operand)

inductive Operation where
  | assign (slot : Slot) (value : Operand)
  | evaluate (operand : Operand)
  | store (field : FieldName) (value : Operand)
  | ret (value : Option Operand)
  | instantiate (instantiation : Instantiation)
  | throw (exception : Option Operand)
  | defineLambda
  | defineLocalFunction
  | yield (value : Option Operand)
  | nop

def Operation.isGenerated : Operation → Bool
  | .defineLambda | .defineLocalFunction | .yield _ => true
  | _ => false

structure Statement where
  operation : Operation
  location : Location := {}

/-- Statements that run one after the other; an edge is listed by both of its blocks. -/
structure BasicBlock where
  id : BlockId
  statements : List Statement := []
  predecessors : List BlockId := []
  successors : List BlockId := []

inductive RegionKind where
  | caught
  | ensured
  deriving DecidableEq

/-- Blocks any point of which may throw, and the block that control then goes to. -/
structure Region where
  kind : RegionKind
  protectedBlocks : List BlockId
  handler : BlockId
  deriving DecidableEq

structure FlowGraph where
  blocks : List BasicBlock
  regions : List Region := []
  entry : BlockId := ⟨0⟩

namespace FlowGraph

/-- The block that a number stands for: the one at that position, if it bears the number. -/
def block? (g : FlowGraph) (id : BlockId) : Option BasicBlock :=
  g.blocks[id.index.toNat]?.filter (·.id = id)

theorem id_of_block? {g : FlowGraph} {id : BlockId} {b : BasicBlock} (h : g.block? id = some b) :
    b.id = id := by
  simpa using (Option.filter_eq_some_iff.1 h).2

theorem mem_of_block? {g : FlowGraph} {id : BlockId} {b : BasicBlock} (h : g.block? id = some b) :
    b ∈ g.blocks :=
  List.mem_of_getElem? (Option.filter_eq_some_iff.1 h).1

def block (g : FlowGraph) (id : BlockId) : Except Violation BasicBlock :=
  match g.block? id with
  | some b => .ok b
  | none => .error (.unknownBlock id)

/-- The handlers of the regions that protect a block, in the order of the regions. -/
def handlers (g : FlowGraph) (id : BlockId) : List BlockId :=
  (g.regions.filter (id ∈ ·.protectedBlocks)).map (·.handler)

/-- Where control can go from a block: its successors, then its handlers. -/
def outgoing (g : FlowGraph) (id : BlockId) : List BlockId :=
  match g.block? id with
  | some b => b.successors ++ g.handlers id
  | none => []

def statements (g : FlowGraph) : List Statement := g.blocks.flatMap (·.statements)

def validateBlock (g : FlowGraph) (b : BasicBlock) : Except Violation Unit := do
  let _ ← g.block b.id
  b.successors.forM fun s => do
    let target ← g.block s
    if b.id ∈ target.predecessors then pure () else throw (.unmatchedEdge b.id s)
  b.predecessors.forM fun p => do
    let source ← g.block p
    if b.id ∈ source.successors then pure () else throw (.unmatchedEdge p b.id)

def validateRegion (g : FlowGraph) (r : Region) : Except Violation Unit := do
  let _ ← g.block r.handler
  if r.protectedBlocks.isEmpty then throw (.emptyProtectedRegion r.handler)
  r.protectedBlocks.forM fun b => discard (g.block b)

def validate (g : FlowGraph) : Except Violation Unit := do
  let _ ← g.block g.entry
  g.blocks.forM g.validateBlock
  g.regions.forM g.validateRegion

/-- A graph under construction, which has its entry block from the start. -/
structure Builder where
  graph : FlowGraph

namespace Builder

def start : Builder := ⟨{ blocks := [{ id := ⟨0⟩ }] }⟩

instance : Inhabited Builder := ⟨start⟩

def newBlock (builder : Builder) : BlockId × Builder :=
  let g := builder.graph
  let id : BlockId := ⟨UInt64.ofNat g.blocks.length⟩
  (id, ⟨{ g with blocks := g.blocks ++ [{ id }] }⟩)

/-- Changes the block at the position of a number, if there is one. -/
def change (builder : Builder) (id : BlockId) (f : BasicBlock → BasicBlock) : Builder :=
  let g := builder.graph
  ⟨{ g with blocks := g.blocks.modify id.index.toNat f }⟩

def enter (id : BlockId) (ids : List BlockId) : List BlockId :=
  if id ∈ ids then ids else ids ++ [id]

/-- Adds an edge once, at each of its ends that exists. -/
def addEdge (builder : Builder) (source target : BlockId) : Builder :=
  (builder.change source fun b => { b with successors := enter target b.successors }).change target
    fun b => { b with predecessors := enter source b.predecessors }

def push (builder : Builder) (id : BlockId) (statement : Statement) : Builder :=
  builder.change id fun b => { b with statements := b.statements ++ [statement] }

def addRegion (builder : Builder) (region : Region) : Builder :=
  let g := builder.graph
  ⟨{ g with regions := g.regions ++ [region] }⟩

/-- The finished graph, if it is well formed. -/
def build (builder : Builder) : Except Violation FlowGraph := do
  builder.graph.validate
  return builder.graph

end Builder

end FlowGraph

end CapabilityFlow
