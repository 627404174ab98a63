import CapabilityFlow.Proofs.ExactPass
import CapabilityFlow.Proofs.Lockstep

namespace CapabilityFlow

mutual

/-- The part of an operand that is evaluated: without the expressions of which only the name is
taken, and without descriptions. -/
def Operand.evaluatedPart : Operand → Operand
  | .typeOf name => .typeOf name
  | .genericParameter parameter => .genericParameter parameter
  | .literal text => .literal text
  | .null => .null
  | .read slot => .read slot
  | .load field => .load field
  | .invoke method receiver arguments typeArguments =>
    .invoke method (evaluatedReceiver receiver) (evaluatedParts arguments) typeArguments
  | .baseTypeOf operand => .baseTypeOf operand.evaluatedPart
  | .element array => .element array.evaluatedPart
  | .nameOf text _ => .nameOf text .null
  | .unmodelled _ operands => .unmodelled "" (evaluatedParts operands)

def evaluatedReceiver : Option Operand → Option Operand
  | none => none
  | some receiver => some receiver.evaluatedPart

def evaluatedParts : List Operand → List Operand
  | [] => []
  | operand :: operands => operand.evaluatedPart :: evaluatedParts operands

end

def Operation.evaluatedPart : Operation → Operation
  | .assign slot value => .assign slot value.evaluatedPart
  | .evaluate operand => .evaluate operand.evaluatedPart
  | .store field value => .store field value.evaluatedPart
  | .ret value => .ret (evaluatedReceiver value)
  | .instantiate instantiation => .instantiate instantiation
  | .throw exception => .throw (evaluatedReceiver exception)
  | .defineLambda => .defineLambda
  | .defineLocalFunction => .defineLocalFunction
  | .yield value => .yield (evaluatedReceiver value)
  | .nop => .nop

def Statement.evaluatedPart (statement : Statement) : Statement :=
  { statement with operation := statement.operation.evaluatedPart }

namespace MethodBody

variable (m : MethodBody) (host : Host) (location : Location) (state : State)

mutual

theorem evaluate_evaluatedPart : ∀ o : Operand,
    m.evaluate host location state o.evaluatedPart = m.evaluate host location state o
  | .typeOf _ | .genericParameter _ | .literal _ | .null | .read _ | .load _ | .nameOf _ _ => rfl
  | .invoke method receiver arguments typeArguments => by
    simp only [Operand.evaluatedPart, evaluate, evaluateReceiver_evaluatedPart method receiver,
      evaluateArguments_evaluatedParts method 0 arguments]
  | .baseTypeOf operand => by
    simp only [Operand.evaluatedPart, evaluate, evaluate_evaluatedPart operand]
  | .element array => by
    simp only [Operand.evaluatedPart, evaluate, evaluate_evaluatedPart array]
  | .unmodelled _ operands => by
    simp only [Operand.evaluatedPart, evaluate, evaluateAll_evaluatedParts operands]

theorem evaluateReceiver_evaluatedPart (method : MethodName) : ∀ receiver : Option Operand,
    m.evaluateReceiver host location state method (evaluatedReceiver receiver) =
      m.evaluateReceiver host location state method receiver
  | none => rfl
  | some receiver => by
    simp only [evaluatedReceiver, evaluateReceiver, evaluate_evaluatedPart receiver]

theorem evaluateArguments_evaluatedParts (method : MethodName) (index : UInt32) :
    ∀ os : List Operand, m.evaluateArguments host location state method index (evaluatedParts os) =
      m.evaluateArguments host location state method index os
  | [] => rfl
  | argument :: arguments => by
    simp only [evaluatedParts, evaluateArguments, evaluate_evaluatedPart argument,
      evaluateArguments_evaluatedParts method (index + 1) arguments]

theorem evaluateAll_evaluatedParts : ∀ os : List Operand,
    m.evaluateAll host location state (evaluatedParts os) = m.evaluateAll host location state os
  | [] => rfl
  | operand :: operands => by
    simp only [evaluatedParts, evaluateAll, evaluate_evaluatedPart operand,
      evaluateAll_evaluatedParts operands]

end

theorem step_evaluatedPart (statement : Statement) :
    m.step host statement.evaluatedPart state = m.step host statement state := by
  obtain ⟨operation, location⟩ := statement
  have he (o : Operand) : m.evaluate host location state o.evaluatedPart =
      m.evaluate host location state o := m.evaluate_evaluatedPart host location state o
  cases operation with
  | ret value => cases value <;> simp only [Statement.evaluatedPart, Operation.evaluatedPart,
      evaluatedReceiver, step, he]
  | throw exception => cases exception <;> simp only [Statement.evaluatedPart,
      Operation.evaluatedPart, evaluatedReceiver, step, he]
  | yield value => cases value <;> simp only [Statement.evaluatedPart, Operation.evaluatedPart,
      evaluatedReceiver, step, he]
  | _ => simp only [Statement.evaluatedPart, Operation.evaluatedPart, step, he]

theorem steps_evaluatedPart (code : List Statement) :
    m.steps host (code.map Statement.evaluatedPart) state = m.steps host code state := by
  induction code generalizing state with
  | nil => rfl
  | cons statement code ih => simp only [List.map_cons, steps, step_evaluatedPart, ih]

end MethodBody

def BasicBlock.shape (b : BasicBlock) : BasicBlock := { b with statements := [] }

def FlowGraph.shape (g : FlowGraph) : FlowGraph := g.mapBlocks BasicBlock.shape

namespace FlowGraph

variable {g g' : FlowGraph}

theorem block?_shape (id : BlockId) : g.shape.block? id = (g.block? id).map BasicBlock.shape :=
  block?_mapBlocks (f := BasicBlock.shape) (fun _ => rfl) id

theorem block_shape (id : BlockId) : g.shape.block id = (g.block id).map BasicBlock.shape := by
  rw [block, block, block?_shape]
  cases g.block? id <;> rfl

theorem bind_block_shape {α : Type} (id : BlockId) {next : BasicBlock → Except Violation α}
    (h : ∀ b : BasicBlock, next b.shape = next b) :
    (g.shape.block id >>= next) = g.block id >>= next := by
  rw [block_shape]
  cases g.block id with
  | error v => rfl
  | ok b => exact h b

theorem validateBlock_shape (b : BasicBlock) :
    g.shape.validateBlock b.shape = g.validateBlock b := by
  unfold validateBlock
  refine (bind_block_shape b.id fun _ => rfl).trans ?_
  refine congrArg (g.block b.id >>= ·) (funext fun _ => ?_)
  refine congr (congrArg _ (congrArg b.successors.forM (funext fun s => ?_)))
    (funext fun _ => congrArg b.predecessors.forM (funext fun p => ?_))
  · exact bind_block_shape s fun _ => rfl
  · exact bind_block_shape p fun _ => rfl

theorem validateRegion_shape (r : Region) : g.shape.validateRegion r = g.validateRegion r := by
  have hp : (fun b => discard (g.shape.block b)) = fun b => discard (g.block b) := by
    funext b
    rw [block_shape]
    cases g.block b <;> rfl
  rw [validateRegion, validateRegion, hp]
  exact bind_block_shape r.handler fun _ => rfl

theorem validate_shape (g : FlowGraph) : g.shape.validate = g.validate := by
  have hb : g.shape.blocks.forM g.shape.validateBlock = g.blocks.forM g.validateBlock := by
    change (g.blocks.map BasicBlock.shape).forM g.shape.validateBlock = _
    simp only [List.forM_eq_forM, List.forM_map, validateBlock_shape]
  have hr : g.shape.regions.forM g.shape.validateRegion = g.regions.forM g.validateRegion :=
    congrArg g.regions.forM (funext validateRegion_shape)
  rw [validate, validate, hb, hr]
  exact bind_block_shape g.entry fun _ => rfl

/-- Two graphs of the same shape whose blocks, if the entry leads to them, differ at most in what is
never evaluated. -/
structure SameEvaluated (g g' : FlowGraph) : Prop where
  shape_eq : g'.shape = g.shape
  statements_eq id block block' : g.Reaches g.entry id → g.block? id = some block →
    g'.block? id = some block' →
    block'.statements.map Statement.evaluatedPart = block.statements.map Statement.evaluatedPart

end FlowGraph

namespace MethodBody

variable {m : MethodBody} {host : Host} {g : FlowGraph} {options : Options}

theorem lockstep_of_sameEvaluated (h : m.graph.SameEvaluated g) : m.Lockstep host g where
  entry_eq := by
    change g.shape.entry = m.graph.shape.entry
    rw [h.shape_eq]
  handlers_eq id := by
    change g.shape.handlers id = m.graph.shape.handlers id
    rw [h.shape_eq]
  absent id hb := by
    have hs := congrArg (·.block? id) h.shape_eq
    simpa only [FlowGraph.block?_shape, hb, Option.map_none, Option.map_eq_none_iff] using hs
  present id block hb := by
    have hs := congrArg (·.block? id) h.shape_eq
    simp only [FlowGraph.block?_shape, hb, Option.map_some] at hs
    obtain ⟨block', hb', he⟩ := Option.map_eq_some_iff.1 hs
    obtain ⟨-, -, hp, hs⟩ := BasicBlock.mk.inj he
    refine ⟨block', hb', hs ▸ .refl _, hp ▸ .refl _, fun hr state => ?_⟩
    have hc := h.statements_eq id block block' (FlowGraph.mem_reversePostorder_iff.1 hr) hb hb'
    rw [← steps_evaluatedPart, hc, steps_evaluatedPart]

/-- Code that is never evaluated has no part in an analysis, but for what it says about exemption:
the result and the marks stay the same whatever it is changed to. -/
theorem analyze_of_sameEvaluated (h : m.graph.SameEvaluated g)
    (hx : (m.withGraph g).exemption? host options = m.exemption? host options) :
    (m.withGraph g).analyze host options = m.analyze host options := by
  have hv : g.validate = m.graph.validate := by
    rw [← g.validate_shape, h.shape_eq, m.graph.validate_shape]
  have hl : m.Lockstep host g := lockstep_of_sameEvaluated h
  rw [analyze, analyze, hx, hl.pass_eq hv]

def logging (name : Operand) (description : String) (unreached : List Statement) : MethodBody where
  method := "Log()"
  graph :=
    { blocks :=
        [{ id := ⟨0⟩, successors := [⟨2⟩]
           statements := [⟨.assign (.localVar 0) (.invoke "Source()" none [] []), {}⟩] },
          { id := ⟨1⟩, statements := [⟨.evaluate (.invoke "Sink(Type)" none
              [.unmodelled description [.read (.localVar 0), .nameOf "name" name]] []), {}⟩] },
          { id := ⟨2⟩, predecessors := [⟨3⟩, ⟨0⟩] },
          { id := ⟨3⟩, successors := [⟨2⟩], statements := unreached }]
      regions := [⟨.caught, [⟨0⟩], ⟨1⟩⟩] }

theorem analyze_logging :
    (logging .null "conditional" []).graph.SameEvaluated
      (logging (.read .this) "" [⟨.assign .this (.read (.parameter 7)), {}⟩]).graph ∧
    (logging (.read .this) "" [⟨.assign .this (.read (.parameter 7)), {}⟩]).exemption?
        sinkTable.host {} =
      (logging .null "conditional" []).exemption? sinkTable.host {} ∧
    (logging (.read .this) "" [⟨.assign .this (.read (.parameter 7)), {}⟩]).analyze
        sinkTable.host {} =
      (logging .null "conditional" []).analyze sinkTable.host {} ∧
    ((logging .null "conditional" []).analyze sinkTable.host {}).result =
      .ok [⟨.unverifiable .parameter, ["type", "Sink(Type)"], {}⟩] := by
  have ho : (logging .null "conditional" []).graph.reversePostorder = [⟨0⟩, ⟨1⟩, ⟨2⟩] := by
    decide +kernel
  have hs : (logging .null "conditional" []).graph.SameEvaluated
      (logging (.read .this) "" [⟨.assign .this (.read (.parameter 7)), {}⟩]).graph := by
    refine ⟨rfl, fun id block block' hr hb hb' => ?_⟩
    rw [← FlowGraph.mem_reversePostorder_iff, ho] at hr
    simp only [List.mem_cons, List.not_mem_nil, or_false] at hr
    rcases hr with rfl | rfl | rfl <;> cases hb <;> cases hb' <;> rfl
  have hx : (logging (.read .this) "" [⟨.assign .this (.read (.parameter 7)), {}⟩]).exemption?
      sinkTable.host {} = (logging .null "conditional" []).exemption? sinkTable.host {} := by
    decide +kernel
  exact ⟨hs, hx, analyze_of_sameEvaluated hs hx, by decide +kernel⟩

end MethodBody

end CapabilityFlow
