import CapabilityFlow.Evaluation

namespace CapabilityFlow

namespace Check

variable {α β : Type}

theorem outcome_andThen_eq_ok {c : Check α} {next : α → Check β} {b : β} :
    (c.andThen next).outcome = .ok b ↔ ∃ a, c.outcome = .ok a ∧ (next a).outcome = .ok b := by
  obtain ⟨events, outcome⟩ := c
  cases outcome <;> simp [andThen]

theorem andThen_of_ok {c : Check α} {a : α} (h : c.outcome = .ok a) (next : α → Check β) :
    c.andThen next = ⟨c.events ++ (next a).events, (next a).outcome⟩ := by
  simp only [andThen, h]

theorem mem_events_andThen {c : Check α} {next : α → Check β} {e : Event} :
    e ∈ (c.andThen next).events ↔
      e ∈ c.events ∨ ∃ a, c.outcome = .ok a ∧ e ∈ (next a).events := by
  obtain ⟨events, outcome⟩ := c
  cases outcome <;> simp [andThen]

theorem mem_events_andThen_done {c : Check α} {f : α → β} {e : Event} :
    e ∈ (c.andThen fun a => done (f a)).events ↔ e ∈ c.events := by
  rw [mem_events_andThen]
  refine or_iff_left ?_
  rintro ⟨a, -, he⟩
  cases he

def all : List (Check Unit) → Check Unit
  | [] => done ()
  | c :: cs => c.andThen fun _ => all cs

@[simp] theorem all_nil : all [] = done () := rfl

theorem all_cons (c : Check Unit) (cs : List (Check Unit)) :
    all (c :: cs) = c.andThen fun _ => all cs := rfl

theorem all_singleton (c : Check Unit) : all [c] = c := andThen_done c

theorem all_append (cs ds : List (Check Unit)) :
    all (cs ++ ds) = (all cs).andThen fun _ => all ds := by
  induction cs with
  | nil => rfl
  | cons c cs ih => rw [List.cons_append, all_cons, all_cons, ih, andThen_assoc]

theorem outcome_all {cs : List (Check Unit)} :
    (all cs).outcome = .ok () ↔ ∀ c ∈ cs, c.outcome = .ok () := by
  induction cs with
  | nil => simp [done]
  | cons c cs ih =>
    rw [all_cons, outcome_andThen_eq_ok, List.forall_mem_cons, ih]
    constructor
    · intro hx
      obtain ⟨_, h, hs⟩ := hx
      exact ⟨h, hs⟩
    · intro hx
      obtain ⟨h, hs⟩ := hx
      exact ⟨(), h, hs⟩

theorem events_all {cs : List (Check Unit)} (h : ∀ c ∈ cs, c.outcome = .ok ()) :
    (all cs).events = cs.flatMap (·.events) := by
  induction cs with
  | nil => rfl
  | cons c cs ih =>
    rw [List.forall_mem_cons] at h
    rw [all_cons, andThen_of_ok h.1, List.flatMap_cons, ih h.2]

end Check

/-- A place that a value can flow into. -/
inductive Place where
  | receiver (method : MethodName)
  | argument (method : MethodName) (index : UInt32)
  | field (name : FieldName)
  | result (method : MethodName)

def Host.requirement (host : Host) : Place → Requirement
  | .receiver method => host.thisRequirement method
  | .argument method index => host.parameterRequirement method index
  | .field name => host.fieldRequirement name
  | .result method => host.returnRequirement method

/-- One thing that is checked when code is evaluated. -/
inductive Demand where
  | access (slot : Slot)
  | flow (place : Place) (source : Operand)
  | instantiate (instantiation : Instantiation)

mutual

/-- What evaluating an operand demands, in the order of the checks. -/
def Operand.demands : Operand → List Demand
  | .typeOf _ | .genericParameter _ | .literal _ | .null | .load _ | .nameOf .. => []
  | .read slot => [.access slot]
  | .invoke method receiver arguments typeArguments =>
    receiverDemands method receiver ++ (argumentDemands method 0 arguments
      ++ if typeArguments.isEmpty then [] else [.instantiate ⟨method, typeArguments⟩])
  | .baseTypeOf operand => operand.demands
  | .element array => array.demands
  | .unmodelled _ operands => operandDemands operands

def receiverDemands (method : MethodName) : Option Operand → List Demand
  | none => []
  | some receiver => receiver.demands ++ [.flow (.receiver method) receiver]

def argumentDemands (method : MethodName) (index : UInt32) : List Operand → List Demand
  | [] => []
  | argument :: arguments =>
    argument.demands ++ .flow (.argument method index) argument ::
      argumentDemands method (index + 1) arguments

def operandDemands : List Operand → List Demand
  | [] => []
  | operand :: operands => operand.demands ++ operandDemands operands

end

/-- The values that an operand may have in a state, whatever its evaluation demands. -/
def Operand.values (host : Host) (state : State) : Operand → ValueSet Value
  | .typeOf name => .one (.type name)
  | .genericParameter parameter => .one (host.genericValue parameter)
  | .literal text => .one (.constant text)
  | .null => .one .null
  | .read slot => state.get slot
  | .load field => .one (host.fieldValue field)
  | .invoke method _ _ _ => .one (host.callValue method)
  | .baseTypeOf operand => host.baseValues (operand.values host state)
  | .element _ => .one .unknown
  | .nameOf text _ => .one (.constant text)
  | .unmodelled _ _ => .one .unknown

def Operation.demands (method : MethodName) : Operation → List Demand
  | .assign slot value => .access slot :: value.demands
  | .store field value => value.demands ++ [.flow (.field field) value]
  | .ret (some value) => value.demands ++ [.flow (.result method) value]
  | .instantiate instantiation => [.instantiate instantiation]
  | .evaluate operand | .throw (some operand) | .yield (some operand) => operand.demands
  | .ret none | .throw none | .yield none | .defineLambda | .defineLocalFunction | .nop => []

/-- What a statement does to the state, whatever it demands. -/
def Statement.effect (host : Host) (statement : Statement) (state : State) : State :=
  match statement.operation with
  | .assign slot value => state.set slot (value.values host state)
  | _ => state

def Demand.check (m : MethodBody) (host : Host) (location : Location) (state : State) :
    Demand → Check Unit
  | .access slot => m.checkSlot slot
  | .flow place source => host.enforce (host.requirement place) location (source.values host state)
  | .instantiate instantiation => host.checkInstantiation location instantiation

namespace MethodBody

variable (m : MethodBody) (host : Host) (location : Location) (state : State)

def checkDemands (demands : List Demand) : Check Unit :=
  .all (demands.map (Demand.check m host location state))

theorem checkDemands_cons (d : Demand) (ds : List Demand) :
    m.checkDemands host location state (d :: ds) =
      (d.check m host location state).andThen fun _ => m.checkDemands host location state ds := rfl

theorem checkDemands_singleton (d : Demand) :
    m.checkDemands host location state [d] = d.check m host location state :=
  Check.all_singleton _

theorem checkDemands_append (ds es : List Demand) :
    m.checkDemands host location state (ds ++ es) =
      (m.checkDemands host location state ds).andThen fun _ =>
        m.checkDemands host location state es := by
  rw [checkDemands, List.map_append, Check.all_append]
  rfl

mutual

/-- Evaluating an operand checks its demands and gives its values. -/
theorem evaluate_eq : ∀ o : Operand, m.evaluate host location state o =
    (m.checkDemands host location state o.demands).andThen fun _ => .done (o.values host state)
  | .typeOf _ | .genericParameter _ | .literal _ | .null | .load _ | .nameOf _ _ => rfl
  | .read slot => by
    simp only [evaluate, Operand.demands, checkDemands_singleton, Check.bind_eq, Check.pure_eq]
    rfl
  | .invoke method receiver arguments typeArguments => by
    simp only [evaluate, Operand.demands, checkDemands_append, evaluateReceiver_eq,
      evaluateArguments_eq, Check.bind_eq, Check.andThen_assoc, Check.pure_eq]
    cases typeArguments with
    | nil => rfl
    | cons argument rest =>
      simp only [List.isEmpty_cons, Bool.false_eq_true, if_false, checkDemands_singleton]
      rfl
  | .baseTypeOf operand => by
    simp only [evaluate, Operand.demands, evaluate_eq operand, Check.bind_eq, Check.andThen_assoc,
      Check.done_andThen]
    rfl
  | .element array => by
    simp only [evaluate, Operand.demands, evaluate_eq array, Check.bind_eq, Check.andThen_assoc,
      Check.done_andThen]
    rfl
  | .unmodelled _ operands => by
    simp only [evaluate, Operand.demands, evaluateAll_eq operands, Check.bind_eq]
    rfl

theorem evaluateReceiver_eq (method : MethodName) : ∀ o : Option Operand,
    m.evaluateReceiver host location state method o =
      m.checkDemands host location state (receiverDemands method o)
  | none => rfl
  | some receiver => by
    simp only [evaluateReceiver, receiverDemands, evaluate_eq receiver, checkDemands_append,
      checkDemands_singleton, Check.bind_eq, Check.andThen_assoc, Check.done_andThen]
    rfl

theorem evaluateArguments_eq (method : MethodName) (index : UInt32) : ∀ os : List Operand,
    m.evaluateArguments host location state method index os =
      m.checkDemands host location state (argumentDemands method index os)
  | [] => rfl
  | argument :: arguments => by
    simp only [evaluateArguments, argumentDemands, evaluate_eq argument, checkDemands_append,
      checkDemands_cons, evaluateArguments_eq method (index + 1) arguments, Check.bind_eq,
      Check.andThen_assoc, Check.done_andThen]
    rfl

theorem evaluateAll_eq : ∀ os : List Operand, m.evaluateAll host location state os =
    m.checkDemands host location state (operandDemands os)
  | [] => rfl
  | operand :: operands => by
    simp only [evaluateAll, operandDemands, evaluate_eq operand, checkDemands_append,
      evaluateAll_eq operands, Check.bind_eq, Check.andThen_assoc, Check.done_andThen]

end

/-- Running a statement checks its demands and has its effect. -/
theorem step_eq (statement : Statement) : m.step host statement state =
    (m.checkDemands host statement.location state
      (statement.operation.demands m.method)).andThen fun _ =>
        .done (statement.effect host state) := by
  obtain ⟨operation, location⟩ := statement
  cases operation with
  | assign slot value =>
    simp only [step, Operation.demands, checkDemands_cons, evaluate_eq, Check.bind_eq,
      Check.andThen_assoc, Check.done_andThen]
    rfl
  | store field value =>
    simp only [step, Operation.demands, checkDemands_append, checkDemands_singleton, evaluate_eq,
      Check.bind_eq, Check.andThen_assoc, Check.done_andThen]
    rfl
  | ret value =>
    cases value with
    | none => rfl
    | some value =>
      simp only [step, Operation.demands, checkDemands_append, checkDemands_singleton, evaluate_eq,
        Check.bind_eq, Check.andThen_assoc, Check.done_andThen]
      rfl
  | instantiate instantiation =>
    simp only [step, Operation.demands, checkDemands_singleton, Check.bind_eq]
    rfl
  | evaluate operand =>
    simp only [step, Operation.demands, evaluate_eq, Check.bind_eq, Check.andThen_assoc,
      Check.done_andThen]
    rfl
  | throw exception =>
    cases exception with
    | none => rfl
    | some operand =>
      simp only [step, Operation.demands, evaluate_eq, Check.bind_eq, Check.andThen_assoc,
        Check.done_andThen]
      rfl
  | yield value =>
    cases value with
    | none => rfl
    | some operand =>
      simp only [step, Operation.demands, evaluate_eq, Check.bind_eq, Check.andThen_assoc,
        Check.done_andThen]
      rfl
  | defineLambda | defineLocalFunction | nop => rfl

end MethodBody

def Place.IsWithin (method : MethodName) : Place → Prop
  | .result name => name = method
  | .receiver _ | .argument _ _ | .field _ => True

def Demand.IsWithin (method : MethodName) : Demand → Prop
  | .flow place _ => place.IsWithin method
  | .access _ | .instantiate _ => True

mutual

theorem isWithin_demands {method : MethodName} : ∀ o : Operand, ∀ d ∈ o.demands, d.IsWithin method
  | .typeOf _ | .genericParameter _ | .literal _ | .null | .load _ | .nameOf _ _ =>
    fun _ hd => absurd hd List.not_mem_nil
  | .read slot => List.forall_mem_singleton.2 trivial
  | .invoke callee receiver arguments typeArguments => by
    rw [Operand.demands, List.forall_mem_append, List.forall_mem_append]
    refine ⟨isWithin_receiverDemands callee receiver, ?_⟩
    refine ⟨isWithin_argumentDemands callee 0 arguments, ?_⟩
    split
    · exact fun _ hd => absurd hd List.not_mem_nil
    · exact List.forall_mem_singleton.2 trivial
  | .baseTypeOf operand => isWithin_demands operand
  | .element array => isWithin_demands array
  | .unmodelled _ operands => isWithin_operandDemands operands

theorem isWithin_receiverDemands {method : MethodName} (callee : MethodName) :
    ∀ r : Option Operand, ∀ d ∈ receiverDemands callee r, d.IsWithin method
  | none => fun _ hd => absurd hd List.not_mem_nil
  | some receiver => by
    rw [receiverDemands, List.forall_mem_append]
    exact ⟨isWithin_demands receiver, List.forall_mem_singleton.2 trivial⟩

theorem isWithin_argumentDemands {method : MethodName} (callee : MethodName) (index : UInt32) :
    ∀ os : List Operand, ∀ d ∈ argumentDemands callee index os, d.IsWithin method
  | [] => fun _ hd => absurd hd List.not_mem_nil
  | argument :: arguments => by
    rw [argumentDemands, List.forall_mem_append, List.forall_mem_cons]
    exact ⟨isWithin_demands argument, trivial,
      isWithin_argumentDemands callee (index + 1) arguments⟩

theorem isWithin_operandDemands {method : MethodName} :
    ∀ os : List Operand, ∀ d ∈ operandDemands os, d.IsWithin method
  | [] => fun _ hd => absurd hd List.not_mem_nil
  | operand :: operands => by
    rw [operandDemands, List.forall_mem_append]
    exact ⟨isWithin_demands operand, isWithin_operandDemands operands⟩

end

theorem isWithin_operation {method : MethodName} (operation : Operation) :
    ∀ d ∈ operation.demands method, d.IsWithin method := by
  cases operation with
  | assign slot value =>
    rw [Operation.demands, List.forall_mem_cons]
    exact ⟨trivial, isWithin_demands value⟩
  | store field value =>
    rw [Operation.demands, List.forall_mem_append]
    exact ⟨isWithin_demands value, List.forall_mem_singleton.2 trivial⟩
  | ret value =>
    cases value with
    | none => exact fun _ hd => absurd hd List.not_mem_nil
    | some value =>
      rw [Operation.demands, List.forall_mem_append]
      exact ⟨isWithin_demands value, List.forall_mem_singleton.2 rfl⟩
  | instantiate i => exact List.forall_mem_singleton.2 trivial
  | evaluate operand => exact isWithin_demands operand
  | throw exception =>
    cases exception with
    | none => exact fun _ hd => absurd hd List.not_mem_nil
    | some operand => exact isWithin_demands operand
  | yield value =>
    cases value with
    | none => exact fun _ hd => absurd hd List.not_mem_nil
    | some operand => exact isWithin_demands operand
  | defineLambda | defineLocalFunction | nop => exact fun _ hd => absurd hd List.not_mem_nil

end CapabilityFlow
