import CapabilityFlow.Analysis
import CapabilityFlow.Proofs.Demands
import CapabilityFlow.Proofs.WellFormed

namespace CapabilityFlow

namespace Check

variable {α β : Type}

/-- No violation ends the check. -/
def Succeeds (c : Check α) : Prop := ∃ a, c.outcome = .ok a

theorem succeeds_iff {c : Check Unit} : c.Succeeds ↔ c.outcome = .ok () :=
  ⟨fun ⟨_, h⟩ => h, fun h => ⟨(), h⟩⟩

theorem succeeds_andThen {c : Check α} {next : α → Check β} :
    (c.andThen next).Succeeds ↔ ∃ a, c.outcome = .ok a ∧ (next a).Succeeds := by
  constructor
  · intro h
    obtain ⟨b, hb⟩ := h
    obtain ⟨a, ha, hn⟩ := outcome_andThen_eq_ok.1 hb
    exact ⟨a, ha, b, hn⟩
  · intro h
    obtain ⟨a, ha, b, hn⟩ := h
    exact ⟨b, outcome_andThen_eq_ok.2 ⟨a, ha, hn⟩⟩

theorem succeeds_andThen_done {c : Check α} {f : α → β} :
    (c.andThen fun a => done (f a)).Succeeds ↔ c.Succeeds := by
  rw [succeeds_andThen]
  exact ⟨fun ⟨a, ha, _⟩ => ⟨a, ha⟩, fun ⟨a, ha⟩ => ⟨a, ha, f a, rfl⟩⟩

theorem exists_error_iff {c : Check α} : (∃ v, c.outcome = .error v) ↔ ¬ c.Succeeds := by
  unfold Succeeds
  cases c.outcome <;> simp

end Check

/-- Some instantiation that directly constructed arguments lead to has the wrong number of
arguments, and every definition on the way, its own included, is known. -/
inductive Instantiation.ArityFault (host : Host) : Instantiation → Prop
  | here {i : Instantiation} {parameters : List GenericParameter} :
    host.genericParameters i.definition = some parameters →
    parameters.length ≠ i.arguments.length → ArityFault host i
  | nested {i : Instantiation} {parameters : List GenericParameter} {definition : String}
      {arguments : List TypeArgument} :
    host.genericParameters i.definition = some parameters →
    .constructed definition arguments ∈ i.arguments →
    ArityFault host ⟨definition, arguments⟩ → ArityFault host i

namespace Host

variable {host : Host} {location : Location}

theorem withParameters_succeeds {definition : String} {supplied : Nat}
    {next : List GenericParameter → Check Unit} :
    (host.withParameters definition supplied next).Succeeds ↔
      ∀ parameters, host.genericParameters definition = some parameters →
        parameters.length = supplied ∧ (next parameters).Succeeds := by
  unfold withParameters
  cases host.genericParameters definition with
  | none => simp [Check.Succeeds, Check.done]
  | some parameters =>
    by_cases h : parameters.length = supplied
    · simp [h]
    · simp [h, Check.Succeeds, Check.fail]

theorem enforceArgument_succeeds (parameter : GenericParameter) (argument : TypeArgument) :
    (host.enforceArgument location parameter argument).Succeeds := by
  unfold enforceArgument
  split <;> exact ⟨(), rfl⟩

def Fits (host : Host) : TypeArgument → Prop
  | .constructed definition arguments => ¬ Instantiation.ArityFault host ⟨definition, arguments⟩
  | _ => True

theorem not_arityFault_iff {i : Instantiation} : ¬ i.ArityFault host ↔
    ∀ parameters, host.genericParameters i.definition = some parameters →
      parameters.length = i.arguments.length ∧ ∀ a ∈ i.arguments, host.Fits a := by
  constructor
  · intro h parameters hp
    constructor
    · by_contra hne
      exact h (.here hp hne)
    · intro a ha
      cases a with
      | constructed definition arguments => exact fun hf => h (.nested hp ha hf)
      | _ => trivial
  · intro h hf
    cases hf with
    | here hp hne => exact hne (h _ hp).1
    | nested hp hm hf => exact (h _ hp).2 _ hm hf

theorem checkInstantiation_succeeds_of {i : Instantiation}
    (h : ∀ parameters, parameters.length = i.arguments.length →
      ((host.checkArguments location parameters i.arguments).Succeeds ↔
        ∀ a ∈ i.arguments, host.Fits a)) :
    (host.checkInstantiation location i).Succeeds ↔ ¬ i.ArityFault host := by
  rw [checkInstantiation, withParameters_succeeds, not_arityFault_iff]
  constructor
  · intro hs parameters hp
    obtain ⟨hl, ha⟩ := hs parameters hp
    exact ⟨hl, (h parameters hl).1 ha⟩
  · intro hs parameters hp
    obtain ⟨hl, ha⟩ := hs parameters hp
    exact ⟨hl, (h parameters hl).2 ha⟩

mutual

theorem checkArgument_succeeds (parameter : GenericParameter) : ∀ a : TypeArgument,
    (host.checkArgument location parameter a).Succeeds ↔ host.Fits a
  | .constructed definition arguments => by
    have hi := checkInstantiation_succeeds_of (i := ⟨definition, arguments⟩)
      (checkArguments_succeeds arguments)
    have he : (host.enforceArgument location parameter
        (.constructed definition arguments)).Succeeds := enforceArgument_succeeds parameter _
    rw [Fits, ← hi, checkArgument, Check.bind_eq, Check.succeeds_andThen]
    exact ⟨fun ⟨u, hu, _⟩ => ⟨u, hu⟩, fun ⟨u, hu⟩ => ⟨u, hu, he⟩⟩
  | .named name => by
    rw [checkArgument]
    exact iff_of_true (enforceArgument_succeeds parameter _) trivial
  | .array element => by
    rw [checkArgument]
    exact iff_of_true (enforceArgument_succeeds parameter _) trivial
  | .parameter supplied => by
    rw [checkArgument]
    exact iff_of_true (enforceArgument_succeeds parameter _) trivial
  | .missing => by
    rw [checkArgument]
    exact iff_of_true (enforceArgument_succeeds parameter _) trivial

theorem checkArguments_succeeds : ∀ (arguments : List TypeArgument)
    (parameters : List GenericParameter), parameters.length = arguments.length →
    ((host.checkArguments location parameters arguments).Succeeds ↔ ∀ a ∈ arguments, host.Fits a)
  | [], [], _ => by
    rw [checkArguments]
    · exact iff_of_true ⟨(), rfl⟩ (by simp)
    · simp
  | a :: arguments, parameter :: parameters, h => by
    rw [checkArguments, Check.bind_eq, Check.succeeds_andThen, List.forall_mem_cons,
      ← checkArgument_succeeds parameter a,
      ← checkArguments_succeeds arguments parameters (Nat.succ.inj h)]
    exact ⟨fun ⟨u, hu, hs⟩ => ⟨⟨u, hu⟩, hs⟩, fun ⟨⟨u, hu⟩, hs⟩ => ⟨u, hu, hs⟩⟩

end

theorem checkInstantiation_succeeds {i : Instantiation} :
    (host.checkInstantiation location i).Succeeds ↔ ¬ i.ArityFault host :=
  checkInstantiation_succeeds_of (checkArguments_succeeds i.arguments)

end Host

/-- A body has its own parameters, `this` only if it is declared, and every local variable. -/
def MethodBody.HasSlot (m : MethodBody) : Slot → Prop
  | .parameter index => index < m.parameterCount
  | .this => m.hasThis = true
  | .localVar _ => True

theorem MethodBody.checkSlot_succeeds {m : MethodBody} {slot : Slot} :
    (m.checkSlot slot).Succeeds ↔ m.HasSlot slot := by
  cases slot with
  | localVar index => exact iff_of_true ⟨(), rfl⟩ trivial
  | parameter index =>
    by_cases h : index < m.parameterCount <;>
      simp [checkSlot, HasSlot, Check.Succeeds, Check.done, Check.fail, h]
  | this =>
    cases h : m.hasThis <;>
      simp [checkSlot, HasSlot, Check.Succeeds, Check.done, Check.fail, h]

/-- Evaluating the first operand evaluates the second, which stands in it at any depth but not below
a name. -/
inductive Operand.Evaluates : Operand → Operand → Prop
  | self (o : Operand) : Evaluates o o
  | receiver {method : MethodName} {r o : Operand} {arguments : List Operand}
      {typeArguments : List TypeArgument} :
    r.Evaluates o → Evaluates (.invoke method (some r) arguments typeArguments) o
  | argument {method : MethodName} {receiver : Option Operand} {a o : Operand}
      {arguments : List Operand} {typeArguments : List TypeArgument} :
    a ∈ arguments → a.Evaluates o →
    Evaluates (.invoke method receiver arguments typeArguments) o
  | baseTypeOf {a o : Operand} : a.Evaluates o → Evaluates (.baseTypeOf a) o
  | element {a o : Operand} : a.Evaluates o → Evaluates (.element a) o
  | unmodelled {description : String} {a o : Operand} {operands : List Operand} :
    a ∈ operands → a.Evaluates o → Evaluates (.unmodelled description operands) o

def Operand.Breaks (m : MethodBody) (host : Host) : Operand → Prop
  | .read slot => ¬ m.HasSlot slot
  | .invoke method _ _ typeArguments =>
    typeArguments ≠ [] ∧ Instantiation.ArityFault host ⟨method, typeArguments⟩
  | _ => False

def Operand.Violates (m : MethodBody) (host : Host) (o : Operand) : Prop :=
  ∃ part, o.Evaluates part ∧ part.Breaks m host

def Operation.Violates (m : MethodBody) (host : Host) : Operation → Prop
  | .assign slot value => ¬ m.HasSlot slot ∨ value.Violates m host
  | .instantiate instantiation => instantiation.ArityFault host
  | .evaluate o | .store _ o | .ret (some o) | .throw (some o) | .yield (some o) =>
    o.Violates m host
  | .ret none | .throw none | .yield none | .defineLambda | .defineLocalFunction | .nop => False

def Demand.Fails (m : MethodBody) (host : Host) : Demand → Prop
  | .access slot => ¬ m.HasSlot slot
  | .flow _ _ => False
  | .instantiate instantiation => instantiation.ArityFault host

section Failing

variable {m : MethodBody} {host : Host}

theorem Demand.check_succeeds {location : Location} {state : State} {d : Demand} :
    (d.check m host location state).Succeeds ↔ ¬ d.Fails m host := by
  cases d with
  | access slot => exact MethodBody.checkSlot_succeeds.trans not_not.symm
  | flow place source => exact iff_of_true ⟨(), rfl⟩ id
  | instantiate i => exact Host.checkInstantiation_succeeds

def FailsIn (m : MethodBody) (host : Host) (ds : List Demand) : Prop := ∃ d ∈ ds, d.Fails m host

@[simp] theorem failsIn_nil : ¬ FailsIn m host [] := fun ⟨_, h, _⟩ => nomatch h

@[simp] theorem failsIn_cons {d : Demand} {ds : List Demand} :
    FailsIn m host (d :: ds) ↔ d.Fails m host ∨ FailsIn m host ds := by
  simp [FailsIn]

@[simp] theorem failsIn_append {ds es : List Demand} :
    FailsIn m host (ds ++ es) ↔ FailsIn m host ds ∨ FailsIn m host es := by
  simp [FailsIn, or_and_right, exists_or]

namespace Operand

theorem violates_iff_breaks {o : Operand} (h : ∀ part, o.Evaluates part → part = o) :
    o.Violates m host ↔ o.Breaks m host := by
  constructor
  · intro hx
    obtain ⟨part, hp, hb⟩ := hx
    exact h part hp ▸ hb
  · intro hb
    exact ⟨o, .self o, hb⟩

theorem violates_baseTypeOf {o : Operand} :
    (baseTypeOf o).Violates m host ↔ o.Violates m host := by
  constructor
  · intro h
    obtain ⟨part, hp, hb⟩ := h
    cases hp with
    | self => exact hb.elim
    | baseTypeOf hp => exact ⟨part, hp, hb⟩
  · intro h
    obtain ⟨part, hp, hb⟩ := h
    exact ⟨part, .baseTypeOf hp, hb⟩

theorem violates_element {o : Operand} : (element o).Violates m host ↔ o.Violates m host := by
  constructor
  · intro h
    obtain ⟨part, hp, hb⟩ := h
    cases hp with
    | self => exact hb.elim
    | element hp => exact ⟨part, hp, hb⟩
  · intro h
    obtain ⟨part, hp, hb⟩ := h
    exact ⟨part, .element hp, hb⟩

theorem violates_unmodelled {description : String} {os : List Operand} :
    (unmodelled description os).Violates m host ↔ ∃ o ∈ os, o.Violates m host := by
  constructor
  · intro h
    obtain ⟨part, hp, hb⟩ := h
    cases hp with
    | self => exact hb.elim
    | unmodelled ho hp => exact ⟨_, ho, part, hp, hb⟩
  · intro h
    obtain ⟨o, ho, part, hp, hb⟩ := h
    exact ⟨part, .unmodelled ho hp, hb⟩

theorem violates_invoke {method : MethodName} {receiver : Option Operand} {os : List Operand}
    {typeArguments : List TypeArgument} :
    (invoke method receiver os typeArguments).Violates m host ↔
      (∃ o ∈ receiver, o.Violates m host) ∨ (∃ o ∈ os, o.Violates m host) ∨
        (typeArguments ≠ [] ∧ Instantiation.ArityFault host ⟨method, typeArguments⟩) := by
  constructor
  · intro h
    obtain ⟨part, hp, hb⟩ := h
    cases hp with
    | self => exact .inr (.inr hb)
    | receiver hp => exact .inl ⟨_, rfl, part, hp, hb⟩
    | argument ho hp => exact .inr (.inl ⟨_, ho, part, hp, hb⟩)
  · intro h
    rcases h with ⟨o, ho, part, hp, hb⟩ | ⟨o, ho, part, hp, hb⟩ | hb
    · rw [Option.mem_def] at ho
      subst ho
      exact ⟨part, .receiver hp, hb⟩
    · exact ⟨part, .argument ho hp, hb⟩
    · exact ⟨_, .self _, hb⟩

end Operand

mutual

/-- Some demand of an operand fails exactly if some part that is evaluated violates the contract. -/
theorem failsIn_demands : ∀ o : Operand, FailsIn m host o.demands ↔ o.Violates m host
  | .typeOf _ | .genericParameter _ | .literal _ | .null | .load _ | .nameOf _ _ => by
    rw [Operand.violates_iff_breaks (by rintro part (_ | _); rfl)]
    exact iff_of_false failsIn_nil id
  | .read slot => by
    rw [Operand.violates_iff_breaks (by rintro part (_ | _); rfl), Operand.demands, failsIn_cons]
    exact or_iff_left failsIn_nil
  | .invoke method receiver arguments typeArguments => by
    have hi : FailsIn m host
        (if typeArguments.isEmpty then [] else [.instantiate ⟨method, typeArguments⟩]) ↔
          typeArguments ≠ [] ∧ Instantiation.ArityFault host ⟨method, typeArguments⟩ := by
      cases typeArguments <;> simp [Demand.Fails]
    rw [Operand.violates_invoke, Operand.demands, failsIn_append, failsIn_append,
      failsIn_receiverDemands method receiver, failsIn_argumentDemands method 0 arguments, hi]
  | .baseTypeOf operand => by
    rw [Operand.violates_baseTypeOf, Operand.demands, failsIn_demands operand]
  | .element array => by
    rw [Operand.violates_element, Operand.demands, failsIn_demands array]
  | .unmodelled _ operands => by
    rw [Operand.violates_unmodelled, Operand.demands, failsIn_operandDemands operands]

theorem failsIn_receiverDemands (method : MethodName) : ∀ r : Option Operand,
    FailsIn m host (receiverDemands method r) ↔ ∃ o ∈ r, o.Violates m host
  | none => by simp [receiverDemands]
  | some receiver => by
    rw [receiverDemands, failsIn_append, failsIn_demands receiver]
    simp [Demand.Fails]

theorem failsIn_argumentDemands (method : MethodName) (index : UInt32) : ∀ os : List Operand,
    FailsIn m host (argumentDemands method index os) ↔ ∃ o ∈ os, o.Violates m host
  | [] => by simp [argumentDemands]
  | argument :: arguments => by
    rw [argumentDemands, failsIn_append, failsIn_cons, failsIn_demands argument,
      failsIn_argumentDemands method (index + 1) arguments]
    simp [Demand.Fails]

theorem failsIn_operandDemands : ∀ os : List Operand,
    FailsIn m host (operandDemands os) ↔ ∃ o ∈ os, o.Violates m host
  | [] => by simp [operandDemands]
  | operand :: operands => by
    rw [operandDemands, failsIn_append, failsIn_demands operand, failsIn_operandDemands operands]
    simp

end

theorem failsIn_operation {operation : Operation} :
    FailsIn m host (operation.demands m.method) ↔ operation.Violates m host := by
  cases operation with
  | assign slot value =>
    rw [Operation.demands, failsIn_cons, failsIn_demands]
    rfl
  | store field value =>
    rw [Operation.demands, failsIn_append, failsIn_demands]
    exact or_iff_left (by simp [Demand.Fails])
  | ret value =>
    cases value with
    | none => exact iff_of_false failsIn_nil id
    | some value =>
      rw [Operation.demands, failsIn_append, failsIn_demands]
      exact or_iff_left (by simp [Demand.Fails])
  | instantiate i =>
    rw [Operation.demands, failsIn_cons]
    exact or_iff_left failsIn_nil
  | evaluate operand => exact failsIn_demands operand
  | throw exception =>
    cases exception with
    | none => exact iff_of_false failsIn_nil id
    | some operand => exact failsIn_demands operand
  | yield value =>
    cases value with
    | none => exact iff_of_false failsIn_nil id
    | some operand => exact failsIn_demands operand
  | defineLambda | defineLocalFunction | nop => exact iff_of_false failsIn_nil id

namespace MethodBody

theorem checkDemands_succeeds {location : Location} {state : State} {ds : List Demand} :
    (m.checkDemands host location state ds).Succeeds ↔ ¬ FailsIn m host ds := by
  rw [Check.succeeds_iff, checkDemands, Check.outcome_all, List.forall_mem_map]
  constructor
  · rintro h ⟨d, hd, hf⟩
    exact Demand.check_succeeds.1 (Check.succeeds_iff.2 (h d hd)) hf
  · intro h d hd
    exact Check.succeeds_iff.1 (Demand.check_succeeds.2 fun hf => h ⟨d, hd, hf⟩)

theorem step_succeeds {statement : Statement} {state : State} :
    (m.step host statement state).Succeeds ↔ ¬ statement.operation.Violates m host := by
  rw [step_eq, Check.succeeds_andThen_done, checkDemands_succeeds, failsIn_operation]

/-- No statement violates the contract. -/
def Admits (m : MethodBody) (host : Host) (code : List Statement) : Prop :=
  ∀ statement ∈ code, ¬ statement.operation.Violates m host

theorem steps_succeeds {code : List Statement} {state : State} :
    (m.steps host code state).Succeeds ↔ m.Admits host code := by
  induction code generalizing state with
  | nil => exact iff_of_true ⟨[], rfl⟩ (by simp [Admits])
  | cons statement code ih =>
    have hc : m.Admits host (statement :: code) ↔
        ¬ statement.operation.Violates m host ∧ m.Admits host code := List.forall_mem_cons
    have hs : (m.step host statement state).Succeeds ↔ ¬ statement.operation.Violates m host :=
      step_succeeds
    rw [steps, hc, ← hs, Check.bind_eq, Check.succeeds_andThen]
    simp only [Check.bind_eq, Check.pure_eq, Check.succeeds_andThen_done, ih]
    exact ⟨fun ⟨s, hs, h⟩ => ⟨⟨s, hs⟩, h⟩, fun ⟨⟨s, hs⟩, h⟩ => ⟨s, hs, h⟩⟩

end MethodBody

theorem Pass.visit_succeeds {p : Pass} {block : BasicBlock} :
    (p.visit m host block).Succeeds ↔ m.Admits host block.statements :=
  Check.succeeds_andThen_done.trans MethodBody.steps_succeeds

theorem Pass.visitAll_of_block {p : Pass} {id : BlockId} {ids : List BlockId} {block : BasicBlock}
    (hb : m.graph.block? id = some block) :
    visitAll m host (id :: ids) p = (p.visit m host block).andThen (visitAll m host ids) := by
  rw [visitAll, FlowGraph.block_eq_ok.2 hb]
  rfl

theorem Pass.visitAll_succeeds {ids : List BlockId} {p : Pass} :
    (Pass.visitAll m host ids p).Succeeds ↔
      ∀ id ∈ ids, ∃ block, m.graph.block? id = some block ∧ m.Admits host block.statements := by
  induction ids generalizing p with
  | nil => exact iff_of_true ⟨p, rfl⟩ (by simp)
  | cons id ids ih =>
    rw [visitAll, List.forall_mem_cons, Check.bind_eq, Check.succeeds_andThen]
    constructor
    · intro h
      obtain ⟨block, hb, hv⟩ := h
      obtain ⟨q, hq, hs⟩ := Check.succeeds_andThen.1 hv
      exact ⟨⟨block, FlowGraph.block_eq_ok.1 hb, visit_succeeds.1 ⟨q, hq⟩⟩, ih.1 hs⟩
    · intro h
      obtain ⟨⟨block, hb, ha⟩, hs⟩ := h
      obtain ⟨q, hq⟩ := visit_succeeds.2 ha
      exact ⟨block, FlowGraph.block_eq_ok.2 hb, Check.succeeds_andThen.2 ⟨q, hq, ih.2 hs⟩⟩

end Failing

namespace MethodBody

variable {m : MethodBody} {host : Host} {options : Options}

theorem pass_succeeds : (m.pass host).Succeeds ↔ m.graph.WellFormed ∧
    ∀ b ∈ m.graph.reversePostorder, ∃ block, m.graph.block? b = some block ∧
      m.Admits host block.statements := by
  rw [pass, Check.bind_eq, Check.succeeds_andThen]
  simp only [Pass.visitAll_succeeds]
  constructor
  · intro h
    obtain ⟨_, hv, hs⟩ := h
    exact ⟨FlowGraph.validate_eq_ok.1 hv, hs⟩
  · intro h
    obtain ⟨hw, hs⟩ := h
    exact ⟨(), FlowGraph.validate_eq_ok.2 hw, hs⟩

/-- A statement that can be reached over edges violates the contract. -/
def ReachesViolation (m : MethodBody) (host : Host) : Prop :=
  ∃ b block, m.graph.Reaches m.graph.entry b ∧ m.graph.block? b = some block ∧
    ∃ statement ∈ block.statements, statement.operation.Violates m host

theorem pass_fails_iff : ¬ (m.pass host).Succeeds ↔
    (∃ v, m.graph.validate = .error v) ∨ m.ReachesViolation host := by
  have hv : (∃ v, m.graph.validate = .error v) ↔ ¬ m.graph.WellFormed := by
    rw [← FlowGraph.validate_eq_ok]
    cases m.graph.validate <;> simp
  rw [hv, pass_succeeds]
  by_cases hw : m.graph.WellFormed
  · simp only [hw, true_and, not_true, false_or]
    constructor
    · intro hs
      by_contra hn
      apply hs
      intro b hb
      obtain ⟨block, hblock⟩ := hw.exists_block b hb
      refine ⟨block, hblock, fun statement hm hviolates => hn ?_⟩
      exact ⟨b, block, FlowGraph.mem_reversePostorder_iff.1 hb, hblock, statement, hm, hviolates⟩
    · rintro ⟨b, block, hr, hb, statement, hm, hviolates⟩ hs
      obtain ⟨block', hb', ha⟩ := hs b (FlowGraph.mem_reversePostorder_iff.2 hr)
      rw [hb] at hb'
      cases hb'
      exact ha statement hm hviolates
  · simp [hw]

theorem analyze_of_exempt {reason : Exemption} (h : m.exemption? host options = some reason) :
    m.analyze host options = ⟨.ok [], []⟩ := by
  rw [analyze, h]

theorem analyze_of_not_exempt (h : m.exemption? host options = none) :
    m.analyze host options = (m.pass host).verdict := by
  rw [analyze, h]

theorem pass_of_validate_error {v : Violation} (h : m.graph.validate = .error v) :
    (m.pass host).outcome = .error v := by
  rw [pass, h]
  rfl

/-- An analysis ends in a violation exactly if the body is not exempt and its graph is ill formed or
a statement that can be reached violates the contract. Of an ill-formed graph it reports what
validation finds. Reaching goes over edges, to successors and to handlers of what may throw. -/
theorem analyze_error_iff (m : MethodBody) (host : Host) (options : Options) :
    ((∃ v, (m.analyze host options).result = .error v) ↔
      m.exemption? host options = none ∧
        ((∃ v, m.graph.validate = .error v) ∨ m.ReachesViolation host)) ∧
    (∀ v, m.exemption? host options = none → m.graph.validate = .error v →
      (m.analyze host options).result = .error v) ∧
    ∀ a b, m.graph.Edge a b ↔ ∃ block, m.graph.block? a = some block ∧
      (b ∈ block.successors ∨
        ∃ r ∈ m.graph.regions, a ∈ r.protectedBlocks ∧ r.handler = b) := by
  refine ⟨?_, ?_, ?_⟩
  · cases h : m.exemption? host options with
    | some reason => simp [analyze_of_exempt h]
    | none =>
      rw [analyze_of_not_exempt h, ← pass_fails_iff, ← Check.exists_error_iff, Check.verdict]
      cases (m.pass host).outcome <;> simp [Except.map]
  · intro v h hv
    rw [analyze_of_not_exempt h, Check.verdict, pass_of_validate_error hv]
    rfl
  · intro a b
    rw [FlowGraph.edge_iff]
    simp only [FlowGraph.mem_handlers]

end MethodBody

end CapabilityFlow
