import CapabilityFlow.Proofs.ArgumentPositions
import CapabilityFlow.Proofs.SeparateJudgement

namespace CapabilityFlow

/-- Two mismatches at one location tell the same of where a value comes from and of what it lacks;
they differ in where the value goes. -/
inductive Diagnostic.SameSource (target target' : Origin) : Diagnostic → Diagnostic → Prop
  | mismatch (source : Origin) (missing : Capabilities) (location : Location) :
    SameSource target target'
      ⟨.mismatch source.shape target.shape,
        target.arguments ++ source.arguments ++ [missing.text], location⟩
      ⟨.mismatch source.shape target'.shape,
        target'.arguments ++ source.arguments ++ [missing.text], location⟩

/-- Two checks go well, report in pairs that are related, and make the same marks. -/
structure Check.Parallel (R : Diagnostic → Diagnostic → Prop) (c c' : Check Unit) : Prop where
  left : c.outcome = .ok ()
  right : c'.outcome = .ok ()
  diagnostics : List.Forall₂ R c.diagnostics c'.diagnostics
  marks : c.marks = c'.marks

namespace Check.Parallel

variable {R R' : Diagnostic → Diagnostic → Prop} {c c' : Check Unit}

theorem done : Parallel R (.done ()) (.done ()) := ⟨rfl, rfl, .nil, rfl⟩

theorem mono (h : Parallel R c c') (hR : ∀ d d', R d d' → R' d d') : Parallel R' c c' :=
  { h with diagnostics := h.diagnostics.imp hR }

theorem andThen {next next' : Unit → Check Unit} (h : Parallel R c c')
    (hnext : Parallel R (next ()) (next' ())) :
    Parallel R (c.andThen next) (c'.andThen next') := by
  rw [andThen_of_ok h.left, andThen_of_ok h.right]
  refine ⟨hnext.left, hnext.right, ?_, ?_⟩
  · simp only [Check.diagnostics, List.filterMap_append]
    exact List.rel_append h.diagnostics hnext.diagnostics
  · simp only [Check.marks, List.filterMap_append]
    exact congrArg₂ (· ++ ·) h.marks hnext.marks

end Check.Parallel

namespace Requirement

variable {r r' : Requirement} {resolve : String → Option TypeName} {location : Location}

theorem marks_judgeAnnotated (source : Origin) (available : Capabilities) :
    (r.judgeAnnotated location source available).filterMap Event.mark? = [] := by
  unfold judgeAnnotated
  split <;> rfl

theorem marks_judge_eq (h : r.required = r'.required) (v : Value) :
    (r.judge resolve location v).filterMap Event.mark? =
      (r'.judge resolve location v).filterMap Event.mark? := by
  cases v with
  | annotated source available => simp only [judge, marks_judgeAnnotated]
  | constructible parameter available =>
    simp only [judge, apply_ite (List.filterMap Event.mark?), marks_judgeAnnotated, ite_self,
      List.filterMap_nil]
  | type name | constant text => simp only [judge, h]
  | null | unknown => rfl

end Requirement

theorem Host.parallel_enforce {host : Host} {location : Location} {r r' : Requirement} {v : Value}
    (h : r.required = r'.required) (hv : v ≠ .unknown) :
    Check.Parallel (Diagnostic.SameSource r.target r'.target)
      (host.enforce r location (.one v)) (host.enforce r' location (.one v)) := by
  by_cases hr : r.required = ∅
  · have hr' : r'.required = ∅ := h ▸ hr
    simp only [enforce, Requirement.enforce, if_pos hr, if_pos hr']
    exact .done
  · have hr' : r'.required ≠ ∅ := h ▸ hr
    simp only [enforce, Requirement.enforce, if_neg hr, if_neg hr', ValueSet.toList_one,
      List.flatMap_singleton]
    refine ⟨rfl, rfl, ?_, Requirement.marks_judge_eq h v⟩
    simp only [Check.diagnostics, Check.emit]
    by_cases hm : v.Meets r.required
    · have hm' : v.Meets r'.required := h ▸ hm
      rw [Requirement.reports_eq_nil.2 ((Requirement.quiet_judge host.resolve location).2 hm),
        Requirement.reports_eq_nil.2 ((Requirement.quiet_judge host.resolve location).2 hm')]
      exact .nil
    · have hm' : ¬ v.Meets r'.required := h ▸ hm
      obtain ⟨d, hd, hjudge⟩ := Requirement.exists_judge_of_not_meets host.resolve location hm
      obtain ⟨d', hd', hjudge'⟩ :=
        Requirement.exists_judge_of_not_meets host.resolve location hm'
      rw [hjudge, hjudge']
      refine .cons ?_ .nil
      cases hd with
      | unverifiable => exact absurd rfl hv
      | mismatch hcarries =>
        rw [hcarries.eq_of_blames hd', h]
        exact .mismatch _ _ _

inductive PlainArgument where
  | named (name : TypeName)
  | parameter (parameter : GenericParameter)

namespace PlainArgument

def typeArgument : PlainArgument → TypeArgument
  | named name => .named name
  | parameter p => .parameter p

def operand : PlainArgument → Operand
  | named name => .typeOf name
  | parameter p => .genericParameter p

def value (host : Host) : PlainArgument → Value
  | named name => .type name
  | parameter p => host.genericValue p

variable {host : Host} {location : Location}

theorem value_ne_unknown (a : PlainArgument) : a.value host ≠ .unknown := by
  cases a with
  | named name => simp only [value, ne_eq, reduceCtorEq, not_false_eq_true]
  | parameter p =>
    simp only [value, Host.genericValue]
    split <;> simp only [ne_eq, reduceCtorEq, not_false_eq_true]

theorem checkArgument_eq (a : PlainArgument) (parameter : GenericParameter) :
    host.checkArgument location parameter a.typeArgument =
      host.enforce (host.genericRequirement parameter) location (.one (a.value host)) := by
  cases a with
  | named | parameter =>
    rw [typeArgument, Host.checkArgument]
    rfl

theorem evaluate_operand (a : PlainArgument) (m : MethodBody) (state : State) :
    m.evaluate host location state a.operand = .done (.one (a.value host)) := by
  cases a with
  | named | parameter =>
    rw [operand, MethodBody.evaluate]
    rfl

end PlainArgument

namespace Host

variable {host : Host} {location : Location} {definition : String} {method : MethodName}
  {R : Diagnostic → Diagnostic → Prop}

/-- Two mismatches tell the same of a value, and their targets are the parameters at one position of
a definition and of a method. -/
def SameFlow (host : Host) (definition : String) (symbols : List GenericSymbol)
    (method : MethodName) (d d' : Diagnostic) : Prop :=
  ∃ (k : Nat) (symbol : GenericSymbol), symbols[k]? = some symbol ∧
    d.SameSource (.genericParameter ⟨definition, symbol.name⟩)
      (host.parameterOrigin method (UInt32.ofNat k)) d'

/-- The induction is on the arguments, and the positions that are left start at an offset. -/
theorem parallel_arguments (m : MethodBody) (state : State) (offset : Nat)
    {symbols : List GenericSymbol} {arguments : List PlainArgument}
    (hl : arguments.length = symbols.length)
    (hk : ∀ (k : Nat) symbol, symbols[k]? = some symbol →
      host.genericRequirement ⟨definition, symbol.name⟩ = symbol.requirement definition ∧
      host.parameterCapabilities method (UInt32.ofNat (offset + k)) = symbol.capabilities ∧
      ∀ d d', Diagnostic.SameSource (.genericParameter ⟨definition, symbol.name⟩)
        (host.parameterOrigin method (UInt32.ofNat (offset + k))) d d' → R d d') :
    Check.Parallel R
      (host.checkArguments location (symbols.map fun symbol => ⟨definition, symbol.name⟩)
        (arguments.map (·.typeArgument)))
      (m.evaluateArguments host location state method (UInt32.ofNat offset)
        (arguments.map (·.operand))) := by
  induction arguments generalizing symbols offset with
  | nil =>
    cases List.eq_nil_of_length_eq_zero hl.symm
    simp only [List.map_nil, checkArguments, MethodBody.evaluateArguments]
    exact .done
  | cons a arguments ih =>
    cases symbols with
    | nil => cases hl
    | cons symbol symbols =>
      obtain ⟨hgeneric, hparameter, hrelated⟩ := hk 0 symbol rfl
      simp only [List.map_cons, checkArguments, MethodBody.evaluateArguments,
        PlainArgument.checkArgument_eq, PlainArgument.evaluate_operand, Check.bind_eq,
        Check.done_andThen, hgeneric]
      apply Check.Parallel.andThen
      · have hrequired : (symbol.requirement definition).required =
            (host.parameterRequirement method (UInt32.ofNat offset)).required := hparameter.symm
        exact (parallel_enforce hrequired a.value_ne_unknown).mono hrelated
      · have hnext : UInt32.ofNat offset + 1 = UInt32.ofNat (offset + 1) :=
          (UInt32.ofNat_add offset 1).symm
        rw [hnext]
        apply ih (offset + 1) (Nat.succ.inj hl)
        intro k symbol' hsymbol
        rw [Nat.add_assoc, Nat.add_comm 1 k]
        exact hk (k + 1) symbol' hsymbol

end Host

theorem MethodBody.evaluate_call {m : MethodBody} {host : Host} {location : Location}
    {state : State} {method : MethodName} {operands : List Operand}
    (h : (m.evaluateArguments host location state method 0 operands).outcome = .ok ()) :
    m.evaluate host location state (.invoke method none operands []) =
      ⟨(m.evaluateArguments host location state method 0 operands).events,
        .ok (.one (host.callValue method))⟩ := by
  simp only [evaluate, evaluateReceiver, Check.bind_eq, Check.done_andThen, List.isEmpty_nil,
    if_true, Check.pure_eq, Check.andThen_of_ok h]
  exact Check.ext (List.append_nil _) rfl

namespace SymbolTable

variable {table : SymbolTable} {definition : String} {method : MethodName}
  {symbols : List GenericSymbol} {arguments : List PlainArgument}

theorem parameterCapabilities_of_declared {callee : MethodSymbol}
    (h : table.methods.get? method = some callee)
    (hc : callee.parameters.map (·.capabilities) = symbols.map (·.capabilities))
    (hn : symbols.length ≤ UInt32.size) (k : Nat) (symbol : GenericSymbol)
    (hk : symbols[k]? = some symbol) :
    table.host.parameterCapabilities method (UInt32.ofNat k) = symbol.capabilities := by
  have hlt : k < symbols.length := (List.getElem?_eq_some_iff.1 hk).1
  have hindex : (UInt32.ofNat k).toNat = k := UInt32.toNat_ofNat_of_lt' (Nat.lt_of_lt_of_le hlt hn)
  have hsame := congrArg (·[k]?) hc
  simp only [List.getElem?_map, hk, Option.map_some] at hsame
  simp only [host, parameter?, h, hindex, Option.bind_eq_bind, Option.bind_some, hsame,
    Option.getD_some]

/-- Where the names of the parameters of a definition are distinct and a method requires the same at
each position, type arguments that name types or pass on generic parameters are reported alike when
they are supplied to the one and when their values are passed to the other: in the same order and
number, with the same sources and the same missing kinds, and with the two parameters at one
position as targets. The same types are marked in the same order. -/
theorem arguments_flow_alike (h : table.generics.get? definition = some symbols)
    (distinct : (symbols.map (·.name)).Nodup)
    (hm : ∀ (k : Nat) symbol, symbols[k]? = some symbol →
      table.host.parameterCapabilities method (UInt32.ofNat k) = symbol.capabilities)
    (hl : arguments.length = symbols.length) (location : Location) (m : MethodBody)
    (state : State) :
    let checked := table.host.checkInstantiation location
      ⟨definition, arguments.map (·.typeArgument)⟩
    let called := m.evaluate table.host location state
      (.invoke method none (arguments.map (·.operand)) [])
    checked.outcome = .ok () ∧ called.outcome = .ok (.one (table.host.callValue method)) ∧
    List.Forall₂ (table.host.SameFlow definition symbols method)
      checked.diagnostics called.diagnostics ∧
    checked.marks = called.marks := by
  intro checked called
  have hparallel : Check.Parallel (table.host.SameFlow definition symbols method)
      (table.host.checkArguments location (symbols.map fun symbol => ⟨definition, symbol.name⟩)
        (arguments.map (·.typeArgument)))
      (m.evaluateArguments table.host location state method 0 (arguments.map (·.operand))) := by
    apply Host.parallel_arguments m state 0 hl
    intro k symbol hk
    rw [Nat.zero_add]
    have hconsistent := GenericSymbol.consistent_of_nodup distinct
    exact ⟨genericRequirement_of_consistent h hconsistent (List.mem_of_getElem? hk), hm k symbol hk,
      fun d d' hd => ⟨k, symbol, hk, hd⟩⟩
  have hchecked : checked = table.host.checkArguments location
      (symbols.map fun symbol => ⟨definition, symbol.name⟩) (arguments.map (·.typeArgument)) := by
    have hlength : symbols.length = arguments.length := hl.symm
    simp only [checked, Host.checkInstantiation, Host.withParameters, host_genericParameters h,
      List.length_map, if_pos hlength]
  have hcalled : called = _ := MethodBody.evaluate_call hparallel.right
  rw [hchecked, hcalled]
  exact ⟨hparallel.left, rfl, hparallel.diagnostics, hparallel.marks⟩

def poolSymbols : List GenericSymbol :=
  [{ name := "TItem", capabilities := Kind.publicMethods.set },
    { name := "TMade", capabilities := Kind.publicParameterlessConstructor.set },
    { name := "TBuilt", capabilities := Kind.publicConstructors.set },
    { name := "TRead", capabilities := Kind.publicFields.set }]

def poolTable : SymbolTable where
  methods := .ofList
    [("Fill(Type,Type,Type,Type)",
      { parameters :=
          [⟨"item", Kind.publicMethods.set⟩, ⟨"made", Kind.publicParameterlessConstructor.set⟩,
            ⟨"built", Kind.publicConstructors.set⟩, ⟨"read", Kind.publicFields.set⟩] })]
  generics := .ofList
    [("Caller`1", [{ name := "T", isConstructible := true }]), ("Pool`4", poolSymbols)]

def poolArguments : List PlainArgument :=
  [.parameter ⟨"Caller`1", "T"⟩, .parameter ⟨"Caller`1", "T"⟩, .parameter ⟨"Caller`1", "T"⟩,
    .named "Widget"]

theorem arguments_flow_alike_pool :
    let checked := poolTable.host.checkInstantiation ⟨7, 3⟩
      ⟨"Pool`4", poolArguments.map (·.typeArgument)⟩
    let called := MethodBody.evaluate { method := "Main()", graph := { blocks := [] } }
      poolTable.host ⟨7, 3⟩ ∅
      (.invoke "Fill(Type,Type,Type,Type)" none (poolArguments.map (·.operand)) [])
    poolTable.generics.get? "Pool`4" = some poolSymbols ∧ (poolSymbols.map (·.name)).Nodup ∧
    checked.diagnostics =
      [⟨.mismatch .genericParameter .genericParameter,
          ["TItem", "Pool`4", "T", "Caller`1", "PublicMethods"], ⟨7, 3⟩⟩,
        ⟨.mismatch .genericParameter .genericParameter,
          ["TBuilt", "Pool`4", "T", "Caller`1", "PublicConstructors"], ⟨7, 3⟩⟩] ∧
    List.Forall₂ (poolTable.host.SameFlow "Pool`4" poolSymbols "Fill(Type,Type,Type,Type)")
      checked.diagnostics called.diagnostics ∧
    checked.marks = [⟨"Widget", Kind.publicFields.set⟩] ∧ checked.marks = called.marks := by
  intro checked called
  have hsymbols : poolTable.generics.get? "Pool`4" = some poolSymbols := by decide
  have hdistinct : (poolSymbols.map (·.name)).Nodup := by decide
  have hsame : ∀ (k : Nat) symbol, poolSymbols[k]? = some symbol →
      poolTable.host.parameterCapabilities "Fill(Type,Type,Type,Type)" (UInt32.ofNat k) =
        symbol.capabilities :=
    parameterCapabilities_of_declared rfl rfl (by decide)
  have hlength : poolArguments.length = poolSymbols.length := rfl
  obtain ⟨-, -, hdiagnostics, hmarks⟩ :=
    arguments_flow_alike hsymbols hdistinct hsame hlength ⟨7, 3⟩
      { method := "Main()", graph := { blocks := [] } } ∅
  exact ⟨hsymbols, hdistinct, by decide +kernel, hdiagnostics, by decide +kernel, hmarks⟩

end SymbolTable

end CapabilityFlow
