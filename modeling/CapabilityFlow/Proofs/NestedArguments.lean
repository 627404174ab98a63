import CapabilityFlow.Proofs.Violations
import CapabilityFlow.SymbolTable
import Mathlib.Logic.Relation

namespace CapabilityFlow

namespace Check

theorem events_infix_all {c : Check Unit} {cs : List (Check Unit)} (hc : c ∈ cs)
    (h : (all cs).outcome = .ok ()) :
    c.outcome = .ok () ∧ c.events <:+: (all cs).events := by
  have ho := outcome_all.1 h
  rw [events_all ho, List.flatMap_def]
  exact ⟨ho c hc, List.infix_of_mem_flatten (List.mem_map_of_mem hc)⟩

theorem events_infix_andThen {α : Type} {c : Check Unit} {next : Unit → Check α} {a : α}
    (h : (c.andThen next).outcome = .ok a) :
    c.outcome = .ok () ∧ c.events <:+: (c.andThen next).events ∧
      (next ()).events <:+: (c.andThen next).events := by
  obtain ⟨_, hc, -⟩ := outcome_andThen_eq_ok.1 h
  rw [andThen_of_ok hc]
  exact ⟨hc, (List.prefix_append _ _).isInfix, (List.suffix_append _ _).isInfix⟩

end Check

/-- The first instantiation is of a definition that is known, and the second one stands among its
arguments, not inside of any. -/
def Instantiation.Supplies (host : Host) (i n : Instantiation) : Prop :=
  (∃ parameters, host.genericParameters i.definition = some parameters) ∧
    .constructed n.definition n.arguments ∈ i.arguments

namespace Host

variable {host : Host} {location : Location}

theorem checkArguments_eq_all (parameters : List GenericParameter)
    (arguments : List TypeArgument) : host.checkArguments location parameters arguments =
      .all ((parameters.zip arguments).map fun pair =>
        host.checkArgument location pair.1 pair.2) := by
  induction parameters generalizing arguments with
  | nil => cases arguments <;> simp only [checkArguments, List.zip_nil_left] <;> rfl
  | cons parameter parameters ih =>
    cases arguments with
    | nil => simp only [checkArguments, List.zip_nil_right]; rfl
    | cons argument arguments =>
      rw [checkArguments, List.zip_cons_cons, List.map_cons, Check.all_cons, ← ih arguments]
      rfl

theorem checkArgument_constructed (parameter : GenericParameter) (n : Instantiation) :
    host.checkArgument location parameter (.constructed n.definition n.arguments) =
      (host.checkInstantiation location n).andThen fun _ =>
        host.enforceArgument location parameter (.constructed n.definition n.arguments) := by
  rw [checkArgument]
  rfl

theorem enforceArgument_infix {parameter : GenericParameter} {argument : TypeArgument}
    (h : (host.checkArgument location parameter argument).outcome = .ok ()) :
    (host.enforceArgument location parameter argument).events <:+:
      (host.checkArgument location parameter argument).events := by
  cases argument with
  | constructed definition arguments =>
    have he : host.checkArgument location parameter (.constructed definition arguments) = _ :=
      checkArgument_constructed parameter ⟨definition, arguments⟩
    rw [he] at h ⊢
    exact (Check.events_infix_andThen h).2.2
  | named _ | array _ | parameter _ | missing =>
    simp only [checkArgument, List.infix_rfl]

theorem checkInstantiation_of_known {i : Instantiation} {parameters : List GenericParameter}
    (hk : host.genericParameters i.definition = some parameters)
    (h : (host.checkInstantiation location i).outcome = .ok ()) :
    parameters.length = i.arguments.length ∧
      host.checkInstantiation location i =
        host.checkArguments location parameters i.arguments := by
  have hl := (withParameters_succeeds.1 ⟨(), h⟩ parameters hk).1
  refine ⟨hl, ?_⟩
  simp only [checkInstantiation, withParameters, hk, if_pos hl]

theorem checkArgument_infix {i : Instantiation} {parameters : List GenericParameter}
    (hk : host.genericParameters i.definition = some parameters)
    (h : (host.checkInstantiation location i).outcome = .ok ()) {k : Nat}
    {parameter : GenericParameter} {argument : TypeArgument}
    (hp : parameters[k]? = some parameter) (ha : i.arguments[k]? = some argument) :
    (host.checkArgument location parameter argument).outcome = .ok () ∧
      (host.checkArgument location parameter argument).events <:+:
        (host.checkInstantiation location i).events := by
  have hc := (checkInstantiation_of_known hk h).2
  rw [hc, checkArguments_eq_all] at h ⊢
  have hz : (parameters.zip i.arguments)[k]? = some (parameter, argument) :=
    List.getElem?_zip_eq_some.2 ⟨hp, ha⟩
  exact Check.events_infix_all (List.mem_map_of_mem (List.mem_of_getElem? hz)) h

theorem supplied_infix {i n : Instantiation} (hs : i.Supplies host n)
    (h : (host.checkInstantiation location i).outcome = .ok ()) :
    (host.checkInstantiation location n).outcome = .ok () ∧
      (host.checkInstantiation location n).events <:+:
        (host.checkInstantiation location i).events := by
  obtain ⟨⟨parameters, hk⟩, hm⟩ := hs
  obtain ⟨k, ha⟩ := List.mem_iff_getElem?.1 hm
  have hl := (checkInstantiation_of_known hk h).1
  have hlt : k < parameters.length := hl ▸ (List.getElem?_eq_some_iff.1 ha).1
  obtain ⟨hc, hi⟩ := checkArgument_infix hk h (List.getElem?_eq_getElem hlt) ha
  rw [checkArgument_constructed] at hc hi
  obtain ⟨ho, hn, -⟩ := Check.events_infix_andThen hc
  exact ⟨ho, hn.trans hi⟩

theorem reached_infix {i n : Instantiation} (hr : Relation.TransGen (·.Supplies host ·) i n)
    (h : (host.checkInstantiation location i).outcome = .ok ()) :
    (host.checkInstantiation location n).outcome = .ok () ∧
      (host.checkInstantiation location n).events <:+:
        (host.checkInstantiation location i).events := by
  induction hr with
  | single hs => exact supplied_infix hs h
  | tail _ hs ih =>
    obtain ⟨ho, hi⟩ := ih
    obtain ⟨ho', hi'⟩ := supplied_infix hs ho
    exact ⟨ho', hi'.trans hi⟩

end Host

namespace SymbolTable

variable {table : SymbolTable}

def DistinctGenerics (table : SymbolTable) : Prop :=
  ∀ entry ∈ table.generics.entries, (entry.2.map (·.name)).Nodup

instance : Decidable table.DistinctGenerics := inferInstanceAs (Decidable (∀ _ ∈ _, _))

theorem DistinctGenerics.nodup (h : table.DistinctGenerics) {definition : String}
    {symbols : List GenericSymbol} (hs : table.generics.get? definition = some symbols) :
    (symbols.map (·.name)).Nodup :=
  h (definition, symbols) (OrderedMap.get?_eq_some_iff.1 hs)

theorem host_genericParameters {definition : String} {symbols : List GenericSymbol}
    (h : table.generics.get? definition = some symbols) :
    table.host.genericParameters definition =
      some (symbols.map fun symbol => ⟨definition, symbol.name⟩) := by
  simp only [host, h, Option.map_some]

theorem find?_name {symbols : List GenericSymbol} (hd : (symbols.map (·.name)).Nodup)
    {symbol : GenericSymbol} (hm : symbol ∈ symbols) :
    symbols.find? (·.name = symbol.name) = some symbol := by
  induction symbols with
  | nil => cases hm
  | cons first symbols ih =>
    rw [List.map_cons, List.nodup_cons] at hd
    rcases List.mem_cons.1 hm with rfl | hm
    · exact List.find?_cons_of_pos (by simp)
    · have hne : first.name ≠ symbol.name := fun he => hd.1 (he ▸ List.mem_map_of_mem hm)
      rw [List.find?_cons_of_neg (by simpa using hne), ih hd.2 hm]

theorem genericRequirement_of_nodup {definition : String} {symbols : List GenericSymbol}
    (h : table.generics.get? definition = some symbols) (hd : (symbols.map (·.name)).Nodup)
    {symbol : GenericSymbol} (hm : symbol ∈ symbols) :
    table.host.genericRequirement ⟨definition, symbol.name⟩ =
      ⟨.genericParameter ⟨definition, symbol.name⟩, symbol.capabilities⟩ := by
  have hg : table.generic? ⟨definition, symbol.name⟩ = some symbol := by
    simp [generic?, h, find?_name hd hm]
  simp [Host.genericRequirement, host, hg]

/-- An instantiation that directly constructed arguments lead to, through definitions that are
known, is checked as a part of the outer one: it has as many arguments as its definition has
parameters, each of them is enforced against what the parameter at its position is declared with,
and the outer check reports and marks all that its own check does. -/
theorem nested_arguments_checked {location : Location} {i n : Instantiation}
    {symbols : List GenericSymbol} (distinct : table.DistinctGenerics)
    (hi : (table.host.checkInstantiation location i).outcome = .ok ())
    (hr : Relation.TransGen (·.Supplies table.host ·) i n)
    (hn : table.generics.get? n.definition = some symbols) :
    symbols.length = n.arguments.length ∧
    (∀ (k : Nat) symbol argument value, symbols[k]? = some symbol →
      n.arguments[k]? = some argument → table.host.argumentValue? argument = some value →
      Requirement.enforce ⟨.genericParameter ⟨n.definition, symbol.name⟩, symbol.capabilities⟩
          table.resolve location (.one value) <:+:
        (table.host.checkInstantiation location i).events) ∧
    (table.host.checkInstantiation location n).outcome = .ok () ∧
    (table.host.checkInstantiation location n).diagnostics <:+:
      (table.host.checkInstantiation location i).diagnostics ∧
    (table.host.checkInstantiation location n).marks <:+:
      (table.host.checkInstantiation location i).marks := by
  obtain ⟨ho, hinfix⟩ := Host.reached_infix hr hi
  have hk := host_genericParameters hn
  have hl := (Host.checkInstantiation_of_known hk ho).1
  rw [List.length_map] at hl
  refine ⟨hl, ?_, ho, hinfix.filterMap _, hinfix.filterMap _⟩
  intro k symbol argument value hs ha hv
  have hp : (symbols.map fun symbol => (⟨n.definition, symbol.name⟩ : GenericParameter))[k]? =
      some ⟨n.definition, symbol.name⟩ := by
    rw [List.getElem?_map, hs, Option.map_some]
  obtain ⟨hc, hci⟩ := Host.checkArgument_infix hk ho hp ha
  have he := (Host.enforceArgument_infix hc).trans (hci.trans hinfix)
  rw [Host.enforceArgument, hv] at he
  have hq := genericRequirement_of_nodup hn (distinct.nodup hn) (List.mem_of_getElem? hs)
  simp only [hq] at he
  exact he

def boxTable : SymbolTable where
  generics := .ofList [("Box`1", [{ name := "T" }]), ("Caller`1", [{ name := "TIn" }]),
    ("Sink`1", [{ name := "T", capabilities := Kind.publicMethods.set }])]

def boxOf (argument : TypeArgument) : Instantiation := ⟨"Box`1", [argument]⟩

def sinkOfCaller : Instantiation := ⟨"Sink`1", [.parameter ⟨"Caller`1", "TIn"⟩]⟩

def sinkArgument : TypeArgument := .constructed sinkOfCaller.definition sinkOfCaller.arguments

theorem nested_arguments_box : boxTable.DistinctGenerics ∧
    (boxTable.host.checkInstantiation {}
      (boxOf (.constructed "Box`1" [sinkArgument]))).outcome = .ok () ∧
    Relation.TransGen (·.Supplies boxTable.host ·)
      (boxOf (.constructed "Box`1" [sinkArgument])) sinkOfCaller ∧
    boxTable.generics.get? sinkOfCaller.definition =
      some [{ name := "T", capabilities := Kind.publicMethods.set }] ∧
    (boxTable.host.checkInstantiation {} sinkOfCaller).diagnostics.length = 1 ∧
    (boxTable.host.checkInstantiation {} sinkOfCaller).diagnostics <:+:
      (boxTable.host.checkInstantiation {}
        (boxOf (.constructed "Box`1" [sinkArgument]))).diagnostics := by
  have hd : boxTable.DistinctGenerics := by decide
  have ho : (boxTable.host.checkInstantiation {}
      (boxOf (.constructed "Box`1" [sinkArgument]))).outcome = .ok () := by decide +kernel
  have hr : Relation.TransGen (·.Supplies boxTable.host ·)
      (boxOf (.constructed "Box`1" [sinkArgument])) sinkOfCaller :=
    .tail (b := boxOf sinkArgument)
      (.single ⟨⟨_, rfl⟩, List.mem_singleton_self _⟩) ⟨⟨_, rfl⟩, List.mem_singleton_self _⟩
  have hn : boxTable.generics.get? sinkOfCaller.definition =
      some [{ name := "T", capabilities := Kind.publicMethods.set }] := by decide
  obtain ⟨-, -, -, h, -⟩ := nested_arguments_checked hd ho hr hn
  exact ⟨hd, ho, hr, hn, by decide +kernel, h⟩

end SymbolTable

/-- An instantiation stands in an argument, at any depth below constructions and arrays. -/
inductive TypeArgument.Holds : TypeArgument → Instantiation → Prop
  | here (n : Instantiation) : Holds (.constructed n.definition n.arguments) n
  | argument {definition : String} {arguments : List TypeArgument} {a : TypeArgument}
      {n : Instantiation} :
    a ∈ arguments → a.Holds n → Holds (.constructed definition arguments) n
  | element {a : TypeArgument} {n : Instantiation} : a.Holds n → Holds (.array a) n

namespace SymbolTable

/-- Below a definition that is not known, and below an array, an instantiation of a known definition
is not checked. -/
theorem nested_arguments_out_of_reach : boxTable.DistinctGenerics ∧
    (∃ symbols, boxTable.generics.get? sinkOfCaller.definition = some symbols) ∧
    ∀ argument ∈ [.constructed "Opaque`1" [sinkArgument], .array sinkArgument],
      argument.Holds sinkOfCaller ∧
      (boxTable.host.checkInstantiation {} (boxOf argument)).outcome = .ok () ∧
      ∃ d ∈ (boxTable.host.checkInstantiation {} sinkOfCaller).diagnostics,
        d ∉ (boxTable.host.checkInstantiation {} (boxOf argument)).diagnostics := by
  refine ⟨by decide, ⟨_, rfl⟩, ?_⟩
  intro argument ha
  rcases List.mem_cons.1 ha with rfl | ha
  · have hh : sinkArgument.Holds sinkOfCaller := .here _
    exact ⟨.argument (List.mem_singleton_self _) hh, by decide +kernel, by decide +kernel⟩
  · cases List.mem_singleton.1 ha
    exact ⟨.element (.here _), by decide +kernel, by decide +kernel⟩

end SymbolTable

end CapabilityFlow
