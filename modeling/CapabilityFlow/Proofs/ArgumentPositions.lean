import CapabilityFlow.Proofs.NestedArguments
import CapabilityFlow.Proofs.ParsedTables

namespace CapabilityFlow

namespace GenericSymbol

def declaration (symbol : GenericSymbol) : GenericDeclaration :=
  ⟨symbol.capabilities, symbol.isConstructible⟩

/-- What a parameter of a definition requires by its own declaration. -/
def requirement (definition : String) (symbol : GenericSymbol) : Requirement :=
  ⟨.genericParameter ⟨definition, symbol.name⟩, symbol.capabilities⟩

/-- Parameters of one name are declared alike. -/
def Consistent (symbols : List GenericSymbol) : Prop :=
  ∀ s ∈ symbols, ∀ t ∈ symbols, s.name = t.name → s.declaration = t.declaration

instance (symbols : List GenericSymbol) : Decidable (Consistent symbols) :=
  inferInstanceAs (Decidable (∀ s ∈ symbols, ∀ t ∈ symbols, _ → _))

theorem consistent_of_nodup {symbols : List GenericSymbol} (h : (symbols.map (·.name)).Nodup) :
    Consistent symbols := by
  intro s hs t ht hname
  rw [List.inj_on_of_nodup_map h hs ht hname]

end GenericSymbol

def DeclarationStep.generic? (definition : String) : DeclarationStep → Option GenericSymbol
  | generic d symbol => if d = definition then some symbol else none
  | method _ _ | field _ _ | type _ _ | mark _ => none

namespace SymbolTable

def genericsOf (table : SymbolTable) (definition : String) : List GenericSymbol :=
  (table.generics.get? definition).getD []

theorem genericsOf_generic (table : SymbolTable) (d definition : String) (symbol : GenericSymbol) :
    (table.generic d symbol).genericsOf definition =
      table.genericsOf definition ++ if d = definition then [symbol] else [] := by
  simp only [genericsOf, generic, OrderedMap.modify, OrderedMap.get?_insert]
  by_cases h : d = definition
  · simp [h]
  · simp [h]

end SymbolTable

namespace MarkedTable

variable {t : MarkedTable} {definition : String}

theorem genericsOf_apply (s : DeclarationStep) (t : MarkedTable) :
    (s.apply t).table.genericsOf definition =
      t.table.genericsOf definition ++ (s.generic? definition).toList := by
  cases s with
  | generic d symbol =>
    rw [DeclarationStep.apply, SymbolTable.genericsOf_generic, DeclarationStep.generic?]
    split <;> rfl
  | method | field | type | mark => exact (List.append_nil _).symm

/-- The parameters of a definition are those it had, and behind them those declared since. -/
theorem genericsOf_declareAll (steps : List DeclarationStep) (t : MarkedTable) :
    (t.declareAll steps).table.genericsOf definition =
      t.table.genericsOf definition ++ steps.filterMap (·.generic? definition) := by
  induction steps generalizing t with
  | nil => exact (List.append_nil _).symm
  | cons s steps ih =>
    rw [declareAll, List.foldl_cons, ← declareAll, ih, genericsOf_apply, List.append_assoc]
    cases hs : s.generic? definition with
    | none => rw [List.filterMap_cons_none hs, Option.toList_none, List.nil_append]
    | some symbol => rw [List.filterMap_cons_some hs, Option.toList_some, List.singleton_append]

end MarkedTable

namespace Host

variable {host : Host} {location : Location}

def checkInner (host : Host) (location : Location) : TypeArgument → Check Unit
  | .constructed definition arguments => host.checkInstantiation location ⟨definition, arguments⟩
  | .named _ | .array _ | .parameter _ | .missing => .done ()

def checkAgainst (host : Host) (location : Location) (r : Requirement) (argument : TypeArgument) :
    Check Unit :=
  (host.checkInner location argument).andThen fun _ =>
    match host.argumentValue? argument with
    | some value => host.enforce r location (.one value)
    | none => .done ()

theorem checkArgument_eq (parameter : GenericParameter) (argument : TypeArgument) :
    host.checkArgument location parameter argument =
      host.checkAgainst location (host.genericRequirement parameter) argument := by
  cases argument with
  | constructed definition arguments =>
    exact checkArgument_constructed parameter ⟨definition, arguments⟩
  | named | array | parameter | missing => rw [checkArgument]; rfl

/-- An instantiation that fits is checked argument by argument, each against what is required by
the parameter at its position. -/
theorem checkInstantiation_eq_all {i : Instantiation} {parameters : List GenericParameter}
    (hk : host.genericParameters i.definition = some parameters)
    (hl : parameters.length = i.arguments.length) :
    host.checkInstantiation location i = .all ((parameters.zip i.arguments).map fun pair =>
      host.checkAgainst location (host.genericRequirement pair.1) pair.2) := by
  simp only [checkInstantiation, withParameters, hk, if_pos hl, checkArguments_eq_all,
    checkArgument_eq]

end Host

namespace SymbolTable

variable {table : SymbolTable} {definition : String} {symbols : List GenericSymbol}
  {symbol : GenericSymbol}

/-- Of the parameters of one name, the first one counts. -/
theorem exists_first (h : table.generics.get? definition = some symbols) (hs : symbol ∈ symbols) :
    ∃ first ∈ symbols, first.name = symbol.name ∧
      table.host.genericDeclaration ⟨definition, symbol.name⟩ = first.declaration := by
  have hsome : (symbols.find? (·.name = symbol.name)).isSome :=
    List.find?_isSome.2 ⟨symbol, hs, decide_eq_true rfl⟩
  obtain ⟨first, hfirst⟩ := Option.isSome_iff_exists.1 hsome
  have hg : table.generic? ⟨definition, symbol.name⟩ = some first := by
    simp only [generic?, h, hfirst, Option.bind_eq_bind, Option.bind_some]
  refine ⟨first, List.mem_of_find?_eq_some hfirst, ?_, ?_⟩
  · simpa using List.find?_some hfirst
  · simp only [host, hg, GenericSymbol.declaration]

theorem genericDeclaration_iff_consistent (h : table.generics.get? definition = some symbols) :
    (∀ symbol ∈ symbols,
      table.host.genericDeclaration ⟨definition, symbol.name⟩ = symbol.declaration) ↔
      GenericSymbol.Consistent symbols := by
  constructor
  · intro hown s hs t ht hname
    rw [← hown s hs, ← hown t ht, hname]
  · intro hconsistent symbol hsymbol
    obtain ⟨first, hfirst, hname, hlookup⟩ := exists_first h hsymbol
    rw [hlookup]
    exact hconsistent first hfirst symbol hsymbol hname

theorem genericRequirement_of_consistent (h : table.generics.get? definition = some symbols)
    (hc : GenericSymbol.Consistent symbols) (hs : symbol ∈ symbols) :
    table.host.genericRequirement ⟨definition, symbol.name⟩ = symbol.requirement definition := by
  rw [Host.genericRequirement, (genericDeclaration_iff_consistent h).2 hc symbol hs]
  rfl

theorem checkInstantiation_of_consistent (h : table.generics.get? definition = some symbols)
    (hc : GenericSymbol.Consistent symbols) {arguments : List TypeArgument}
    (hl : arguments.length = symbols.length) (location : Location) :
    table.host.checkInstantiation location ⟨definition, arguments⟩ =
      .all ((symbols.zip arguments).map fun pair =>
        table.host.checkAgainst location (pair.1.requirement definition) pair.2) := by
  have hlength : (symbols.map fun symbol => (⟨definition, symbol.name⟩ : GenericParameter)).length =
      arguments.length := by rw [List.length_map, hl]
  rw [Host.checkInstantiation_eq_all (host_genericParameters h) hlength, List.zip_map_left,
    List.map_map]
  congr 1
  apply List.map_congr_left
  rintro ⟨symbol, argument⟩ hpair
  have hrequirement := genericRequirement_of_consistent h hc (List.of_mem_zip hpair).1
  simp only [Function.comp_apply, Prod.map_apply, id_eq, hrequirement]

end SymbolTable

namespace MarkedTable

/-- However a table came about, a definition that it knows has the parameters it had at first and
those declared since, in this order. Each reference to a parameter leads back to what is declared at
its position exactly if parameters of one name are declared alike, and then each argument of an
instantiation is checked against the capabilities declared at its own position. -/
theorem positions_consistent {t : MarkedTable} {steps : List DeclarationStep} {definition : String}
    {symbols : List GenericSymbol}
    (h : (t.declareAll steps).table.generics.get? definition = some symbols) :
    let host := (t.declareAll steps).host
    symbols = t.table.genericsOf definition ++ steps.filterMap (·.generic? definition) ∧
    (∃ parameters, host.genericParameters definition = some parameters ∧
      parameters.length = symbols.length ∧
      ((∀ (k : Nat) parameter symbol, parameters[k]? = some parameter →
        symbols[k]? = some symbol → host.genericDeclaration parameter = symbol.declaration) ↔
        GenericSymbol.Consistent symbols)) ∧
    (GenericSymbol.Consistent symbols → ∀ (location : Location) (arguments : List TypeArgument),
      arguments.length = symbols.length →
      host.checkInstantiation location ⟨definition, arguments⟩ =
        .all ((symbols.zip arguments).map fun pair =>
          host.checkAgainst location (pair.1.requirement definition) pair.2)) := by
  intro host
  refine ⟨?_, ⟨_, SymbolTable.host_genericParameters h, List.length_map _, ?_⟩, ?_⟩
  · rw [← genericsOf_declareAll, SymbolTable.genericsOf, h, Option.getD_some]
  · rw [← SymbolTable.genericDeclaration_iff_consistent h]
    constructor
    · intro hpositions symbol hsymbol
      obtain ⟨k, hk⟩ := List.mem_iff_getElem?.1 hsymbol
      exact hpositions k _ symbol (by rw [List.getElem?_map, hk, Option.map_some]) hk
    · intro hown k parameter symbol hparameter hsymbol
      rw [List.getElem?_map, hsymbol, Option.map_some] at hparameter
      cases hparameter
      exact hown symbol (List.mem_of_getElem? hsymbol)
  · intro hconsistent location arguments hlength
    exact SymbolTable.checkInstantiation_of_consistent h hconsistent hlength location

def cacheTable : MarkedTable :=
  { table := { generics := .ofList [("Cache`2", [{ name := "TKey" }])] } }

def cacheSteps : List DeclarationStep :=
  [.generic "Caller`1" { name := "TIn" }, .mark ⟨"Widget", Kind.publicEvents.set⟩,
    .generic "Cache`2"
      { name := "TValue", capabilities := Kind.publicMethods.set, isConstructible := true }]

def cacheSymbols : List GenericSymbol :=
  [{ name := "TKey" },
    { name := "TValue", capabilities := Kind.publicMethods.set, isConstructible := true }]

theorem positions_consistent_cache :
    let t := cacheTable.declareAll cacheSteps
    t.table.generics.get? "Cache`2" = some cacheSymbols ∧ GenericSymbol.Consistent cacheSymbols ∧
    (∀ location, t.host.checkInstantiation location
        ⟨"Cache`2", [.named "Widget", .parameter ⟨"Caller`1", "TIn"⟩]⟩ =
      .all [t.host.checkAgainst location ⟨.genericParameter ⟨"Cache`2", "TKey"⟩, ∅⟩
          (.named "Widget"),
        t.host.checkAgainst location
          ⟨.genericParameter ⟨"Cache`2", "TValue"⟩, Kind.publicMethods.set⟩
          (.parameter ⟨"Caller`1", "TIn"⟩)]) ∧
    (t.host.checkInstantiation ⟨3, 1⟩
      ⟨"Cache`2", [.named "Widget", .parameter ⟨"Caller`1", "TIn"⟩]⟩).diagnostics =
        [⟨.mismatch .genericParameter .genericParameter,
          ["TValue", "Cache`2", "TIn", "Caller`1", "PublicMethods"], ⟨3, 1⟩⟩] := by
  intro t
  have hsymbols : t.table.generics.get? "Cache`2" = some cacheSymbols := by decide
  have hconsistent : GenericSymbol.Consistent cacheSymbols := by decide
  obtain ⟨-, -, hpositions⟩ := positions_consistent hsymbols
  exact ⟨hsymbols, hconsistent, fun location => hpositions hconsistent location _ rfl,
    by decide +kernel⟩

/-- A definition whose two parameters have one name, and of which only the second one is
annotated. -/
def pairSteps : List DeclarationStep :=
  [.generic "Pair`2" { name := "T" },
    .generic "Pair`2" { name := "T", capabilities := Kind.publicMethods.set }]

/-- The second argument is held against what the first parameter is declared with: its type is not
marked, though the declaration at its own position would have it marked. -/
theorem second_position_overlooked :
    let t := declareAll ⟨∅, ∅⟩ pairSteps
    t.table.generics.get? "Pair`2" =
      some [{ name := "T" }, { name := "T", capabilities := Kind.publicMethods.set }] ∧
    t.host.genericParameters "Pair`2" = some [⟨"Pair`2", "T"⟩, ⟨"Pair`2", "T"⟩] ∧
    t.host.genericDeclaration ⟨"Pair`2", "T"⟩ = {} ∧
    t.host.genericDeclaration ⟨"Pair`2", "T"⟩ ≠
      GenericSymbol.declaration { name := "T", capabilities := Kind.publicMethods.set } ∧
    (t.host.checkInstantiation {} ⟨"Pair`2", [.named "Widget", .named "Gadget"]⟩).events = [] ∧
    (t.host.checkAgainst {}
      (GenericSymbol.requirement "Pair`2"
        { name := "T", capabilities := Kind.publicMethods.set })
      (.named "Gadget")).events = [.mark ⟨"Gadget", Kind.publicMethods.set⟩] := by
  decide +kernel

end MarkedTable

end CapabilityFlow
