import CapabilityFlow.Host
import CapabilityFlow.OrderedMap
import CapabilityFlow.Text

namespace CapabilityFlow

structure ParameterSymbol where
  name : String
  capabilities : Capabilities := ∅
  deriving DecidableEq

structure MethodSymbol where
  declaringType : Option TypeName := none
  parameters : List ParameterSymbol := []
  returnCapabilities : Capabilities := ∅
  thisCapabilities : Capabilities := ∅
  isExempt : Bool := false
  deriving DecidableEq

structure TypeSymbol where
  baseType : Option TypeName := none
  isExempt : Bool := false
  deriving DecidableEq

structure GenericSymbol where
  name : String
  capabilities : Capabilities := ∅
  isConstructible : Bool := false
  deriving DecidableEq

/-- Declarations; generic parameters are listed under the type or method that declares them. -/
structure SymbolTable where
  methods : OrderedMap MethodName MethodSymbol := ∅
  fields : OrderedMap FieldName Capabilities := ∅
  types : OrderedMap TypeName TypeSymbol := ∅
  generics : OrderedMap String (List GenericSymbol) := ∅
  deriving DecidableEq

namespace SymbolTable

instance : EmptyCollection SymbolTable := ⟨{}⟩
instance : Inhabited SymbolTable := ⟨∅⟩

def method (table : SymbolTable) (name : MethodName) (change : MethodSymbol → MethodSymbol) :
    SymbolTable :=
  { table with methods := table.methods.modify name {} change }

def type (table : SymbolTable) (name : TypeName) (change : TypeSymbol → TypeSymbol) :
    SymbolTable :=
  { table with types := table.types.modify name {} change }

def field (table : SymbolTable) (name : FieldName) (capabilities : Capabilities) : SymbolTable :=
  { table with fields := table.fields.insert name capabilities }

def generic (table : SymbolTable) (definition : String) (parameter : GenericSymbol) :
    SymbolTable :=
  { table with generics := table.generics.modify definition [] (· ++ [parameter]) }

def parameter? (table : SymbolTable) (method : MethodName) (index : UInt32) :
    Option ParameterSymbol := do
  let symbol ← table.methods.get? method
  symbol.parameters[index.toNat]?

/-- The first parameter of a definition that has the name. -/
def generic? (table : SymbolTable) (parameter : GenericParameter) : Option GenericSymbol := do
  let symbols ← table.generics.get? parameter.owner
  symbols.find? (·.name = parameter.name)

def typeIsExempt (table : SymbolTable) (name : TypeName) : Bool :=
  ((table.types.get? name).map (·.isExempt)).getD false

def methodIsExempt (table : SymbolTable) (method : MethodName) : Bool :=
  match table.methods.get? method with
  | none => false
  | some symbol =>
    symbol.isExempt || (symbol.declaringType.map table.typeIsExempt).getD false

/-- The declared type that a text names; what follows a comma qualifies the name. -/
def resolve (table : SymbolTable) (text : String) : Option TypeName :=
  let name := String.ofList (Text.trim (text.toList.takeWhile (· ≠ ',')))
  if table.types.contains name then some name else none

theorem resolve_eq_some {table : SymbolTable} {text : String} {name : TypeName} :
    table.resolve text = some name ↔ table.types.contains name = true ∧
      Text.trim (text.toList.takeWhile (· ≠ ',')) = name.toList := by
  rw [resolve, Option.ite_none_right_eq_some, Option.some.injEq]
  constructor
  · rintro ⟨hcontains, rfl⟩
    exact ⟨hcontains, String.toList_ofList.symm⟩
  · rintro ⟨hcontains, hname⟩
    rw [hname, String.ofList_toList]
    exact ⟨hcontains, rfl⟩

def host (table : SymbolTable) : Host where
  parameterCapabilities method index :=
    ((table.parameter? method index).map (·.capabilities)).getD ∅
  parameterName method index :=
    ((table.parameter? method index).map (·.name)).getD (positionalName index)
  returnCapabilities method := ((table.methods.get? method).map (·.returnCapabilities)).getD ∅
  thisCapabilities method := ((table.methods.get? method).map (·.thisCapabilities)).getD ∅
  fieldCapabilities field := (table.fields.get? field).getD ∅
  genericDeclaration parameter :=
    match table.generic? parameter with
    | some symbol => ⟨symbol.capabilities, symbol.isConstructible⟩
    | none => {}
  genericParameters definition :=
    (table.generics.get? definition).map (·.map fun symbol => ⟨definition, symbol.name⟩)
  baseType name := (table.types.get? name).bind (·.baseType)
  isExempt := table.methodIsExempt
  resolve := table.resolve

end SymbolTable

end CapabilityFlow
