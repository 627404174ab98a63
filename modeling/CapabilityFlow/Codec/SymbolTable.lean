import CapabilityFlow.Codec.Diagnostic
import CapabilityFlow.SymbolTable

namespace CapabilityFlow

def encodeOptionText : Option String → Json
  | none => .null
  | some s => .str s

def OrderedMap.encode {α : Type} (encodeValue : α → Json) (m : OrderedMap String α) : Json :=
  .obj (m.entries.map fun entry => (entry.1, encodeValue entry.2))

namespace ParameterSymbol

def encode (p : ParameterSymbol) : Json :=
  .obj [("name", .str p.name), ("capabilities", p.capabilities.encode)]

def decode : Decoder ParameterSymbol :=
  ((Fields.required "name" .text).and
    (.optional "capabilities" ∅ Capabilities.decode)).decodeAs
    fun (name, capabilities) => ⟨name, capabilities⟩

end ParameterSymbol

namespace MethodSymbol

def encode (m : MethodSymbol) : Json :=
  .obj [("declaring_type", encodeOptionText m.declaringType),
    ("parameters", .arr (m.parameters.map ParameterSymbol.encode)),
    ("return_capabilities", m.returnCapabilities.encode),
    ("this_capabilities", m.thisCapabilities.encode),
    ("requires_unreferenced_code", .bool m.isExempt)]

def decode : Decoder MethodSymbol :=
  ((Fields.optional "declaring_type" none (.option .text)).and
    ((Fields.optional "parameters" [] (.list ParameterSymbol.decode)).and
      ((Fields.optional "return_capabilities" ∅ Capabilities.decode).and
        ((Fields.optional "this_capabilities" ∅ Capabilities.decode).and
          (.optional "requires_unreferenced_code" false .bool))))).decodeAs
    fun (declaringType, parameters, returnCapabilities, thisCapabilities, isExempt) =>
      ⟨declaringType, parameters, returnCapabilities, thisCapabilities, isExempt⟩

end MethodSymbol

namespace TypeSymbol

def encode (t : TypeSymbol) : Json :=
  .obj [("base_type", encodeOptionText t.baseType),
    ("requires_unreferenced_code", .bool t.isExempt)]

def decode : Decoder TypeSymbol :=
  ((Fields.optional "base_type" none (.option .text)).and
    (.optional "requires_unreferenced_code" false .bool)).decodeAs
    fun (baseType, isExempt) => ⟨baseType, isExempt⟩

end TypeSymbol

namespace GenericSymbol

def encode (g : GenericSymbol) : Json :=
  .obj [("name", .str g.name), ("capabilities", g.capabilities.encode),
    ("has_default_constructor_constraint", .bool g.isConstructible)]

def decode : Decoder GenericSymbol :=
  ((Fields.required "name" .text).and
    ((Fields.optional "capabilities" ∅ Capabilities.decode).and
      (.optional "has_default_constructor_constraint" false .bool))).decodeAs
    fun (name, capabilities, isConstructible) => ⟨name, capabilities, isConstructible⟩

end GenericSymbol

namespace SymbolTable

def encode (table : SymbolTable) : Json :=
  .obj [("methods", table.methods.encode MethodSymbol.encode),
    ("fields", table.fields.encode Capabilities.encode),
    ("types", table.types.encode TypeSymbol.encode),
    ("generics", table.generics.encode fun symbols => .arr (symbols.map GenericSymbol.encode))]

def decode : Decoder SymbolTable :=
  ((Fields.optional "methods" ∅ (.map MethodSymbol.decode)).and
    ((Fields.optional "fields" ∅ (.map Capabilities.decode)).and
      ((Fields.optional "types" ∅ (.map TypeSymbol.decode)).and
        (.optional "generics" ∅ (.map (.list GenericSymbol.decode)))))).decodeAs
    fun (methods, fields, types, generics) => ⟨methods, fields, types, generics⟩

end SymbolTable

end CapabilityFlow
