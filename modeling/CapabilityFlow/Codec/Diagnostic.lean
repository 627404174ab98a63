import CapabilityFlow.Diagnostic
import CapabilityFlow.Json.Decode
import CapabilityFlow.Symbol

namespace CapabilityFlow

namespace Capabilities

def encode (c : Capabilities) : Json := .str c.text

def decode : Decoder Capabilities
  | .str s => (parse s).mapError .capabilities
  | _ => .error .malformed

end Capabilities

namespace GenericParameter

def encode (p : GenericParameter) : Json :=
  .obj [("owner", .str p.owner), ("name", .str p.name)]

def decode : Decoder GenericParameter :=
  ((Fields.required "owner" .text).and (.required "name" .text)).decodeAs
    fun (owner, name) => ⟨owner, name⟩

end GenericParameter

namespace Shape

def name : Shape → String
  | .parameter => "Parameter"
  | .returnValue => "ReturnValue"
  | .field => "Field"
  | .thisParameter => "ThisParameter"
  | .genericParameter => "GenericParameter"

def encode (s : Shape) : Json := .str s.name

def decode : Decoder Shape := Variant.decode (every.map fun s => .unit s.name s)

end Shape

namespace Origin

def encode : Origin → Json
  | .parameter method index name =>
    .obj [("Parameter", .obj
      [("method", .str method), ("index", .nat index.toNat), ("name", .str name)])]
  | .returnValue method => .obj [("ReturnValue", .obj [("method", .str method)])]
  | .field name => .obj [("Field", .obj [("field", .str name)])]
  | .thisParameter method => .obj [("ThisParameter", .obj [("method", .str method)])]
  | .genericParameter p => .obj [("GenericParameter", .obj [("parameter", p.encode)])]

def decode : Decoder Origin := Variant.decode [
  .of "Parameter" (fun (method, index, name) => .parameter method index name)
    (((Fields.required "method" .text).and
      ((Fields.required "index" .word32).and (.required "name" .text))).decode),
  .of "ReturnValue" .returnValue ((Fields.required "method" .text).decode),
  .of "Field" .field ((Fields.required "field" .text).decode),
  .of "ThisParameter" .thisParameter ((Fields.required "method" .text).decode),
  .of "GenericParameter" .genericParameter
    ((Fields.required "parameter" GenericParameter.decode).decode)]

end Origin

namespace Value

def encode : Value → Json
  | .unknown => .str "Unknown"
  | .null => .str "Null"
  | .type name => .obj [("ConcreteType", .str name)]
  | .constant text => .obj [("ConstantString", .str text)]
  | .annotated origin capabilities =>
    .obj [("Annotated", .obj
      [("origin", origin.encode), ("capabilities", capabilities.encode)])]
  | .constructible parameter capabilities =>
    .obj [("GenericParameterWithCtorConstraint", .obj
      [("parameter", parameter.encode), ("capabilities", capabilities.encode)])]

def decode : Decoder Value := Variant.decode [
  .unit "Unknown" .unknown,
  .unit "Null" .null,
  .of "ConcreteType" .type .text,
  .of "ConstantString" .constant .text,
  .of "Annotated" (fun (origin, capabilities) => .annotated origin capabilities)
    (((Fields.required "origin" Origin.decode).and
      (.required "capabilities" Capabilities.decode)).decode),
  .of "GenericParameterWithCtorConstraint"
    (fun (parameter, capabilities) => .constructible parameter capabilities)
    (((Fields.required "parameter" GenericParameter.decode).and
      (.required "capabilities" Capabilities.decode)).decode)]

end Value

namespace Location

def encode (l : Location) : Json :=
  .obj [("line", .nat l.line.toNat), ("column", .nat l.column.toNat)]

def decode : Decoder Location :=
  ((Fields.required "line" .word32).and (.required "column" .word32)).decodeAs
    fun (line, column) => ⟨line, column⟩

end Location

namespace Placement

def every : List Placement := [.field, .parameter, .property, .returnValue, .method]

def name : Placement → String
  | .field => "Field"
  | .parameter => "Parameter"
  | .property => "Property"
  | .returnValue => "ReturnValue"
  | .method => "Method"

def encode (p : Placement) : Json := .str p.name

def decode : Decoder Placement := Variant.decode (every.map fun p => .unit p.name p)

end Placement

namespace DiagnosticKind

def encode : DiagnosticKind → Json
  | .unverifiable target => .obj [("Unverifiable", .obj [("target", target.encode)])]
  | .mismatch source target =>
    .obj [("Mismatch", .obj [("source", source.encode), ("target", target.encode)])]
  | .invalidPlacement placement => .obj [("InvalidPlacement", placement.encode)]

def decode : Decoder DiagnosticKind := Variant.decode [
  .of "Unverifiable" .unverifiable ((Fields.required "target" Shape.decode).decode),
  .of "Mismatch" (fun (source, target) => .mismatch source target)
    (((Fields.required "source" Shape.decode).and (.required "target" Shape.decode)).decode),
  .of "InvalidPlacement" .invalidPlacement Placement.decode]

end DiagnosticKind

namespace Diagnostic

def encode (d : Diagnostic) : Json :=
  .obj [("kind", d.kind.encode), ("arguments", .arr (d.arguments.map .str)),
    ("location", d.location.encode)]

def decode : Decoder Diagnostic :=
  ((Fields.required "kind" DiagnosticKind.decode).and
    ((Fields.required "arguments" (.list .text)).and
      (.required "location" Location.decode))).decodeAs
    fun (kind, arguments, location) => ⟨kind, arguments, location⟩

end Diagnostic

end CapabilityFlow
