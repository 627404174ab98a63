import CapabilityFlow.Capabilities
import CapabilityFlow.Text

namespace CapabilityFlow

abbrev TypeName := String
abbrev MethodName := String
abbrev FieldName := String

structure GenericParameter where
  owner : String
  name : String
  deriving DecidableEq

/-- A declaration that can carry an annotation. -/
inductive Origin where
  | parameter (method : MethodName) (index : UInt32) (name : String)
  | returnValue (method : MethodName)
  | field (name : FieldName)
  | thisParameter (method : MethodName)
  | genericParameter (parameter : GenericParameter)
  deriving DecidableEq

inductive Shape where
  | parameter
  | returnValue
  | field
  | thisParameter
  | genericParameter
  deriving DecidableEq

def Shape.every : List Shape :=
  [.parameter, .returnValue, .field, .thisParameter, .genericParameter]

def Shape.index : Shape → Nat
  | .parameter => 0
  | .returnValue => 1
  | .field => 2
  | .thisParameter => 3
  | .genericParameter => 4

namespace Origin

def shape : Origin → Shape
  | .parameter .. => .parameter
  | .returnValue _ => .returnValue
  | .field _ => .field
  | .thisParameter _ => .thisParameter
  | .genericParameter _ => .genericParameter

def arguments : Origin → List String
  | .parameter method _ name => [name, method]
  | .returnValue method => [method]
  | .field name => [name]
  | .thisParameter method => [method]
  | .genericParameter p => [p.name, p.owner]

def text : Origin → String
  | .parameter method _ name => "parameter '" ++ name ++ "' of '" ++ method ++ "'"
  | .returnValue method => "return value of '" ++ method ++ "'"
  | .field name => "field '" ++ name ++ "'"
  | .thisParameter method => "implicit 'this' of '" ++ method ++ "'"
  | .genericParameter p => "generic parameter '" ++ p.name ++ "' of '" ++ p.owner ++ "'"

end Origin

def positionalName (index : UInt32) : String := "#" ++ Text.decimal index.toNat

inductive Value where
  | unknown
  | null
  | type (name : TypeName)
  | constant (text : String)
  /-- A value of which only the annotation of its origin is known. -/
  | annotated (origin : Origin) (capabilities : Capabilities)
  /-- A generic parameter that is constrained to have a parameterless constructor. -/
  | constructible (parameter : GenericParameter) (capabilities : Capabilities)
  deriving DecidableEq

def Value.text : Value → String
  | .unknown => "<unknown>"
  | .null => "null"
  | .type name => "typeof(" ++ name ++ ")"
  | .constant text => "\"" ++ text ++ "\""
  | .annotated origin capabilities => origin.text ++ " [" ++ capabilities.text ++ "]"
  | .constructible parameter capabilities =>
    parameter.name ++ " : new() [" ++ capabilities.text ++ "]"

end CapabilityFlow
