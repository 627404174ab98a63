import CapabilityFlow.Capabilities
import CapabilityFlow.FlowGraph
import CapabilityFlow.Symbol

namespace CapabilityFlow

structure GenericDeclaration where
  capabilities : Capabilities := ∅
  isConstructible : Bool := false
  deriving DecidableEq

/-- Declarations and their annotations; what is not annotated requires and carries nothing. -/
structure Host where
  parameterCapabilities : MethodName → UInt32 → Capabilities
  parameterName : MethodName → UInt32 → String := fun _ index => positionalName index
  returnCapabilities : MethodName → Capabilities
  thisCapabilities : MethodName → Capabilities
  fieldCapabilities : FieldName → Capabilities
  genericDeclaration : GenericParameter → GenericDeclaration
  genericParameters : String → Option (List GenericParameter)
  baseType : TypeName → Option TypeName
  isExempt : MethodName → Bool
  resolve : String → Option TypeName

namespace Host

def arrayType : TypeName := "System.Array"

/-- The method whose result is the base type of a type. -/
def baseTypeGetter : MethodName := "System.Type.get_BaseType()"

def parameterOrigin (host : Host) (method : MethodName) (index : UInt32) : Origin :=
  .parameter method index (host.parameterName method index)

def parameterValue (host : Host) (method : MethodName) (index : UInt32) : Value :=
  .annotated (host.parameterOrigin method index) (host.parameterCapabilities method index)

def thisValue (host : Host) (method : MethodName) : Value :=
  .annotated (.thisParameter method) (host.thisCapabilities method)

def fieldValue (host : Host) (field : FieldName) : Value :=
  .annotated (.field field) (host.fieldCapabilities field)

def callValue (host : Host) (method : MethodName) : Value :=
  .annotated (.returnValue method) (host.returnCapabilities method)

def genericValue (host : Host) (parameter : GenericParameter) : Value :=
  let declaration := host.genericDeclaration parameter
  if declaration.isConstructible then .constructible parameter declaration.capabilities
  else .annotated (.genericParameter parameter) declaration.capabilities

def argumentValue? (host : Host) : TypeArgument → Option Value
  | .named name => some (.type name)
  | .array _ => some (.type arrayType)
  | .parameter parameter => some (host.genericValue parameter)
  | .constructed definition _ => some (.type definition)
  | .missing => none

def baseValue (host : Host) : Value → Value
  | .annotated _ capabilities =>
    .annotated (.returnValue baseTypeGetter) capabilities.ofBaseType
  | .constructible _ capabilities =>
    .annotated (.returnValue baseTypeGetter) capabilities.ofBaseType
  | .type name =>
    match host.baseType name with
    | some base => .type base
    | none => .null
  | .null => .null
  | .constant _ => .unknown
  | .unknown => .unknown

def baseValues (host : Host) (values : ValueSet Value) : ValueSet Value :=
  values.map host.baseValue

end Host

end CapabilityFlow
