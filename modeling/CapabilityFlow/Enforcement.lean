import CapabilityFlow.Check
import CapabilityFlow.Host

namespace CapabilityFlow

structure Requirement where
  target : Origin
  required : Capabilities
  deriving DecidableEq

namespace Requirement

/-- Reports a value that carries less than is required. -/
def judgeAnnotated (r : Requirement) (location : Location) (source : Origin)
    (available : Capabilities) : List Event :=
  if available.satisfies r.required then []
  else
    let missing := available.missing r.required
    [.report ⟨.mismatch source.shape r.target.shape,
      r.target.arguments ++ source.arguments ++ [missing.text], location⟩]

/-- The events of one value; a constructor constraint grants that one constructor and no more. -/
def judge (r : Requirement) (resolve : String → Option TypeName) (location : Location) :
    Value → List Event
  | .constructible parameter available =>
    if r.required = Kind.publicParameterlessConstructor.set then []
    else r.judgeAnnotated location (.genericParameter parameter) available
  | .annotated source available => r.judgeAnnotated location source available
  | .type name => [.mark ⟨name, r.required⟩]
  | .constant text =>
    match resolve text with
    | some name => [.mark ⟨name, r.required⟩]
    | none => []
  | .null => []
  | .unknown => [.report ⟨.unverifiable r.target.shape, r.target.arguments, location⟩]

/-- The events of the values that reach a place, one value after the other. -/
def enforce (r : Requirement) (resolve : String → Option TypeName) (location : Location)
    (values : ValueSet Value) : List Event :=
  if r.required = ∅ then [] else values.toList.flatMap (r.judge resolve location)

end Requirement

namespace Host

def thisRequirement (host : Host) (method : MethodName) : Requirement :=
  ⟨.thisParameter method, host.thisCapabilities method⟩

def parameterRequirement (host : Host) (method : MethodName) (index : UInt32) : Requirement :=
  ⟨host.parameterOrigin method index, host.parameterCapabilities method index⟩

def returnRequirement (host : Host) (method : MethodName) : Requirement :=
  ⟨.returnValue method, host.returnCapabilities method⟩

def fieldRequirement (host : Host) (field : FieldName) : Requirement :=
  ⟨.field field, host.fieldCapabilities field⟩

def genericRequirement (host : Host) (parameter : GenericParameter) : Requirement :=
  ⟨.genericParameter parameter, (host.genericDeclaration parameter).capabilities⟩

def enforce (host : Host) (requirement : Requirement) (location : Location)
    (values : ValueSet Value) : Check Unit :=
  .emit (requirement.enforce host.resolve location values)

end Host

namespace Host

def withParameters (host : Host) (definition : String) (supplied : Nat)
    (next : List GenericParameter → Check Unit) : Check Unit :=
  match host.genericParameters definition with
  | none => .done ()
  | some parameters =>
    if parameters.length = supplied then next parameters
    else .fail (.arityMismatch definition parameters.length supplied)

def enforceArgument (host : Host) (location : Location) (parameter : GenericParameter)
    (argument : TypeArgument) : Check Unit :=
  match host.argumentValue? argument with
  | some value => host.enforce (host.genericRequirement parameter) location (.one value)
  | none => .done ()

mutual

def checkArgument (host : Host) (location : Location) (parameter : GenericParameter) :
    TypeArgument → Check Unit
  | .constructed definition arguments => do
    host.withParameters definition arguments.length fun parameters =>
      checkArguments host location parameters arguments
    host.enforceArgument location parameter (.constructed definition arguments)
  | .named name => host.enforceArgument location parameter (.named name)
  | .array element => host.enforceArgument location parameter (.array element)
  | .parameter supplied => host.enforceArgument location parameter (.parameter supplied)
  | .missing => host.enforceArgument location parameter .missing

def checkArguments (host : Host) (location : Location) :
    List GenericParameter → List TypeArgument → Check Unit
  | parameter :: parameters, argument :: arguments => do
    checkArgument host location parameter argument
    checkArguments host location parameters arguments
  | _, _ => .done ()

end

def checkInstantiation (host : Host) (location : Location) (i : Instantiation) : Check Unit :=
  host.withParameters i.definition i.arguments.length fun parameters =>
    host.checkArguments location parameters i.arguments

end Host

end CapabilityFlow
