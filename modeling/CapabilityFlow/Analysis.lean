import CapabilityFlow.Evaluation
import CapabilityFlow.Text

namespace CapabilityFlow

structure Options where
  skipGenerated : Bool := true
  deriving DecidableEq

inductive Exemption where
  | declared
  | async
  | generated
  deriving DecidableEq

def Exemption.text : Exemption → String
  | .declared => "requires unreferenced code"
  | .async => "async method"
  | .generated => "contains compiler-generated code"

/-- An exemption that is declared counts before what the body looks like. -/
def MethodBody.exemption? (m : MethodBody) (host : Host) (options : Options) : Option Exemption :=
  if host.isExempt m.method then some .declared
  else if !options.skipGenerated then none
  else if m.isAsync then some .async
  else if m.isGenerated then some .generated
  else none

/-- The result of an analysis, and the marks that it made even if a violation ended it. -/
structure Verdict where
  result : Except Violation (List Diagnostic)
  marks : List Mark

/-- The diagnostics count only if nothing went wrong. -/
def Check.verdict {α : Type} (c : Check α) : Verdict :=
  ⟨c.outcome.map fun _ => c.diagnostics, c.marks⟩

def MethodBody.analyze (m : MethodBody) (host : Host) (options : Options) : Verdict :=
  match m.exemption? host options with
  | some _ => ⟨.ok [], []⟩
  | none => (m.pass host).verdict

inductive SiteOwner where
  | member (method : MethodName)
  | type (name : TypeName)
  deriving DecidableEq

structure InstantiationSite where
  owner : SiteOwner
  instantiation : Instantiation
  location : Location := {}

/-- Only a member can be exempt: the arguments of a base type are checked in any case. -/
def SiteOwner.isExempt (host : Host) : SiteOwner → Bool
  | .member method => host.isExempt method
  | .type _ => false

def InstantiationSite.analyze (site : InstantiationSite) (host : Host) : Verdict :=
  if site.owner.isExempt host then ⟨.ok [], []⟩
  else (host.checkInstantiation site.location site.instantiation).verdict

structure Config where
  skipGenerated : Bool := true
  /-- The number of workers; none is one for each processor. Reports do not depend on it. -/
  threads : Option UInt64 := none
  suppressed : List String := []
  failFast : Bool := false
  deriving DecidableEq

def codeMark : List Char := ['I', 'L']

def codeNumber? (cs : List Char) : Option Nat :=
  let digits := match cs with
    | '+' :: rest => rest
    | _ => cs
  (Text.decimal? digits).filter (· < 65536)

/-- The number of a written code: blanks around it do not count, nor does one mark before it. -/
def parseCode? (code : String) : Option Nat :=
  let cs := Text.trim code.toList
  codeNumber? (if codeMark.isPrefixOf cs then cs.drop codeMark.length else cs)

namespace Config

def suppressedCodes (config : Config) : List Nat := config.suppressed.filterMap parseCode?

def options (config : Config) : Options := ⟨config.skipGenerated⟩

def invalidCode? (config : Config) : Option String :=
  config.suppressed.find? fun code => (parseCode? code).isNone

end Config

end CapabilityFlow
