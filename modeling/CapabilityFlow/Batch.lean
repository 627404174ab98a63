import CapabilityFlow.Analysis
import CapabilityFlow.Capabilities
import CapabilityFlow.Diagnostic

namespace CapabilityFlow

inductive DeclarationSite where
  | field
  | property
  | returnValue
  | parameter (method : MethodName)
  | method
  deriving DecidableEq

structure Declaration where
  name : String
  site : DeclarationSite
  capabilities : Capabilities
  /-- Whether a type or a string is held there; for a method, whether its type is one. -/
  holdsType : Bool
  location : Location := {}
  deriving DecidableEq

def DeclarationSite.placement : DeclarationSite → Placement
  | field => .field
  | property => .property
  | returnValue => .returnValue
  | parameter _ => .parameter
  | method => .method

def DeclarationSite.arguments (name : String) : DeclarationSite → List String
  | field | property | returnValue => [name]
  | parameter owner => [name, owner]
  | method => []

def Declaration.misplaced? (d : Declaration) : Option Diagnostic :=
  if d.capabilities = ∅ ∨ d.holdsType then none
  else some ⟨.invalidPlacement d.site.placement, d.site.arguments d.name, d.location⟩

def Declaration.validateAll (ds : List Declaration) : List Diagnostic :=
  ds.filterMap Declaration.misplaced?

inductive Outcome where
  | completed (diagnostics : List Diagnostic) (suppressed : Nat)
  | exempt (reason : Exemption)
  | aborted (violation : Violation)
  | cancelled
  deriving DecidableEq

structure MethodReport where
  method : MethodName
  outcome : Outcome
  deriving DecidableEq

structure BatchReport where
  methods : List MethodReport := []
  deriving DecidableEq

namespace Outcome

def diagnostics : Outcome → List Diagnostic
  | completed diagnostics _ => diagnostics
  | _ => []

def suppressed : Outcome → Nat
  | completed _ suppressed => suppressed
  | _ => 0

def isCompleted : Outcome → Bool
  | completed .. => true
  | _ => false

def isExempt : Outcome → Bool
  | exempt _ => true
  | _ => false

def isCancelled : Outcome → Bool
  | cancelled => true
  | _ => false

def isAborted : Outcome → Bool
  | aborted _ => true
  | _ => false

def violation? : Outcome → Option Violation
  | aborted violation => some violation
  | _ => none

def isClean : Outcome → Bool
  | completed diagnostics _ => diagnostics.isEmpty
  | exempt _ => true
  | aborted _ | cancelled => false

end Outcome

namespace BatchReport

def diagnostics (r : BatchReport) : List (MethodName × Diagnostic) :=
  r.methods.flatMap fun m => m.outcome.diagnostics.map (m.method, ·)

def diagnosticCount (r : BatchReport) : Nat := r.diagnostics.length

def suppressedCount (r : BatchReport) : Nat :=
  r.methods.foldr (fun m n => m.outcome.suppressed + n) 0

def completedCount (r : BatchReport) : Nat := r.methods.countP (·.outcome.isCompleted)

def exemptCount (r : BatchReport) : Nat := r.methods.countP (·.outcome.isExempt)

def cancelledCount (r : BatchReport) : Nat := r.methods.countP (·.outcome.isCancelled)

def aborted (r : BatchReport) : List (MethodName × Violation) :=
  r.methods.filterMap fun m => m.outcome.violation?.map (m.method, ·)

def isClean (r : BatchReport) : Bool := r.methods.all (·.outcome.isClean)

end BatchReport

inductive SiteOutcome where
  | checked (diagnostics : List Diagnostic)
  | aborted (violation : Violation)
  | cancelled
  deriving DecidableEq

namespace SiteOutcome

def diagnostics : SiteOutcome → List Diagnostic
  | checked diagnostics => diagnostics
  | aborted _ | cancelled => []

def isAborted : SiteOutcome → Bool
  | aborted _ => true
  | _ => false

def isCancelled : SiteOutcome → Bool
  | cancelled => true
  | _ => false

end SiteOutcome

structure SiteFailure where
  index : Nat
  violation : Violation
  deriving DecidableEq

structure DeclarationReport where
  diagnostics : List Diagnostic := []
  suppressed : Nat := 0
  aborted : List SiteFailure := []
  cancelled : Nat := 0
  deriving DecidableEq

def DeclarationReport.isClean (r : DeclarationReport) : Bool :=
  r.diagnostics.isEmpty && r.aborted.isEmpty && r.cancelled == 0

/-- Runs jobs in their order and gathers their marks; once stopped, the jobs left are given up. -/
def runJobs {α β : Type} (run : α → β × List Mark) (stops : β → Bool) (giveUp : α → β) :
    Bool → List α → List β × List Mark
  | _, [] => ([], [])
  | stopped, job :: jobs =>
    let (result, marks) := if stopped then (giveUp job, []) else run job
    let (results, later) := runJobs run stops giveUp (stopped || stops result) jobs
    (result :: results, marks ++ later)

def Diagnostic.isReported (suppressed : List Nat) (d : Diagnostic) : Bool :=
  !suppressed.contains d.code

namespace MethodBody

def run (m : MethodBody) (host : Host) (config : Config) : Outcome × List Mark :=
  match m.exemption? host config.options with
  | some reason => (.exempt reason, [])
  | none =>
    let verdict := m.analyze host config.options
    match verdict.result with
    | .error violation => (.aborted violation, verdict.marks)
    | .ok found =>
      let reported := found.filter (·.isReported config.suppressedCodes)
      (.completed reported (found.length - reported.length), verdict.marks)

def report (m : MethodBody) (host : Host) (config : Config) : MethodReport × List Mark :=
  let (outcome, marks) := m.run host config
  (⟨m.method, outcome⟩, marks)

end MethodBody

def batch (host : Host) (config : Config) (cancelled : Bool) (ms : List MethodBody) :
    BatchReport × List Mark :=
  let (methods, marks) := runJobs (·.report host config)
    (fun r => config.failFast && r.outcome.isAborted) (fun m => ⟨m.method, .cancelled⟩) cancelled ms
  (⟨methods⟩, marks)

structure Declarations where
  sites : List InstantiationSite := []
  declarations : List Declaration := []

def InstantiationSite.run (site : InstantiationSite) (host : Host) : SiteOutcome × List Mark :=
  let verdict := site.analyze host
  match verdict.result with
  | .ok found => (.checked found, verdict.marks)
  | .error violation => (.aborted violation, verdict.marks)

def siteFailures (index : Nat) : List SiteOutcome → List SiteFailure
  | [] => []
  | .aborted violation :: outcomes => ⟨index, violation⟩ :: siteFailures (index + 1) outcomes
  | _ :: outcomes => siteFailures (index + 1) outcomes

def checkDeclarations (host : Host) (config : Config) (cancelled : Bool) (input : Declarations) :
    DeclarationReport × List Mark :=
  let (outcomes, marks) := runJobs (·.run host) (fun o => config.failFast && o.isAborted)
    (fun _ => .cancelled) cancelled input.sites
  let found := outcomes.flatMap (·.diagnostics) ++ Declaration.validateAll input.declarations
  let reported := found.filter (·.isReported config.suppressedCodes)
  ({ diagnostics := reported
     suppressed := found.length - reported.length
     aborted := siteFailures 0 outcomes
     cancelled := outcomes.countP (·.isCancelled) }, marks)

end CapabilityFlow
