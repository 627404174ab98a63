import CapabilityFlow.Symbol

namespace CapabilityFlow

structure Location where
  line : UInt32 := 0
  column : UInt32 := 0
  deriving DecidableEq

def Location.text (l : Location) : String :=
  "(" ++ Text.decimal l.line.toNat ++ "," ++ Text.decimal l.column.toNat ++ ")"

inductive Placement where
  | field
  | parameter
  | property
  | returnValue
  | method
  deriving DecidableEq

def Placement.code : Placement → Nat
  | .method => 2041
  | .field => 2097
  | .parameter => 2098
  | .property => 2099
  | .returnValue => 2106

inductive DiagnosticKind where
  | unverifiable (target : Shape)
  | mismatch (source target : Shape)
  | invalidPlacement (placement : Placement)
  deriving DecidableEq

/-- The stable code of a kind: one block of codes for each source of a mismatch. -/
def DiagnosticKind.code : DiagnosticKind → Nat
  | .unverifiable target => 2062 + target.index
  | .mismatch source target => 2067 + source.index * 5 + target.index
  | .invalidPlacement placement => placement.code

def DiagnosticKind.id (k : DiagnosticKind) : String := "IL" ++ Text.decimal k.code

structure Diagnostic where
  kind : DiagnosticKind
  arguments : List String
  location : Location
  deriving DecidableEq

namespace Diagnostic

def code (d : Diagnostic) : Nat := d.kind.code

def id (d : Diagnostic) : String := d.kind.id

def text (d : Diagnostic) : String :=
  d.location.text ++ " " ++ d.id ++ ": " ++ ", ".intercalate d.arguments

end Diagnostic

/-- The diagnostics reported so far, oldest first and none dropped. -/
structure DiagnosticLog where
  toList : List Diagnostic := []

namespace DiagnosticLog

def report (log : DiagnosticLog) (d : Diagnostic) : DiagnosticLog := ⟨log.toList ++ [d]⟩

def size (log : DiagnosticLog) : Nat := log.toList.length

def isEmpty (log : DiagnosticLog) : Bool := log.toList.isEmpty

def drain (log : DiagnosticLog) : List Diagnostic × DiagnosticLog := (log.toList, {})

@[simp] theorem toList_report (log : DiagnosticLog) (d : Diagnostic) :
    (log.report d).toList = log.toList ++ [d] := rfl

theorem toList_foldl_report (log : DiagnosticLog) (ds : List Diagnostic) :
    (ds.foldl report log).toList = log.toList ++ ds := by
  induction ds generalizing log with
  | nil => exact (List.append_nil _).symm
  | cons d ds ih =>
    rw [List.foldl_cons, ih, toList_report, List.append_assoc, List.singleton_append]

@[simp] theorem size_report (log : DiagnosticLog) (d : Diagnostic) :
    (log.report d).size = log.size + 1 := by
  simp [size, report]

end DiagnosticLog

structure BlockId where
  index : UInt64
  deriving DecidableEq

def BlockId.text (b : BlockId) : String := "B" ++ Text.decimal b.index.toNat

inductive Violation where
  | unknownBlock (block : BlockId)
  | unmatchedEdge (source target : BlockId)
  | emptyProtectedRegion (handler : BlockId)
  | parameterOutOfRange (method : MethodName) (index count : UInt32)
  | noThisParameter (method : MethodName)
  | arityMismatch (definition : String) (expected actual : Nat)
  deriving DecidableEq

def Violation.message : Violation → String
  | .unknownBlock block =>
    "block " ++ block.text ++ " does not exist in the control-flow graph"
  | .unmatchedEdge source target =>
    "edge " ++ source.text ++ " -> " ++ target.text
      ++ " is missing from the other block's edge list"
  | .emptyProtectedRegion handler =>
    "exception region handled by block " ++ handler.text ++ " protects no blocks"
  | .parameterOutOfRange method index count =>
    "parameter slot " ++ Text.decimal index.toNat ++ " is out of range for `" ++ method ++ "` ("
      ++ Text.decimal count.toNat ++ " parameters)"
  | .noThisParameter method => "`" ++ method ++ "` has no implicit `this` parameter"
  | .arityMismatch definition expected actual =>
    "generic definition `" ++ definition ++ "` declares " ++ Text.decimal expected
      ++ " parameters but " ++ Text.decimal actual ++ " arguments were supplied"

end CapabilityFlow
