import CapabilityFlow.Text

namespace CapabilityFlow

/-- A set of member categories, in the encoding of the attribute that declares them. -/
structure Capabilities where
  bits : BitVec 32
  deriving DecidableEq

inductive Kind where
  | publicConstructors
  | publicParameterlessConstructor
  | nonPublicConstructors
  | publicMethods
  | nonPublicMethods
  | publicFields
  | nonPublicFields
  | publicNestedTypes
  | nonPublicNestedTypes
  | publicProperties
  | nonPublicProperties
  | publicEvents
  | nonPublicEvents
  | interfaces
  deriving DecidableEq

namespace Capabilities

instance : EmptyCollection Capabilities := ⟨⟨0⟩⟩
instance : Inhabited Capabilities := ⟨∅⟩
instance : Union Capabilities := ⟨fun a b => ⟨a.bits ||| b.bits⟩⟩
instance : Inter Capabilities := ⟨fun a b => ⟨a.bits &&& b.bits⟩⟩
instance : SDiff Capabilities := ⟨fun a b => ⟨a.bits &&& ~~~b.bits⟩⟩
instance : HasSubset Capabilities := ⟨fun a b => a.bits &&& b.bits = a.bits⟩

instance (a b : Capabilities) : Decidable (a ⊆ b) :=
  inferInstanceAs (Decidable (a.bits &&& b.bits = a.bits))

/-- Every bit, those without a name included. -/
def all : Capabilities := ⟨BitVec.allOnes 32⟩

@[simp] theorem bits_empty : (∅ : Capabilities).bits = 0 := rfl
@[simp] theorem bits_union (a b : Capabilities) : (a ∪ b).bits = a.bits ||| b.bits := rfl
@[simp] theorem bits_inter (a b : Capabilities) : (a ∩ b).bits = a.bits &&& b.bits := rfl
@[simp] theorem bits_sdiff (a b : Capabilities) : (a \ b).bits = a.bits &&& ~~~b.bits := rfl
@[simp] theorem bits_all : all.bits = BitVec.allOnes 32 := rfl

theorem ext {a b : Capabilities} (h : a.bits = b.bits) : a = b := by
  cases a; cases b; cases h; rfl

theorem subset_def {a b : Capabilities} : a ⊆ b ↔ a.bits &&& b.bits = a.bits := Iff.rfl

end Capabilities

/-- The bits of a kind; all public constructors contain the parameterless one. -/
def Kind.set : Kind → Capabilities
  | .publicConstructors => ⟨0x0003⟩
  | .publicParameterlessConstructor => ⟨0x0001⟩
  | .nonPublicConstructors => ⟨0x0004⟩
  | .publicMethods => ⟨0x0008⟩
  | .nonPublicMethods => ⟨0x0010⟩
  | .publicFields => ⟨0x0020⟩
  | .nonPublicFields => ⟨0x0040⟩
  | .publicNestedTypes => ⟨0x0080⟩
  | .nonPublicNestedTypes => ⟨0x0100⟩
  | .publicProperties => ⟨0x0200⟩
  | .nonPublicProperties => ⟨0x0400⟩
  | .publicEvents => ⟨0x0800⟩
  | .nonPublicEvents => ⟨0x1000⟩
  | .interfaces => ⟨0x2000⟩

/-- Every kind, each before the kinds that it contains. -/
def Kind.every : List Kind :=
  [.publicConstructors, .publicParameterlessConstructor, .nonPublicConstructors, .publicMethods,
    .nonPublicMethods, .publicFields, .nonPublicFields, .publicNestedTypes, .nonPublicNestedTypes,
    .publicProperties, .nonPublicProperties, .publicEvents, .nonPublicEvents, .interfaces]

theorem Kind.mem_every (k : Kind) : k ∈ Kind.every := by
  cases k <;> decide

namespace Capabilities

def unions (sets : List Capabilities) : Capabilities := sets.foldl (· ∪ ·) ∅

def ofKinds (kinds : List Kind) : Capabilities := unions (kinds.map Kind.set)

/-- Every bit that some kind names. -/
def named : Capabilities := ofKinds Kind.every

/-- The kinds that a base type is known to share with the type that derives from it. -/
def inherited : Capabilities :=
  ofKinds [.publicMethods, .publicFields, .publicEvents, .publicProperties, .interfaces]

def satisfies (available required : Capabilities) : Bool := required ⊆ available

/-- The named kinds that are required and not available. -/
def missing (available required : Capabilities) : Capabilities :=
  (required \ available) ∩ named

def ofBaseType (c : Capabilities) : Capabilities :=
  if c = all then all else c ∩ inherited

@[simp] theorem satisfies_iff {a r : Capabilities} : a.satisfies r = true ↔ r ⊆ a := by
  simp [satisfies]

@[simp] theorem ofBaseType_all : all.ofBaseType = all := by
  simp [ofBaseType]

end Capabilities

def Kind.name : Kind → String
  | .publicConstructors => "PublicConstructors"
  | .publicParameterlessConstructor => "PublicParameterlessConstructor"
  | .nonPublicConstructors => "NonPublicConstructors"
  | .publicMethods => "PublicMethods"
  | .nonPublicMethods => "NonPublicMethods"
  | .publicFields => "PublicFields"
  | .nonPublicFields => "NonPublicFields"
  | .publicNestedTypes => "PublicNestedTypes"
  | .nonPublicNestedTypes => "NonPublicNestedTypes"
  | .publicProperties => "PublicProperties"
  | .nonPublicProperties => "NonPublicProperties"
  | .publicEvents => "PublicEvents"
  | .nonPublicEvents => "NonPublicEvents"
  | .interfaces => "Interfaces"

def Kind.ofName? (name : String) : Option Kind :=
  Kind.every.find? (·.name = name)

inductive AnnotationError where
  | empty
  | unknownKind (name : String)
  deriving DecidableEq

def AnnotationError.message : AnnotationError → String
  | .empty => "empty capability annotation"
  | .unknownKind name => "unknown capability kind `" ++ name ++ "`"

namespace Capabilities

/-- The parts of a written set: each kind whose bits are still unwritten, then the rest. -/
def parts (c : Capabilities) : List Kind → List String
  | [] => if c = ∅ then [] else [Text.hexadecimal c.bits.toNat]
  | k :: ks => if k.set ⊆ c then k.name :: parts (c \ k.set) ks else parts c ks

def text (c : Capabilities) : String :=
  if c = ∅ then "None"
  else if c = all then "All"
  else " | ".intercalate (c.parts Kind.every)

def isSeparator (c : Char) : Bool := c = '|' || c = ','

def ofPart (part : List Char) : Except AnnotationError Capabilities :=
  let name := String.ofList part
  if name = "None" then .ok ∅
  else if name = "All" then .ok all
  else match Kind.ofName? name with
    | some k => .ok k.set
    | none => .error (.unknownKind name)

/-- Reads names between bars or commas; blank parts are skipped, but one part must be there. -/
def parse (text : String) : Except AnnotationError Capabilities :=
  match ((Text.fields isSeparator text.toList).map Text.trim).filter (· ≠ []) with
  | [] => .error .empty
  | parts => unions <$> parts.mapM ofPart

end Capabilities

end CapabilityFlow
