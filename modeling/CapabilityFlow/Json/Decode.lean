import CapabilityFlow.Capabilities
import CapabilityFlow.Json.Reader
import CapabilityFlow.OrderedMap

namespace CapabilityFlow

inductive DecodeError where
  | malformed
  | capabilities (error : AnnotationError)
  deriving DecidableEq

abbrev Decoder (α : Type) := Json → Except DecodeError α

namespace Decoder

variable {α β σ τ : Type}

def text : Decoder String
  | .str s => .ok s
  | _ => .error .malformed

def bool : Decoder Bool
  | .bool b => .ok b
  | _ => .error .malformed

def word32 : Decoder UInt32
  | .nat n => if h : n < UInt32.size then .ok (UInt32.ofNatLT n h) else .error .malformed
  | _ => .error .malformed

def word64 : Decoder UInt64
  | .nat n => if h : n < UInt64.size then .ok (UInt64.ofNatLT n h) else .error .malformed
  | _ => .error .malformed

def option (decode : Decoder α) : Decoder (Option α)
  | .null => .ok none
  | j => some <$> decode j

def list (decode : Decoder α) : Decoder (List α)
  | .arr items => items.mapM decode
  | _ => .error .malformed

def insertEntry (decode : Decoder α) (m : OrderedMap String α) (entry : String × Json) :
    Except DecodeError (OrderedMap String α) := do
  let value ← decode entry.2
  return m.insert entry.1 value

/-- A dictionary; the last value of a repeated key counts, at the place of the first. -/
def map (decode : Decoder α) : Decoder (OrderedMap String α)
  | .obj entries => entries.foldlM (insertEntry decode) ∅
  | _ => .error .malformed

end Decoder

/-- One way to write a value of a sum: a name alone, or a name with something. -/
structure Variant (α : Type) where
  name : String
  bare : Option α
  payload : Decoder α

namespace Variant

variable {α β : Type}

def unit (name : String) (a : α) : Variant α where
  name := name
  bare := some a
  payload
    | .null => .ok a
    | _ => .error .malformed

def of (name : String) (f : β → α) (decode : Decoder β) : Variant α where
  name := name
  bare := none
  payload j := f <$> decode j

def find? (variants : List (Variant α)) (name : String) : Option (Variant α) :=
  variants.find? (·.name = name)

/-- A value of a sum: a name, or an object whose one entry is a name with its payload. -/
def decode (variants : List (Variant α)) : Decoder α
  | .str name =>
    match (find? variants name).bind (·.bare) with
    | some a => .ok a
    | none => .error .malformed
  | .obj ((name, payload) :: surplus) =>
    match find? variants name with
    | some v => do
      let a ← v.payload payload
      if surplus.isEmpty then return a else throw .malformed
    | none => .error .malformed
  | _ => .error .malformed

end Variant

/--
The fields of a product, given by what is known of them while entries are read (`σ`). Entries come
in any order; the items of an array are the fields in the order in which they are declared.
-/
structure Fields (σ α : Type) where
  names : List String
  start : σ
  fill : String → Json → σ → Except DecodeError σ
  finish : σ → Except DecodeError α

namespace Fields

variable {σ τ α β : Type}

def fillOne (decode : Decoder α) (j : Json) : Option α → Except DecodeError (Option α)
  | none => some <$> decode j
  | some _ => .error .malformed

def required (name : String) (decode : Decoder α) : Fields (Option α) α where
  names := [name]
  start := none
  fill _ := fillOne decode
  finish
    | some a => .ok a
    | none => .error .malformed

def optional (name : String) (default : α) (decode : Decoder α) : Fields (Option α) α where
  names := [name]
  start := none
  fill _ := fillOne decode
  finish a := .ok (a.getD default)

def and (f : Fields σ α) (g : Fields τ β) : Fields (σ × τ) (α × β) where
  names := f.names ++ g.names
  start := (f.start, g.start)
  fill name j s :=
    if name ∈ f.names then (·, s.2) <$> f.fill name j s.1 else (s.1, ·) <$> g.fill name j s.2
  finish s := do
    let a ← f.finish s.1
    let b ← g.finish s.2
    return (a, b)

def readEntry (f : Fields σ α) (s : σ) (entry : String × Json) : Except DecodeError σ :=
  match entry with
  | (_, .flawed .entry) => .error .malformed
  | (name, j) =>
    if name ∈ f.names then f.fill name j s
    else if j.isSkippable then .ok s
    else .error .malformed

def readItem (f : Fields σ α) (s : σ) (item : String × Json) : Except DecodeError σ :=
  f.fill item.1 item.2 s

def decode (f : Fields σ α) : Decoder α
  | .obj entries => do
    let s ← entries.foldlM f.readEntry f.start
    f.finish s
  | .arr items => do
    let s ← (f.names.zip items).foldlM f.readItem f.start
    let a ← f.finish s
    if items.length ≤ f.names.length then return a else throw .malformed
  | _ => .error .malformed

def decodeAs (f : Fields σ α) (make : α → β) : Decoder β := fun j => make <$> f.decode j

end Fields

def Decoder.ofText {α : Type} (decode : Decoder α) (text : String) : Except DecodeError α := do
  let document := Json.readDocument Json.maxDepth text
  let a ← decode document.value
  if document.isWhole then return a else throw .malformed

end CapabilityFlow
