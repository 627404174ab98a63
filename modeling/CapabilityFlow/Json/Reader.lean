import CapabilityFlow.Json
import CapabilityFlow.Text

namespace CapabilityFlow.Json

def isBlank (c : Char) : Bool := c = ' ' || c = '\t' || c = '\n' || c = '\r'

def skipBlanks (cs : List Char) : List Char := cs.dropWhile isBlank

/-- A part of a string: a character, or a code unit that is written as an escape. -/
inductive StringPart where
  | char (c : Char)
  | unit (code : Nat)

def unescape? (c : Char) : Option Char :=
  match c with
  | '"' => some '"'
  | '\\' => some '\\'
  | '/' => some '/'
  | 'b' => some '\x08'
  | 'f' => some '\x0c'
  | 'n' => some '\n'
  | 'r' => some '\r'
  | 't' => some '\t'
  | _ => none

/-- The parts of a string up to its closing quote, and the text behind it unless it is cut. -/
def scanString (parts : List StringPart) : List Char → List StringPart × Option (List Char)
  | [] => (parts.reverse, none)
  | '"' :: cs => (parts.reverse, some cs)
  | '\\' :: 'u' :: a :: b :: c :: d :: cs =>
    match [a, b, c, d].mapM Text.hexDigit? with
    | some digits => scanString (.unit (Text.ofDigits 16 digits) :: parts) cs
    | none => (parts.reverse, none)
  | '\\' :: c :: cs =>
    match unescape? c with
    | some c => scanString (.char c :: parts) cs
    | none => (parts.reverse, none)
  | c :: cs =>
    if c = '\\' ∨ c.toNat < 0x20 then (parts.reverse, none)
    else scanString (.char c :: parts) cs

/-- The characters of a string; two units that stand for one character must stand together. -/
def assemble : List StringPart → Option (List Char)
  | [] => some []
  | .char c :: parts => (assemble parts).map (c :: ·)
  | .unit high :: .unit low :: parts =>
    if 0xd800 ≤ high ∧ high < 0xdc00 then
      if 0xdc00 ≤ low ∧ low < 0xe000 then
        let code := 0x10000 + (high - 0xd800) * 0x400 + (low - 0xdc00)
        (assemble parts).map (Char.ofNat code :: ·)
      else none
    else if 0xdc00 ≤ high ∧ high < 0xe000 then none
    else (assemble (.unit low :: parts)).map (Char.ofNat high :: ·)
  | .unit code :: parts =>
    if 0xd800 ≤ code ∧ code < 0xe000 then none
    else (assemble parts).map (Char.ofNat code :: ·)

def readString (cs : List Char) : Option String × Option (List Char) :=
  let (parts, rest) := scanString [] cs
  ((assemble parts).map String.ofList, rest)

def readDigits? (cs : List Char) : Option (List Char × List Char) :=
  let digits := cs.takeWhile Text.isDigit
  if digits.isEmpty then none else some (digits, cs.dropWhile Text.isDigit)

def readFraction? : List Char → Option (List Char × List Char)
  | '.' :: cs => (readDigits? cs).map fun (digits, rest) => ('.' :: digits, rest)
  | cs => some ([], cs)

def readExponent? : List Char → Option (List Char × List Char)
  | c :: cs =>
    if c = 'e' ∨ c = 'E' then
      match cs with
      | '+' :: cs => (readDigits? cs).map fun (digits, rest) => (c :: '+' :: digits, rest)
      | '-' :: cs => (readDigits? cs).map fun (digits, rest) => (c :: '-' :: digits, rest)
      | cs => (readDigits? cs).map fun (digits, rest) => (c :: digits, rest)
    else some ([], c :: cs)
  | [] => some ([], [])

def readNumber? (sign : List Char) (cs : List Char) : Option (Json × List Char) := do
  let (whole, rest) ← readDigits? cs
  if whole.head? = some '0' && whole.length > 1 then none
  let (fraction, rest) ← readFraction? rest
  let (exponent, rest) ← readExponent? rest
  match Text.decimal? whole with
  | some n =>
    if sign.isEmpty && fraction.isEmpty && exponent.isEmpty then some (.nat n, rest)
    else some (.number (String.ofList (sign ++ whole ++ fraction ++ exponent)), rest)
  | none => none

def readScalar? : List Char → Option (Json × List Char)
  | 'n' :: 'u' :: 'l' :: 'l' :: cs => some (.null, cs)
  | 't' :: 'r' :: 'u' :: 'e' :: cs => some (.bool true, cs)
  | 'f' :: 'a' :: 'l' :: 's' :: 'e' :: cs => some (.bool false, cs)
  | '-' :: cs => readNumber? ['-'] cs
  | cs => readNumber? [] cs

mutual

/--
A value, and what stands behind it unless the text is cut. `room` tells how many arrays and objects
may be entered one inside the other.
-/
def readValue : Nat → Nat → List Char → Json × Option (List Char)
  | 0, _, _ => (.flawed .cut, none)
  | fuel + 1, room, cs =>
    match skipBlanks cs with
    | '"' :: cs =>
      match readString cs with
      | (_, none) => (.flawed .cut, none)
      | (some s, rest) => (.str s, rest)
      | (none, rest) => (.flawed .value, rest)
    | '[' :: cs =>
      let (items, rest) := match skipBlanks cs with
        | ']' :: cs => ([], some cs)
        | cs => readItems fuel (room - 1) cs
      (.arr (if room = 0 then .flawed .value :: items else items), rest)
    | '{' :: cs =>
      let (entries, rest) := match skipBlanks cs with
        | '}' :: cs => ([], some cs)
        | cs => readEntries fuel (room - 1) cs
      (.obj (if room = 0 then ("", .flawed .entry) :: entries else entries), rest)
    | cs =>
      match readScalar? cs with
      | some (value, rest) => (value, some rest)
      | none => (.flawed .cut, none)

def readItems : Nat → Nat → List Char → List Json × Option (List Char)
  | 0, _, _ => ([.flawed .cut], none)
  | fuel + 1, room, cs =>
    match readValue fuel room cs with
    | (value, none) => ([value], none)
    | (value, some rest) =>
      match skipBlanks rest with
      | ',' :: cs =>
        let (items, rest) := readItems fuel room cs
        (value :: items, rest)
      | ']' :: cs => ([value], some cs)
      | _ => ([value, .flawed .cut], none)

def readEntries : Nat → Nat → List Char → List (String × Json) × Option (List Char)
  | 0, _, _ => ([("", .flawed .cut)], none)
  | fuel + 1, room, cs =>
    match readKey (skipBlanks cs) with
    | none => ([("", .flawed .cut)], none)
    | some (key, cs) =>
      let (value, rest) := readValue fuel room cs
      let entry := match key with
        | some key => [(key, value)]
        | none => [("", .flawed .entry), ("", value)]
      match rest.map skipBlanks with
      | none => (entry, none)
      | some (',' :: cs) =>
        let (entries, rest) := readEntries fuel room cs
        (entry ++ entries, rest)
      | some ('}' :: cs) => (entry, some cs)
      | some _ => (entry ++ [("", .flawed .cut)], none)

def readKey : List Char → Option (Option String × List Char)
  | '"' :: cs =>
    match readString cs with
    | (key, some rest) =>
      match skipBlanks rest with
      | ':' :: cs => some (key, cs)
      | _ => none
    | (_, none) => none
  | _ => none

end

structure Document where
  value : Json
  isWhole : Bool

/-- Reads a text in which arrays and objects are nested at most `room` deep. -/
def readDocument (room : Nat) (text : String) : Document :=
  let cs := text.toList
  let (value, rest) := readValue (2 * cs.length + 2) room cs
  ⟨value, match rest with
    | some cs => (skipBlanks cs).isEmpty
    | none => false⟩

def maxDepth : Nat := 127

end CapabilityFlow.Json
