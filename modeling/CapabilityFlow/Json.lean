import CapabilityFlow.Text

namespace CapabilityFlow

/-- What keeps a part of a text from being read. -/
inductive Flaw where
  | cut
  /-- An entry of an object can be skipped but not read: its key is no text, or it lies too deep. -/
  | entry
  /-- A value can be skipped but not read: it is no text, or it lies too deep. -/
  | value
  deriving DecidableEq

inductive Json where
  | null
  | bool (b : Bool)
  | nat (n : Nat)
  /-- A number with a sign, a fraction or an exponent, as it is written. -/
  | number (text : String)
  | str (s : String)
  | arr (items : List Json)
  | obj (entries : List (String × Json))
  | flawed (flaw : Flaw)

namespace Json

instance : Inhabited Json := ⟨null⟩

mutual

def depth : Json → Nat
  | arr items => depthOfItems items + 1
  | obj entries => depthOfEntries entries + 1
  | _ => 0

def depthOfItems : List Json → Nat
  | [] => 0
  | item :: items => max item.depth (depthOfItems items)

def depthOfEntries : List (String × Json) → Nat
  | [] => 0
  | (_, value) :: entries => max value.depth (depthOfEntries entries)

end

mutual

def isSkippable : Json → Bool
  | arr items => areSkippable items
  | obj entries => areSkippableEntries entries
  | flawed flaw => flaw ≠ .cut
  | _ => true

def areSkippable : List Json → Bool
  | [] => true
  | item :: items => item.isSkippable && areSkippable items

def areSkippableEntries : List (String × Json) → Bool
  | [] => true
  | (_, value) :: entries => value.isSkippable && areSkippableEntries entries

end

def escape (c : Char) : List Char :=
  match c with
  | '"' => ['\\', '"']
  | '\\' => ['\\', '\\']
  | '\x08' => ['\\', 'b']
  | '\x0c' => ['\\', 'f']
  | '\n' => ['\\', 'n']
  | '\r' => ['\\', 'r']
  | '\t' => ['\\', 't']
  | c =>
    if c.toNat < 0x20 then
      ['\\', 'u', '0', '0', Nat.digitChar (c.toNat / 16), Nat.digitChar (c.toNat % 16)]
    else [c]

def quote (s : String) : String :=
  "\"" ++ String.ofList (s.toList.flatMap escape) ++ "\""

mutual

def compact : Json → String
  | null => "null"
  | bool true => "true"
  | bool false => "false"
  | nat n => Text.decimal n
  | number text => text
  | str s => quote s
  | arr items => "[" ++ ",".intercalate (compactItems items) ++ "]"
  | obj entries => "\x7b" ++ ",".intercalate (compactEntries entries) ++ "\x7d"
  | flawed _ => ""

def compactItems : List Json → List String
  | [] => []
  | item :: items => item.compact :: compactItems items

def compactEntries : List (String × Json) → List String
  | [] => []
  | (key, value) :: entries => (quote key ++ ":" ++ value.compact) :: compactEntries entries

end

def indent (level : Nat) : String := "\n" ++ String.ofList (List.replicate (2 * level) ' ')

def block (level : Nat) (opening closing : String) (lines : List String) : String :=
  if lines.isEmpty then opening ++ closing
  else
    opening ++ indent (level + 1) ++ ("," ++ indent (level + 1)).intercalate lines
      ++ indent level ++ closing

mutual

def prettyAt (level : Nat) : Json → String
  | arr items => block level "[" "]" (prettyItems (level + 1) items)
  | obj entries => block level "\x7b" "\x7d" (prettyEntries (level + 1) entries)
  | null => "null"
  | bool true => "true"
  | bool false => "false"
  | nat n => Text.decimal n
  | number text => text
  | str s => quote s
  | flawed _ => ""

def prettyItems (level : Nat) : List Json → List String
  | [] => []
  | item :: items => item.prettyAt level :: prettyItems level items

def prettyEntries (level : Nat) : List (String × Json) → List String
  | [] => []
  | (key, value) :: entries =>
    (quote key ++ ": " ++ value.prettyAt level) :: prettyEntries level entries

end

def pretty (j : Json) : String := j.prettyAt 0

end Json

end CapabilityFlow
