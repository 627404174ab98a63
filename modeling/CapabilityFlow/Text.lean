namespace CapabilityFlow.Text

/-- The ranges of the Unicode property White_Space. -/
def blankRanges : List (Nat × Nat) :=
  [(0x09, 0x0d), (0x20, 0x20), (0x85, 0x85), (0xa0, 0xa0), (0x1680, 0x1680), (0x2000, 0x200a),
    (0x2028, 0x2029), (0x202f, 0x202f), (0x205f, 0x205f), (0x3000, 0x3000)]

def isBlank (c : Char) : Bool :=
  blankRanges.any fun range => range.1 ≤ c.toNat && c.toNat ≤ range.2

def trim (cs : List Char) : List Char :=
  ((cs.dropWhile isBlank).reverse.dropWhile isBlank).reverse

@[simp] theorem trim_nil : trim [] = [] := rfl

def fields (separates : Char → Bool) : List Char → List (List Char)
  | [] => [[]]
  | c :: cs =>
    if separates c then [] :: fields separates cs
    else (fields separates cs).modifyHead (c :: ·)

@[simp] theorem fields_nil (separates : Char → Bool) : fields separates [] = [[]] := rfl

theorem fields_of_forall {separates : Char → Bool} {cs : List Char}
    (h : ∀ c ∈ cs, separates c = false) : fields separates cs = [cs] := by
  induction cs with
  | nil => rfl
  | cons c cs ih =>
    rw [List.forall_mem_cons] at h
    simp [fields, h.1, ih h.2]

def digit? (c : Char) : Option Nat :=
  if '0' ≤ c ∧ c ≤ '9' then some (c.toNat - '0'.toNat) else none

def hexDigit? (c : Char) : Option Nat :=
  if '0' ≤ c ∧ c ≤ '9' then some (c.toNat - '0'.toNat)
  else if 'a' ≤ c ∧ c ≤ 'f' then some (c.toNat - 'a'.toNat + 10)
  else if 'A' ≤ c ∧ c ≤ 'F' then some (c.toNat - 'A'.toNat + 10)
  else none

def isDigit (c : Char) : Bool := (digit? c).isSome

def ofDigits (base : Nat) (digits : List Nat) : Nat :=
  digits.foldl (fun n d => base * n + d) 0

def decimal? (cs : List Char) : Option Nat :=
  if cs.isEmpty then none else (cs.mapM digit?).map (ofDigits 10)

def hexadecimal? (cs : List Char) : Option Nat :=
  if cs.isEmpty then none else (cs.mapM hexDigit?).map (ofDigits 16)

def decimal (n : Nat) : String := String.ofList (Nat.toDigits 10 n)

/-- The hexadecimal numeral of a number in lower case, after a mark. -/
def hexadecimal (n : Nat) : String := "0x" ++ String.ofList (Nat.toDigits 16 n)

end CapabilityFlow.Text
