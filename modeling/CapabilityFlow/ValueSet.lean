namespace CapabilityFlow

/-- A list without the later repetitions of its values. -/
def distinct {α : Type} [DecidableEq α] : List α → List α
  | [] => []
  | x :: xs => x :: (distinct xs).filter (· ≠ x)

theorem mem_distinct {α : Type} [DecidableEq α] {x : α} {xs : List α} :
    x ∈ distinct xs ↔ x ∈ xs := by
  induction xs with
  | nil => simp [distinct]
  | cons y ys ih => by_cases h : x = y <;> simp [distinct, h, ih]

theorem nodup_distinct {α : Type} [DecidableEq α] (xs : List α) : (distinct xs).Nodup := by
  induction xs with
  | nil => exact List.nodup_nil
  | cons x xs ih =>
    rw [distinct, List.nodup_cons]
    exact ⟨by simp, ih.filter _⟩

theorem distinct_of_nodup {α : Type} [DecidableEq α] {xs : List α} (h : xs.Nodup) :
    distinct xs = xs := by
  induction xs with
  | nil => rfl
  | cons x xs ih =>
    rw [List.nodup_cons] at h
    rw [distinct, ih h.2, List.filter_eq_self.2]
    intro y hy
    rw [decide_eq_true_eq]
    rintro rfl
    exact h.1 hy

/-- How a set of values is stored. -/
inductive Storage (α : Type) where
  | empty
  | one (value : α)
  | many (values : List α)

namespace Storage

variable {α β : Type}

/-- The values in the order in which they came. -/
def toList : Storage α → List α
  | empty => []
  | one x => [x]
  | many values => values

def size : Storage α → Nat
  | empty => 0
  | one _ => 1
  | many values => values.length

def isEmpty : Storage α → Bool
  | empty => true
  | _ => false

/-- Whether the values are kept in a list of their own. -/
def isBacked : Storage α → Bool
  | many _ => true
  | _ => false

/-- A list of its own holds at least two distinct values, and no value twice. -/
def Canonical : Storage α → Prop
  | many values => values.Nodup ∧ 2 ≤ values.length
  | _ => True

@[simp] theorem toList_empty : (empty : Storage α).toList = [] := rfl
@[simp] theorem toList_one (x : α) : (one x).toList = [x] := rfl
@[simp] theorem toList_many (values : List α) : (many values).toList = values := rfl

@[simp] theorem length_toList (s : Storage α) : s.toList.length = s.size := by
  cases s <;> rfl

theorem Canonical.nodup_toList {s : Storage α} (h : s.Canonical) : s.toList.Nodup := by
  cases s with
  | empty => exact List.nodup_nil
  | one x => simp
  | many values => exact h.1

theorem Canonical.isBacked_iff {s : Storage α} (h : s.Canonical) :
    s.isBacked = true ↔ 2 ≤ s.size := by
  cases s with
  | empty => simp [isBacked, size]
  | one x => simp [isBacked, size]
  | many values => exact iff_of_true rfl h.2

theorem Canonical.exists_mem {s : Storage α} (h : s.Canonical) (hne : s ≠ empty) :
    ∃ x, x ∈ s.toList := by
  cases s with
  | empty => exact absurd rfl hne
  | one x => exact ⟨x, List.mem_singleton.2 rfl⟩
  | many values => exact List.exists_mem_of_length_pos (Nat.lt_of_succ_lt h.2)

theorem Canonical.isEmpty_iff {s : Storage α} (h : s.Canonical) :
    s.isEmpty = true ↔ ∀ x, x ∉ s.toList := by
  cases s with
  | empty => exact iff_of_true rfl fun _ => List.not_mem_nil
  | one x => exact iff_of_false Bool.false_ne_true fun hn => hn x List.mem_cons_self
  | many values =>
    obtain ⟨x, hx⟩ := h.exists_mem nofun
    exact iff_of_false Bool.false_ne_true fun hn => hn x hx

theorem isBacked_of_ne {s : Storage α} (hne : s ≠ empty) (hone : ∀ x, s ≠ one x) :
    s.isBacked = true := by
  cases s with
  | empty => exact absurd rfl hne
  | one x => exact absurd rfl (hone x)
  | many values => rfl

theorem Canonical.exists_ne {s : Storage α} (h : s.Canonical) (hs : s.isBacked = true) :
    ∃ x ∈ s.toList, ∃ y ∈ s.toList, x ≠ y := by
  match s, h with
  | many (x :: y :: rest), h =>
    have hx := (List.nodup_cons.1 h.1).1
    refine ⟨x, List.mem_cons_self, y, List.mem_cons_of_mem _ List.mem_cons_self, ?_⟩
    rintro rfl
    exact hx List.mem_cons_self

theorem Canonical.ext {s t : Storage α} (hs : s.Canonical) (ht : t.Canonical)
    (h : s.toList = t.toList) : s = t := by
  have hsize : s.size = t.size := by
    rw [← length_toList, ← length_toList, h]
  have hbacked : s.isBacked = t.isBacked := by
    rw [Bool.eq_iff_iff, hs.isBacked_iff, ht.isBacked_iff, hsize]
  cases s <;> cases t <;> simp_all [isBacked, size]

variable [DecidableEq α] [DecidableEq β]

def contains (s : Storage α) (x : α) : Bool :=
  match s with
  | empty => false
  | one y => y = x
  | many values => values.contains x

@[simp] theorem contains_iff {s : Storage α} {x : α} : s.contains x = true ↔ x ∈ s.toList := by
  cases s <;> simp [contains, eq_comm]

def ofList (xs : List α) : Storage α :=
  match distinct xs with
  | [] => empty
  | [x] => one x
  | values => many values

@[simp] theorem toList_ofList (xs : List α) : (ofList xs).toList = distinct xs := by
  unfold ofList
  split <;> simp_all

theorem canonical_ofList (xs : List α) : (ofList xs).Canonical := by
  have hnodup := nodup_distinct xs
  unfold ofList
  match distinct xs, hnodup with
  | [], _ => trivial
  | [x], _ => trivial
  | x :: y :: rest, hnodup => exact ⟨hnodup, by simp⟩

def union (a b : Storage α) : Storage α := many (distinct (a.toList ++ b.toList))

theorem mem_union {a b : Storage α} {x : α} :
    x ∈ (a.union b).toList ↔ x ∈ a.toList ∨ x ∈ b.toList :=
  mem_distinct.trans List.mem_append

theorem canonical_union {a b : Storage α} {x y : α} (hx : x ∈ a.toList ∨ x ∈ b.toList)
    (hy : y ∈ a.toList ∨ y ∈ b.toList) (h : x ≠ y) : (a.union b).Canonical := by
  refine ⟨nodup_distinct _, ?_⟩
  have hx' : x ∈ distinct (a.toList ++ b.toList) := mem_union.2 hx
  have hy' : y ∈ distinct (a.toList ++ b.toList) := mem_union.2 hy
  match distinct (a.toList ++ b.toList), hx', hy' with
  | [z], hx', hy' =>
    have hxz : x = z := List.mem_singleton.1 hx'
    have hyz : y = z := List.mem_singleton.1 hy'
    exact absurd (hxz.trans hyz.symm) h
  | _ :: _ :: _, _, _ => simp

/-- The values of both sets. What is put together is not counted again: only sets that have two
values between them come to that. -/
def meet (a b : Storage α) : Storage α :=
  match a, b with
  | empty, b => b
  | a, empty => a
  | one x, b => if b.contains x then b else (one x).union b
  | a, one y => if a.contains y then a else a.union (one y)
  | a, b => a.union b

@[simp] theorem empty_meet (b : Storage α) : (empty : Storage α).meet b = b := by
  cases b <;> rfl

@[simp] theorem meet_empty (a : Storage α) : a.meet empty = a := by
  cases a <;> rfl

/-- A join is one of its sides, which then has the values of both, or both put together. The second
side is the join only if the first has at most one value. -/
theorem meet_cases {a b : Storage α} (ha : a.Canonical) (hb : b.Canonical) :
    (a.meet b = a ∧ ∀ x ∈ b.toList, x ∈ a.toList) ∨
    (a.meet b = b ∧ (∀ x ∈ a.toList, x ∈ b.toList) ∧ a.isBacked = false) ∨
    (a.meet b = a.union b ∧ (a.union b).Canonical ∧
      (a.isBacked = true ∨ ∃ x ∈ a.toList, x ∉ b.toList)) := by
  unfold meet
  split
  case h_1 => exact .inr (.inl ⟨rfl, fun _ hx => absurd hx List.not_mem_nil, rfl⟩)
  case h_2 => exact .inl ⟨rfl, fun _ hx => absurd hx List.not_mem_nil⟩
  case h_3 _ x hne =>
    split
    case isTrue hx =>
      rw [contains_iff] at hx
      exact .inr (.inl ⟨rfl, fun y hy => List.mem_singleton.1 hy ▸ hx, rfl⟩)
    case isFalse hx =>
      rw [contains_iff] at hx
      obtain ⟨y, hy⟩ := hb.exists_mem hne
      have hxy : x ≠ y := fun he => hx (he ▸ hy)
      exact .inr (.inr ⟨rfl, canonical_union (.inl List.mem_cons_self) (.inr hy) hxy,
        .inr ⟨x, List.mem_cons_self, hx⟩⟩)
  case h_4 _ y hne hone =>
    split
    case isTrue hy =>
      rw [contains_iff] at hy
      exact .inl ⟨rfl, fun x hx => List.mem_singleton.1 hx ▸ hy⟩
    case isFalse hy =>
      rw [contains_iff] at hy
      obtain ⟨x, hx⟩ := ha.exists_mem hne
      have hxy : x ≠ y := fun he => hy (he ▸ hx)
      exact .inr (.inr ⟨rfl, canonical_union (.inl hx) (.inr List.mem_cons_self) hxy,
        .inl (isBacked_of_ne hne hone)⟩)
  case h_5 _ _ hne hone _ _ =>
    have hbacked := isBacked_of_ne hne hone
    obtain ⟨x, hx, y, hy, hxy⟩ := ha.exists_ne hbacked
    exact .inr (.inr ⟨rfl, canonical_union (.inl hx) (.inl hy) hxy, .inl hbacked⟩)

theorem Canonical.meet {a b : Storage α} (ha : a.Canonical) (hb : b.Canonical) :
    (a.meet b).Canonical := by
  rcases meet_cases ha hb with ⟨he, -⟩ | ⟨he, -⟩ | ⟨he, hunion, -⟩
  · rwa [he]
  · rwa [he]
  · rwa [he]

theorem mem_meet {x : α} {a b : Storage α} (ha : a.Canonical) (hb : b.Canonical) :
    x ∈ (a.meet b).toList ↔ x ∈ a.toList ∨ x ∈ b.toList := by
  rcases meet_cases ha hb with ⟨he, hsub⟩ | ⟨he, hsub, -⟩ | ⟨he, -⟩
  · rw [he]
    exact ⟨.inl, fun hx => hx.elim id (hsub x)⟩
  · rw [he]
    exact ⟨.inr, fun hx => hx.elim (hsub x) id⟩
  · rw [he]
    exact mem_union

def map (f : α → β) (s : Storage α) : Storage β := ofList (s.toList.map f)

omit [DecidableEq α] in
theorem canonical_map (f : α → β) (s : Storage α) : (s.map f).Canonical :=
  canonical_ofList _

omit [DecidableEq α] in
theorem mem_map {f : α → β} {s : Storage α} {y : β} :
    y ∈ (s.map f).toList ↔ ∃ x ∈ s.toList, f x = y := by
  rw [map, toList_ofList, mem_distinct, List.mem_map]

/-- The sum of the hashes of the values, which their order has no part in. -/
def hashSum (hash : α → UInt64) : Storage α → UInt64
  | empty => 0
  | one x => hash x
  | many values => (values.map hash).foldl (· + ·) 0

/-- What a set gives to a hasher: how many values it has, and the sum of their hashes. -/
def digest (hash : α → UInt64) (s : Storage α) : Nat × UInt64 := (s.size, s.hashSum hash)

instance : BEq (Storage α) where
  beq
    | empty, empty => true
    | one x, one y => x = y
    | many values, many values' =>
      values.length = values'.length && values.all fun x => values'.contains x
    | _, _ => false

end Storage

/-- A set of values, stored inline while it has at most one. -/
@[ext]
structure ValueSet (α : Type) where
  storage : Storage α
  canonical : storage.Canonical

namespace ValueSet

variable {α β : Type}

def empty : ValueSet α := ⟨.empty, trivial⟩

def one (value : α) : ValueSet α := ⟨.one value, trivial⟩

instance : Inhabited (ValueSet α) := ⟨empty⟩

def toList (s : ValueSet α) : List α := s.storage.toList

def size (s : ValueSet α) : Nat := s.storage.size

def isEmpty (s : ValueSet α) : Bool := s.storage.isEmpty

def isBacked (s : ValueSet α) : Bool := s.storage.isBacked

theorem nodup_toList (s : ValueSet α) : s.toList.Nodup := s.canonical.nodup_toList

@[simp] theorem length_toList (s : ValueSet α) : s.toList.length = s.size :=
  s.storage.length_toList

@[simp] theorem toList_empty : (empty : ValueSet α).toList = [] := rfl
@[simp] theorem toList_one (x : α) : (one x).toList = [x] := rfl

theorem ext_toList {s t : ValueSet α} (h : s.toList = t.toList) : s = t :=
  ValueSet.ext (s.canonical.ext t.canonical h)

instance : Membership α (ValueSet α) := ⟨fun s x => x ∈ s.toList⟩

theorem mem_def {x : α} {s : ValueSet α} : x ∈ s ↔ x ∈ s.toList := Iff.rfl

theorem isEmpty_iff {s : ValueSet α} : s.isEmpty = true ↔ ∀ x, x ∉ s := s.canonical.isEmpty_iff

theorem mem_one {x y : α} : x ∈ one y ↔ x = y := List.mem_singleton

variable [DecidableEq α] [DecidableEq β]

instance (x : α) (s : ValueSet α) : Decidable (x ∈ s) :=
  inferInstanceAs (Decidable (x ∈ s.toList))

def contains (s : ValueSet α) (x : α) : Bool := s.storage.contains x

@[simp] theorem contains_iff {s : ValueSet α} {x : α} : s.contains x = true ↔ x ∈ s :=
  Storage.contains_iff

def ofList (xs : List α) : ValueSet α := ⟨.ofList xs, Storage.canonical_ofList xs⟩

@[simp] theorem toList_ofList (xs : List α) : (ofList xs).toList = distinct xs :=
  Storage.toList_ofList xs

@[simp] theorem mem_ofList {x : α} {xs : List α} : x ∈ ofList xs ↔ x ∈ xs := by
  rw [mem_def, toList_ofList, mem_distinct]

def meet (a b : ValueSet α) : ValueSet α :=
  ⟨a.storage.meet b.storage, a.canonical.meet b.canonical⟩

@[simp] theorem empty_meet (b : ValueSet α) : (empty : ValueSet α).meet b = b :=
  ValueSet.ext b.storage.empty_meet

@[simp] theorem meet_empty (a : ValueSet α) : a.meet empty = a :=
  ValueSet.ext a.storage.meet_empty

theorem mem_meet {x : α} {a b : ValueSet α} : x ∈ a.meet b ↔ x ∈ a ∨ x ∈ b :=
  Storage.mem_meet a.canonical b.canonical

def map (f : α → β) (s : ValueSet α) : ValueSet β :=
  ⟨s.storage.map f, Storage.canonical_map f s.storage⟩

omit [DecidableEq α] in
theorem mem_map {f : α → β} {s : ValueSet α} {y : β} : y ∈ s.map f ↔ ∃ x ∈ s, f x = y :=
  Storage.mem_map

def text (render : α → String) (s : ValueSet α) : String :=
  "\x7b" ++ ",".intercalate (s.toList.map render) ++ "\x7d"

instance : BEq (ValueSet α) := ⟨fun s t => s.storage == t.storage⟩

end ValueSet

end CapabilityFlow
