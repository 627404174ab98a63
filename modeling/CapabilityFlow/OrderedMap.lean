namespace CapabilityFlow

namespace Bindings

variable {κ ν : Type} [DecidableEq κ]

def insert (k : κ) (v : ν) : List (κ × ν) → List (κ × ν)
  | [] => [(k, v)]
  | (k', v') :: rest => if k' = k then (k, v) :: rest else (k', v') :: insert k v rest

/-- The value that the first binding of a key gives. -/
def get? (k : κ) : List (κ × ν) → Option ν
  | [] => none
  | (k', v') :: rest => if k' = k then some v' else get? k rest

theorem get?_insert (k k' : κ) (v : ν) (xs : List (κ × ν)) :
    get? k' (insert k v xs) = if k = k' then some v else get? k' xs := by
  induction xs with
  | nil => rfl
  | cons x xs ih =>
    by_cases h : x.1 = k
    · by_cases h' : k = k' <;> simp [insert, get?, h, h']
    · by_cases h' : x.1 = k'
      · subst h'
        simp [insert, get?, h, Ne.symm h]
      · simp [insert, get?, h, h', ih]

theorem keys_insert (k : κ) (v : ν) (xs : List (κ × ν)) :
    (insert k v xs).map Prod.fst =
      if k ∈ xs.map Prod.fst then xs.map Prod.fst else xs.map Prod.fst ++ [k] := by
  induction xs with
  | nil => rfl
  | cons x xs ih =>
    by_cases h : x.1 = k
    · simp [insert, h]
    · simp only [insert, h, if_false, List.map_cons, ih, List.mem_cons, Ne.symm h, false_or]
      split <;> rfl

theorem nodup_keys_insert (k : κ) (v : ν) {xs : List (κ × ν)} (h : (xs.map Prod.fst).Nodup) :
    ((insert k v xs).map Prod.fst).Nodup := by
  rw [keys_insert]
  split
  · exact h
  · rename_i hk
    refine List.nodup_append.2 ⟨h, by simp, ?_⟩
    rintro a ha b hb rfl
    rw [List.mem_singleton] at hb
    exact hk (hb ▸ ha)

theorem insert_of_not_mem {k : κ} {v : ν} {xs : List (κ × ν)} (h : k ∉ xs.map Prod.fst) :
    insert k v xs = xs ++ [(k, v)] := by
  induction xs with
  | nil => rfl
  | cons x xs ih =>
    rw [List.map_cons, List.mem_cons, not_or] at h
    have hx : x.1 ≠ k := Ne.symm h.1
    rw [insert, if_neg hx, ih h.2, List.cons_append]

theorem mem_of_get? {k : κ} {v : ν} {xs : List (κ × ν)} (h : get? k xs = some v) :
    (k, v) ∈ xs := by
  induction xs with
  | nil => cases h
  | cons x xs ih =>
    by_cases hk : x.1 = k
    · simp only [get?, hk, if_true, Option.some.injEq] at h
      exact List.mem_cons.2 (.inl (hk ▸ h ▸ rfl))
    · simp only [get?, hk, if_false] at h
      exact List.mem_cons_of_mem _ (ih h)

theorem get?_eq_none {k : κ} {xs : List (κ × ν)} : get? k xs = none ↔ k ∉ xs.map Prod.fst := by
  induction xs with
  | nil => simp [get?]
  | cons x xs ih =>
    by_cases hk : x.1 = k
    · simp [get?, hk]
    · simp [get?, hk, ih, Ne.symm hk]

theorem get?_eq_some_iff {k : κ} {v : ν} {xs : List (κ × ν)} (h : (xs.map Prod.fst).Nodup) :
    get? k xs = some v ↔ (k, v) ∈ xs := by
  refine ⟨mem_of_get?, fun hmem => ?_⟩
  induction xs with
  | nil => cases hmem
  | cons x xs ih =>
    rw [List.map_cons, List.nodup_cons] at h
    obtain he | hmem := List.mem_cons.1 hmem
    · subst he
      simp [get?]
    · have hk : x.1 ≠ k := fun e => h.1 (e ▸ List.mem_map_of_mem hmem)
      simp [get?, hk, ih h.2 hmem]

end Bindings

/-- Bindings of distinct keys, in the order in which the keys came. -/
structure OrderedMap (κ ν : Type) where
  entries : List (κ × ν)
  nodup_keys : (entries.map Prod.fst).Nodup

namespace OrderedMap

variable {κ ν : Type}

instance : EmptyCollection (OrderedMap κ ν) := ⟨⟨[], List.nodup_nil⟩⟩
instance : Inhabited (OrderedMap κ ν) := ⟨∅⟩

@[simp] theorem entries_empty : (∅ : OrderedMap κ ν).entries = [] := rfl

theorem ext {a b : OrderedMap κ ν} (h : a.entries = b.entries) : a = b := by
  cases a; cases b; cases h; rfl

variable [DecidableEq κ]

instance [DecidableEq ν] : DecidableEq (OrderedMap κ ν) := fun a b =>
  if h : a.entries = b.entries then isTrue (ext h)
  else isFalse fun e => h (congrArg entries e)

def get? (m : OrderedMap κ ν) (k : κ) : Option ν := Bindings.get? k m.entries

def contains (m : OrderedMap κ ν) (k : κ) : Bool := (m.get? k).isSome

/-- Binds a key; a key that is bound already keeps its place. -/
def insert (m : OrderedMap κ ν) (k : κ) (v : ν) : OrderedMap κ ν :=
  ⟨Bindings.insert k v m.entries, Bindings.nodup_keys_insert k v m.nodup_keys⟩

def modify (m : OrderedMap κ ν) (k : κ) (default : ν) (change : ν → ν) : OrderedMap κ ν :=
  m.insert k (change ((m.get? k).getD default))

def ofList (xs : List (κ × ν)) : OrderedMap κ ν :=
  xs.foldl (fun m x => m.insert x.1 x.2) ∅

@[simp] theorem get?_empty (k : κ) : (∅ : OrderedMap κ ν).get? k = none := rfl

@[simp] theorem entries_insert (m : OrderedMap κ ν) (k : κ) (v : ν) :
    (m.insert k v).entries = Bindings.insert k v m.entries := rfl

theorem get?_insert (m : OrderedMap κ ν) (k k' : κ) (v : ν) :
    (m.insert k v).get? k' = if k = k' then some v else m.get? k' :=
  Bindings.get?_insert k k' v m.entries

theorem get?_eq_some_iff {m : OrderedMap κ ν} {k : κ} {v : ν} :
    m.get? k = some v ↔ (k, v) ∈ m.entries :=
  Bindings.get?_eq_some_iff m.nodup_keys

end OrderedMap

end CapabilityFlow
