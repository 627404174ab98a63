import CapabilityFlow.Proofs.Facts
import Mathlib.Algebra.BigOperators.Group.Finset.Basic
import Mathlib.Algebra.GroupWithZero.Nat
import Mathlib.Data.Finset.Card
import Mathlib.Data.Finset.Image

namespace CapabilityFlow

theorem toNat_foldl_add (xs : List UInt64) (sum : UInt64) :
    (xs.foldl (· + ·) sum).toNat = (sum.toNat + (xs.map UInt64.toNat).sum) % UInt64.size := by
  induction xs generalizing sum with
  | nil => exact (Nat.mod_eq_of_lt sum.toNat_lt).symm
  | cons x xs ih =>
    rw [List.foldl_cons, ih, UInt64.toNat_add, Nat.mod_add_mod, List.map_cons, List.sum_cons,
      Nat.add_assoc]

namespace Storage

variable {α β : Type}

theorem toNat_hashSum (hash : α → UInt64) (s : Storage α) :
    (s.hashSum hash).toNat = (s.toList.map fun x => (hash x).toNat).sum % UInt64.size := by
  cases s with
  | empty => rfl
  | one x => simp [hashSum, Nat.mod_eq_of_lt (hash x).toNat_lt]
  | many values => simp [hashSum, toNat_foldl_add, Function.comp_def]

/-- The set is made by some operations, and these put the values together. -/
inductive Made : {α : Type} → [DecidableEq α] → Storage α → Finset α → Prop
  | empty {α : Type} [DecidableEq α] : Made (.empty : Storage α) ∅
  | one {α : Type} [DecidableEq α] (value : α) : Made (.one value) {value}
  | ofList {α : Type} [DecidableEq α] (xs : List α) : Made (.ofList xs) xs.toFinset
  | meet {α : Type} [DecidableEq α] {s t : Storage α} {values values' : Finset α} :
    Made s values → Made t values' → Made (s.meet t) (values ∪ values')
  | map {α β : Type} [DecidableEq α] [DecidableEq β] {s : Storage α} {values : Finset α}
      (f : α → β) :
    Made s values → Made (s.map f) (values.image f)

variable [DecidableEq α] [DecidableEq β]

/-- A set stores some values: each once, counted, and in a list of their own if there are two. -/
structure Stores (s : Storage α) (values : Finset α) : Prop where
  nodup : s.toList.Nodup
  mem_toList : ∀ x, x ∈ s.toList ↔ x ∈ values
  contains_iff : ∀ x, s.contains x = true ↔ x ∈ values
  length_eq : s.toList.length = s.size
  size_eq : s.size = values.card
  isBacked_iff : s.isBacked = true ↔ 2 ≤ s.size

variable {s t : Storage α} {values values' : Finset α}

/-- No operation leaves a list of its own behind for fewer than two values. -/
theorem Made.canonical (h : Made s values) : s.Canonical := by
  induction h with
  | empty => trivial
  | one value => trivial
  | ofList xs => exact canonical_ofList xs
  | meet _ _ hs ht => exact hs.meet ht
  | map f _ _ => exact canonical_map f _

theorem Made.mem_toList (h : Made s values) : ∀ x, x ∈ s.toList ↔ x ∈ values := by
  induction h with
  | empty => simp
  | one value => simp
  | ofList xs => simp [mem_distinct]
  | meet hs ht ihs iht =>
    intro x
    rw [mem_meet hs.canonical ht.canonical, Finset.mem_union, ihs, iht]
  | map f _ hs =>
    intro y
    rw [mem_map, Finset.mem_image]
    simp only [hs]

theorem Made.toFinset_toList (h : Made s values) : s.toList.toFinset = values := by
  ext x
  rw [List.mem_toFinset, h.mem_toList]

theorem Made.size_eq (h : Made s values) : s.size = values.card := by
  rw [← h.toFinset_toList, List.toFinset_card_of_nodup h.canonical.nodup_toList, length_toList]

theorem Made.stores (h : Made s values) : s.Stores values where
  nodup := h.canonical.nodup_toList
  mem_toList := h.mem_toList
  contains_iff x := contains_iff.trans (h.mem_toList x)
  length_eq := s.length_toList
  size_eq := h.size_eq
  isBacked_iff := h.canonical.isBacked_iff

theorem Made.beq_iff (hs : Made s values) (ht : Made t values') :
    (s == t) = true ↔ values = values' := by
  have he := ValueSet.beq_iff (a := ⟨s, hs.canonical⟩) (b := ⟨t, ht.canonical⟩)
  refine he.trans ?_
  rw [Finset.ext_iff]
  exact forall_congr' fun x => iff_congr (hs.mem_toList x) (ht.mem_toList x)

theorem Made.toNat_hashSum (h : Made s values) (hash : α → UInt64) :
    (s.hashSum hash).toNat = (∑ x ∈ values, (hash x).toNat) % UInt64.size := by
  rw [Storage.toNat_hashSum, ← h.toFinset_toList, List.sum_toFinset _ h.canonical.nodup_toList]

/-- A set that some operations make yields each of the values that they put together once, and
nothing else; it counts them, and keeps them in a list of their own exactly if there are two. Two
such sets are equal exactly if they have the same values. A hasher is given the number of values and
the sum of their hashes, so that equal sets give it the same. -/
theorem made_canonical (hs : Made s values) (ht : Made t values') :
    s.Canonical ∧ s.Stores values ∧
    ((s == t) = true ↔ values = values') ∧
    ((s == t) = true ↔ ∀ x, s.contains x = t.contains x) ∧
    (∀ hash : α → UInt64, (s.digest hash).1 = values.card ∧
      (s.digest hash).2.toNat = (∑ x ∈ values, (hash x).toNat) % UInt64.size) ∧
    ((s == t) = true → ∀ hash : α → UInt64, s.digest hash = t.digest hash) := by
  have hv := hs.beq_iff ht
  refine ⟨hs.canonical, hs.stores, hv, ?_, fun hash => ⟨hs.size_eq, hs.toNat_hashSum hash⟩, ?_⟩
  · rw [hv, Finset.ext_iff]
    apply forall_congr'
    intro x
    rw [Bool.eq_iff_iff, hs.stores.contains_iff, ht.stores.contains_iff]
  · intro he hash
    rw [hv] at he
    have hsize : s.size = t.size := by
      rw [hs.size_eq, ht.size_eq, he]
    have hsum : s.hashSum hash = t.hashSum hash := by
      apply UInt64.toNat_inj.1
      rw [hs.toNat_hashSum, ht.toNat_hashSum, he]
    rw [digest, digest, hsize, hsum]

/-- Numbers become one when only their parity is kept, and the set is stored inline again. -/
theorem made_parity : Made (((ofList [5, 3]).meet (one 7)).map (· % 2)) {1} ∧
    Made (ofList [1, 1]) {1} ∧
    ((ofList [5, 3]).meet (one 7)).map (· % 2) == (ofList [1, 1] : Storage Nat) ∧
    (((ofList [5, 3]).meet (one 7)).map (· % 2)).isBacked = false ∧
    (((ofList [5, 3]).meet (one 7)).map (· % 2)).digest UInt64.ofNat =
      (ofList [1, 1] : Storage Nat).digest UInt64.ofNat := by
  have hs : Made (((ofList [5, 3]).meet (one 7)).map (· % 2)) {1} :=
    ((Made.ofList [5, 3]).meet (.one 7)).map (· % 2)
  have ht : Made (ofList [1, 1]) {1} := .ofList [1, 1]
  obtain ⟨-, hstores, hv, -, -, hdigest⟩ := made_canonical hs ht
  have he := hv.2 rfl
  refine ⟨hs, ht, he, ?_, hdigest he UInt64.ofNat⟩
  rw [← Bool.not_eq_true, hstores.isBacked_iff, hstores.size_eq]
  decide

end Storage

end CapabilityFlow
