import CapabilityFlow.Text
import Mathlib.Data.List.Induction
import Mathlib.Data.List.TakeWhile

namespace CapabilityFlow.Text

variable {cs blanks : List Char}

theorem trim_cons_blank {c : Char} (h : isBlank c = true) (cs : List Char) :
    trim (c :: cs) = trim cs := by
  rw [trim, trim, List.dropWhile_cons_of_pos h]

theorem trim_append_blank {c : Char} (h : isBlank c = true) (cs : List Char) :
    trim (cs ++ [c]) = trim cs := by
  rw [trim, trim, List.dropWhile_append]
  split
  · rename_i he
    rw [List.isEmpty_iff.1 he]
    simp [h]
  · simp [h]

theorem trim_blanks_append (h : ∀ c ∈ blanks, isBlank c = true) (cs : List Char) :
    trim (blanks ++ cs) = trim cs := by
  induction blanks with
  | nil => rfl
  | cons c blanks ih =>
    rw [List.forall_mem_cons] at h
    rw [List.cons_append, trim_cons_blank h.1, ih h.2]

theorem trim_append_blanks (h : ∀ c ∈ blanks, isBlank c = true) (cs : List Char) :
    trim (cs ++ blanks) = trim cs := by
  induction blanks using List.reverseRecOn with
  | nil => rw [List.append_nil]
  | append_singleton blanks c ih =>
    rw [List.forall_mem_append, List.forall_mem_singleton] at h
    rw [← List.append_assoc, trim_append_blank h.2, ih h.1]

theorem trim_append_end (cs : List Char) :
    trim cs ++ ((cs.dropWhile isBlank).reverse.takeWhile isBlank).reverse =
      cs.dropWhile isBlank := by
  rw [trim, ← List.reverse_append, List.takeWhile_append_dropWhile, List.reverse_reverse]

theorem exists_eq_append_trim (cs : List Char) : ∃ before after,
    before ++ trim cs ++ after = cs ∧ (∀ c ∈ before, isBlank c = true) ∧
      ∀ c ∈ after, isBlank c = true := by
  refine ⟨cs.takeWhile isBlank, ((cs.dropWhile isBlank).reverse.takeWhile isBlank).reverse,
    ?_, fun c hc => List.mem_takeWhile_imp hc, fun c hc => ?_⟩
  · rw [List.append_assoc, trim_append_end, List.takeWhile_append_dropWhile]
  · exact List.mem_takeWhile_imp (List.mem_reverse.1 hc)

/-- The text neither begins nor ends with a blank. -/
structure IsTrimmed (cs : List Char) : Prop where
  not_blank_head : ∀ c ∈ cs.head?, isBlank c = false
  not_blank_last : ∀ c ∈ cs.getLast?, isBlank c = false

theorem dropWhile_isBlank (h : ∀ c ∈ cs.head?, isBlank c = false) : cs.dropWhile isBlank = cs := by
  cases cs with
  | nil => rfl
  | cons c cs => exact List.dropWhile_cons_of_neg (by simp [h c rfl])

theorem not_blank_head_dropWhile (cs : List Char) :
    ∀ c ∈ (cs.dropWhile isBlank).head?, isBlank c = false := by
  intro c hc
  have h := List.head?_dropWhile_not isBlank cs
  rw [hc] at h
  exact h

theorem IsTrimmed.trim_eq (h : IsTrimmed cs) : trim cs = cs := by
  have hlast : ∀ c ∈ cs.reverse.head?, isBlank c = false := by
    rw [List.head?_reverse]
    exact h.not_blank_last
  rw [trim, dropWhile_isBlank h.not_blank_head, dropWhile_isBlank hlast, List.reverse_reverse]

theorem isTrimmed_trim (cs : List Char) : IsTrimmed (trim cs) := by
  constructor
  · intro c hc
    -- the blanks at the end stand behind whatever the rest begins with
    apply not_blank_head_dropWhile cs
    rw [← trim_append_end, List.head?_append, hc]
    rfl
  · rw [trim, List.getLast?_reverse]
    exact not_blank_head_dropWhile _

theorem trim_eq_self_iff : trim cs = cs ↔ IsTrimmed cs :=
  ⟨fun h => h ▸ isTrimmed_trim cs, IsTrimmed.trim_eq⟩

instance : Decidable (IsTrimmed cs) := decidable_of_iff (trim cs = cs) trim_eq_self_iff

theorem isTrimmed_of_forall (h : ∀ c ∈ cs, isBlank c = false) : IsTrimmed cs :=
  ⟨fun c hc => h c (List.mem_of_mem_head? hc), fun c hc => h c (List.mem_of_getLast? hc)⟩

theorem trim_of_forall (h : ∀ c ∈ cs, isBlank c = false) : trim cs = cs :=
  (isTrimmed_of_forall h).trim_eq

end CapabilityFlow.Text
