import CapabilityFlow.Enforcement
import CapabilityFlow.Proofs.Facts

namespace CapabilityFlow

variable {α : Type} [DecidableEq α]

theorem distinct_append {xs ys : List α} (hx : xs.Nodup) (hy : ys.Nodup) :
    distinct (xs ++ ys) = xs ++ ys.filter (· ∉ xs) := by
  induction xs with
  | nil => simp [distinct_of_nodup hy]
  | cons x xs ih =>
    rw [List.nodup_cons] at hx
    have hkept : xs.filter (· ≠ x) = xs := by
      apply List.filter_eq_self.2
      intro y hm
      rw [decide_eq_true_eq]
      rintro rfl
      exact hx.1 hm
    rw [List.cons_append, distinct, ih hx.2, List.filter_append, hkept, List.filter_filter,
      List.cons_append]
    simp only [List.mem_cons, not_or, Bool.decide_and]

namespace ValueSet

variable {a b : ValueSet α}

theorem filter_not_mem_eq_nil {xs : List α} (h : ∀ x ∈ xs, x ∈ a) : xs.filter (· ∉ a) = [] := by
  apply List.filter_eq_nil_iff.2
  intro x hx
  simpa using h x hx

omit [DecidableEq α] in
theorem eq_of_not_isBacked (ha : a.isBacked = false) (h : ∀ x, x ∈ a ↔ x ∈ b) : a = b := by
  have hp : a.toList.Perm b.toList := toList_perm_iff.2 h
  apply ext_toList
  obtain ⟨s, hs⟩ := a
  cases s with
  | empty => exact hp.nil_eq
  | one x => exact (List.perm_singleton.1 hp.symm).symm
  | many values => cases ha

theorem meet_cases (a b : ValueSet α) :
    (a.meet b = a ∧ ∀ x ∈ b, x ∈ a) ∨
    (a.meet b = b ∧ (∀ x ∈ a, x ∈ b) ∧ a.isBacked = false) ∨
    ((a.meet b).toList = distinct (a.toList ++ b.toList) ∧
      (a.isBacked = true ∨ ∃ x ∈ a, x ∉ b)) := by
  rcases Storage.meet_cases a.canonical b.canonical with ⟨he, h⟩ | ⟨he, h⟩ | ⟨he, -, h⟩
  · exact .inl ⟨ValueSet.ext he, h⟩
  · exact .inr (.inl ⟨ValueSet.ext he, h⟩)
  · exact .inr (.inr ⟨congrArg Storage.toList he, h⟩)

/-- But for a single value that the second set has, a join lists the values of both in turn. -/
theorem toList_meet (h : a.isBacked = true ∨ ∃ x ∈ a, x ∉ b) :
    (a.meet b).toList = a.toList ++ b.toList.filter (· ∉ a) := by
  rcases meet_cases a b with ⟨he, hba⟩ | ⟨-, hab, ha⟩ | ⟨he, -⟩
  · rw [he, filter_not_mem_eq_nil hba, List.append_nil]
  · rcases h with h | ⟨x, hx, hn⟩
    · exact absurd (ha.symm.trans h) Bool.false_ne_true
    · exact absurd (hab x hx) hn
  · exact he.trans (distinct_append a.nodup_toList b.nodup_toList)

theorem meet_eq_right (ha : a.isBacked = false) (h : ∀ x ∈ a, x ∈ b) : a.meet b = b := by
  rcases meet_cases a b with ⟨he, hba⟩ | ⟨he, -⟩ | ⟨-, hb | ⟨x, hx, hn⟩⟩
  · exact he.trans (eq_of_not_isBacked ha fun x => ⟨h x, hba x⟩)
  · exact he
  · exact absurd (ha.symm.trans hb) Bool.false_ne_true
  · exact absurd (h x hx) hn

theorem meet_eq_left (h : ∀ x ∈ b, x ∈ a) : a.meet b = a := by
  rcases meet_cases a b with ⟨he, -⟩ | ⟨he, hab, ha⟩ | ⟨-, hnew⟩
  · exact he
  · exact he.trans (eq_of_not_isBacked ha fun x => ⟨hab x, h x⟩).symm
  · apply ext_toList
    rw [toList_meet hnew, filter_not_mem_eq_nil h, List.append_nil]

theorem meet_eq_right_of_isPrefix (h : a.toList <+: b.toList) : a.meet b = b := by
  have hsub : ∀ x ∈ a, x ∈ b := fun x hx => h.subset hx
  cases ha : a.isBacked with
  | false => exact meet_eq_right ha hsub
  | true =>
    obtain ⟨rest, hrest⟩ := h
    have hdisjoint := b.nodup_toList
    rw [← hrest, List.nodup_append] at hdisjoint
    have hold : a.toList.filter (· ∉ a) = [] := filter_not_mem_eq_nil fun _ hx => hx
    have hnew : rest.filter (· ∉ a) = rest := by
      apply List.filter_eq_self.2
      intro x hx
      rw [decide_eq_true_eq]
      exact fun hm => hdisjoint.2.2 x hm x hx rfl
    apply ext_toList
    rw [toList_meet (.inl ha), ← hrest, List.filter_append, hold, hnew, List.nil_append]

/-- If one of two sets has all values of the other, the join is one of the two, with its values in
their order, exactly if the second adds nothing to the first, or the first has at most one value, or
its values are the first ones of the second in this order. In any other case the values of the first
are moved to the front. -/
theorem meet_unchanged_iff (h : (∀ x ∈ a, x ∈ b) ∨ ∀ x ∈ b, x ∈ a) :
    (a.meet b = a ∨ a.meet b = b ↔
      (∀ x ∈ b, x ∈ a) ∨ a.isBacked = false ∨ a.toList <+: b.toList) ∧
    (a.isBacked = true → (a.meet b).toList = a.toList ++ b.toList.filter (· ∉ a)) := by
  refine ⟨⟨?_, ?_⟩, fun ha => toList_meet (.inl ha)⟩
  · rintro (he | he)
    · left
      intro x hx
      rw [← he, mem_meet]
      exact .inr hx
    · right
      cases ha : a.isBacked with
      | false => exact .inl rfl
      | true => exact .inr ⟨_, (toList_meet (.inl ha)).symm.trans (congrArg toList he)⟩
  · rintro (hba | ha | hstart)
    · exact .inl (meet_eq_left hba)
    · rcases h with hab | hba
      · exact .inr (meet_eq_right ha hab)
      · exact .inl (meet_eq_left hba)
    · exact .inr (meet_eq_right_of_isPrefix hstart)

theorem meet_unchanged_three_one :
    let left : ValueSet Nat := .ofList [3, 1]
    let right : ValueSet Nat := .ofList [3, 1, 2]
    (∀ x ∈ left, x ∈ right) ∧ left.isBacked = true ∧
      (left.meet right = left ∨ left.meet right = right) := by
  intro left right
  have hsub : ∀ x ∈ left.toList, x ∈ right := by decide
  have hstart : left.toList <+: right.toList := by decide
  exact ⟨hsub, rfl, (meet_unchanged_iff (.inl hsub)).1.2 (.inr (.inr hstart))⟩

/-- The larger set has all values of the smaller one, yet their join is neither of the two, and what
is reported of it comes in another order than what is reported of the larger set. -/
theorem larger_set_reordered :
    let first : Value := .annotated (.field "First") ∅
    let second : Value := .annotated (.field "Second") ∅
    let few : ValueSet Value := .ofList [first, second]
    let many : ValueSet Value := .ofList [second, first, .unknown]
    let reports :=
      (⟨.field "Kept", Kind.publicMethods.set⟩ : Requirement).enforce (fun _ => none) {}
    (∀ v ∈ few, v ∈ many) ∧ few.meet many ≠ few ∧ few.meet many ≠ many ∧
      (reports (few.meet many)).Perm (reports many) ∧ reports (few.meet many) ≠ reports many := by
  intro first second few many reports
  have hsub : ∀ v ∈ few.toList, v ∈ many := by decide +kernel
  exact ⟨hsub, ne_of_apply_ne toList (by decide +kernel), ne_of_apply_ne toList (by decide +kernel),
    by decide +kernel, by decide +kernel⟩

end ValueSet

end CapabilityFlow
