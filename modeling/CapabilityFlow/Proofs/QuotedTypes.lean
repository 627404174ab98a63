import CapabilityFlow.Proofs.EnforcedArguments
import CapabilityFlow.Proofs.SeparateJudgement
import CapabilityFlow.Proofs.Trimming

namespace CapabilityFlow

namespace TypeName

/-- The name has no comma, and no blank at its ends. -/
structure IsPlain (name : TypeName) : Prop where
  not_comma : ',' ∉ name.toList
  isTrimmed : Text.IsTrimmed name.toList

instance (name : TypeName) : Decidable name.IsPlain :=
  decidable_of_iff (',' ∉ name.toList ∧ Text.IsTrimmed name.toList)
    ⟨fun h => ⟨h.1, h.2⟩, fun h => ⟨h.1, h.2⟩⟩

def qualified (name : TypeName) : Option String → String
  | none => name
  | some qualifier => name ++ "," ++ qualifier

/-- The text is the name between blanks, alone or with a qualifier behind a comma. -/
def IsNamedIn (name : TypeName) (text : String) : Prop :=
  ∃ before after qualifier, (∀ c ∈ String.toList before, Text.isBlank c = true) ∧
    (∀ c ∈ String.toList after, Text.isBlank c = true) ∧
    text = qualified (before ++ name ++ after) qualifier

variable {name : TypeName} {text : String}

theorem toList_qualified_some (name : TypeName) (qualifier : String) :
    (name.qualified (some qualifier)).toList = name.toList ++ ',' :: qualifier.toList := by
  rw [qualified, String.toList_append, String.toList_append, List.append_assoc]
  rfl

theorem isNamedIn_qualified (name : TypeName) (qualifier : Option String) :
    name.IsNamedIn (name.qualified qualifier) := by
  refine ⟨"", "", qualifier, fun _ h => absurd h List.not_mem_nil,
    fun _ h => absurd h List.not_mem_nil, ?_⟩
  rw [String.empty_append, String.append_empty]

theorem takeWhile_qualified (h : ',' ∉ name.toList) (qualifier : Option String) :
    (name.qualified qualifier).toList.takeWhile (· ≠ ',') = name.toList := by
  have hall : ∀ c ∈ name.toList, decide (c ≠ ',') = true := by
    intro c hc
    rw [decide_eq_true_eq]
    rintro rfl
    exact h hc
  cases qualifier with
  | none => exact List.takeWhile_eq_self_iff.2 hall
  | some qualifier =>
    rw [toList_qualified_some, List.takeWhile_append_of_pos hall,
      List.takeWhile_cons_of_neg (by decide), List.append_nil]

theorem exists_qualified (text : String) :
    ∃ front qualifier, ',' ∉ String.toList front ∧ text = qualified front qualifier := by
  have hfront : ',' ∉ text.toList.takeWhile (· ≠ ',') := by
    intro hc
    simpa using List.mem_takeWhile_imp hc
  have hsplit := List.takeWhile_append_dropWhile (p := (· ≠ ',')) (l := text.toList)
  refine ⟨.ofList (text.toList.takeWhile (· ≠ ',')), ?_⟩
  rw [String.toList_ofList]
  cases hrest : text.toList.dropWhile (· ≠ ',') with
  | nil =>
    refine ⟨none, hfront, ?_⟩
    rw [hrest, List.append_nil] at hsplit
    rw [qualified, hsplit, String.ofList_toList]
  | cons c rest =>
    have hc : c = ',' := by
      have h := List.head?_dropWhile_not (· ≠ ',') text.toList
      rw [hrest] at h
      simpa using h
    refine ⟨some (.ofList rest), hfront, ?_⟩
    rw [hrest, hc] at hsplit
    apply String.toList_inj.1
    rw [toList_qualified_some, String.toList_ofList, String.toList_ofList, hsplit]

theorem not_comma_between {before after : String}
    (hbefore : ∀ c ∈ before.toList, Text.isBlank c = true)
    (hafter : ∀ c ∈ after.toList, Text.isBlank c = true) (h : ',' ∉ name.toList) :
    ',' ∉ (before ++ name ++ after).toList := by
  have hblank : ¬ Text.isBlank ',' = true := by decide
  rw [String.toList_append, String.toList_append, List.mem_append, List.mem_append]
  rintro ((hc | hc) | hc)
  · exact hblank (hbefore _ hc)
  · exact h hc
  · exact hblank (hafter _ hc)

theorem IsNamedIn.trim_front (h : name.IsNamedIn text) (hplain : name.IsPlain) :
    Text.trim (text.toList.takeWhile (· ≠ ',')) = name.toList := by
  obtain ⟨before, after, qualifier, hbefore, hafter, rfl⟩ := h
  rw [takeWhile_qualified (not_comma_between hbefore hafter hplain.not_comma),
    String.toList_append, String.toList_append, Text.trim_append_blanks hafter,
    Text.trim_blanks_append hbefore, hplain.isTrimmed.trim_eq]

theorem isPlain_of_trim_front (h : Text.trim (text.toList.takeWhile (· ≠ ',')) = name.toList) :
    name.IsPlain ∧ name.IsNamedIn text := by
  obtain ⟨front, qualifier, hcomma, rfl⟩ := exists_qualified text
  rw [takeWhile_qualified hcomma] at h
  obtain ⟨before, after, hfront, hbefore, hafter⟩ := Text.exists_eq_append_trim front.toList
  rw [h] at hfront
  have hwhole : front = String.ofList before ++ name ++ String.ofList after := by
    apply String.toList_inj.1
    rw [String.toList_append, String.toList_append, String.toList_ofList, String.toList_ofList,
      hfront]
  constructor
  · refine ⟨?_, h ▸ Text.isTrimmed_trim _⟩
    -- the name is a part of what stands in front of the first comma
    intro hc
    apply hcomma
    rw [← hfront]
    exact List.mem_append_left _ (List.mem_append_right _ hc)
  · refine ⟨.ofList before, .ofList after, qualifier, ?_, ?_, ?_⟩
    · rwa [String.toList_ofList]
    · rwa [String.toList_ofList]
    · rw [← hwhole]

end TypeName

namespace SymbolTable

variable {table : SymbolTable} {text : String} {name : TypeName}

/-- A text resolves to the declared type that it names, if the name is plain. -/
theorem resolve_eq_some_iff : table.resolve text = some name ↔
    table.types.contains name = true ∧ name.IsPlain ∧ name.IsNamedIn text := by
  rw [resolve_eq_some]
  refine and_congr_right fun _ => ?_
  exact ⟨TypeName.isPlain_of_trim_front, fun h => h.2.trim_front h.1⟩

theorem resolve_qualified_iff (h : table.types.contains name = true) (qualifier : Option String) :
    table.resolve (name.qualified qualifier) = some name ↔ name.IsPlain := by
  rw [resolve_eq_some_iff]
  exact ⟨fun hr => hr.2.1, fun hplain => ⟨h, hplain, name.isNamedIn_qualified qualifier⟩⟩

end SymbolTable

namespace Host

variable {host : Host} {r : Requirement} {location : Location} {text : String}

theorem diagnostics_enforce_constant :
    (host.enforce r location (.one (.constant text))).diagnostics = [] := by
  apply diagnostics_enforce_eq_nil.2
  intro _ v hv
  rw [ValueSet.mem_one.1 hv]
  trivial

theorem marks_enforce_constant (h : r.required ≠ ∅) :
    (host.enforce r location (.one (.constant text))).marks =
      (host.resolve text).toList.map (⟨·, r.required⟩) := by
  simp only [Check.marks, enforce, Check.emit, Requirement.enforce, if_neg h, ValueSet.toList_one,
    List.flatMap_singleton, Requirement.judge]
  cases host.resolve text with
  | none => rfl
  | some name => rfl

theorem marks_enforce_of_empty {values : ValueSet Value} (h : r.required = ∅) :
    (host.enforce r location values).marks = [] := by
  rw [Check.marks, events_enforce_of_empty h, List.filterMap_nil]

theorem marks_enforce_constant_eq_one {name : TypeName} (h : r.required ≠ ∅) :
    (host.enforce r location (.one (.constant text))).marks = [⟨name, r.required⟩] ↔
      host.resolve text = some name := by
  rw [marks_enforce_constant h]
  cases host.resolve text with
  | none => exact iff_of_false nofun nofun
  | some name' => simp

theorem length_marks_enforce_constant :
    (host.enforce r location (.one (.constant text))).marks.length ≤ 1 := by
  by_cases h : r.required = ∅
  · rw [marks_enforce_of_empty h]
    exact Nat.zero_le 1
  · rw [marks_enforce_constant h, List.length_map]
    cases host.resolve text with
    | none => exact Nat.zero_le 1
    | some name => exact Nat.le_refl 1

theorem mem_marks_enforce_constant {k : Mark} :
    k ∈ (host.enforce r location (.one (.constant text))).marks ↔
      r.required ≠ ∅ ∧ k.required = r.required ∧ host.resolve text = some k.type := by
  rw [MethodBody.mem_marks, mem_enforce]
  refine and_congr_right fun _ => ?_
  simp [ValueSet.mem_one, Requirement.mark_mem_judge]

end Host

namespace SymbolTable

/-- Where a text reaches a place that requires something, nothing is reported, and at most one type
is kept: the declared type that the text names, if its name is plain. So a declared type is kept by
its name, alone or with any qualifier, exactly if the name has no comma and no blank at its ends. A
type with another name is kept by no text at all, and neither is a type that is not declared. -/
theorem quoted_type_kept (table : SymbolTable) (r : Requirement) (location : Location) :
    (r.required ≠ ∅ → ∀ name : TypeName, table.types.contains name = true → ∀ qualifier,
      let c := table.host.enforce r location (.one (.constant (name.qualified qualifier)))
      c.diagnostics = [] ∧ (c.marks = [⟨name, r.required⟩] ↔ name.IsPlain)) ∧
    ∀ text,
      let c := table.host.enforce r location (.one (.constant text))
      c.outcome = .ok () ∧ c.diagnostics = [] ∧ c.marks.length ≤ 1 ∧
      ∀ k, k ∈ c.marks ↔ r.required ≠ ∅ ∧ k.required = r.required ∧
        table.types.contains k.type = true ∧ k.type.IsPlain ∧ k.type.IsNamedIn text := by
  constructor
  · intro hr name hdeclared qualifier c
    refine ⟨Host.diagnostics_enforce_constant, ?_⟩
    rw [← resolve_qualified_iff hdeclared qualifier]
    exact Host.marks_enforce_constant_eq_one hr
  · intro text c
    refine ⟨rfl, Host.diagnostics_enforce_constant, Host.length_marks_enforce_constant, ?_⟩
    intro k
    rw [← resolve_eq_some_iff]
    exact Host.mem_marks_enforce_constant

def shapeTable : SymbolTable :=
  (((∅ : SymbolTable).type "Shapes.Circle" id).type "Map`2[Key,Shape]" id).type "Shape " id

theorem quoted_type_kept_circle :
    let c := shapeTable.host.enforce Host.factoryRequirement ⟨3, 1⟩
      (.one (.constant "Shapes.Circle, Shapes"))
    Host.factoryRequirement.required ≠ ∅ ∧ shapeTable.types.contains "Shapes.Circle" = true ∧
    c.diagnostics = [] ∧ c.marks = [⟨"Shapes.Circle", Host.factoryRequirement.required⟩] := by
  intro c
  have hrequired : Host.factoryRequirement.required ≠ ∅ := by decide
  have hdeclared : shapeTable.types.contains "Shapes.Circle" = true := by decide
  have htext : TypeName.qualified "Shapes.Circle" (some " Shapes") = "Shapes.Circle, Shapes" := by
    decide
  obtain ⟨hkept, -⟩ := quoted_type_kept shapeTable Host.factoryRequirement ⟨3, 1⟩
  obtain ⟨hquiet, hmarks⟩ := hkept hrequired "Shapes.Circle" hdeclared (some " Shapes")
  rw [htext] at hquiet hmarks
  exact ⟨hrequired, hdeclared, hquiet, hmarks.2 (by decide +kernel)⟩

/-- The name of a closed generic type keeps the type where it is known as a type, but as a text, be
it alone or with a qualifier, it keeps nothing; nor does a name that ends with a blank. -/
theorem closed_generic_name_lost :
    let kept (value : Value) :=
      (shapeTable.host.enforce Host.factoryRequirement {} (.one value)).marks
    let map : TypeName := "Map`2[Key,Shape]"
    let padded : TypeName := "Shape "
    Host.factoryRequirement.required ≠ ∅ ∧
    (shapeTable.types.contains map = true ∧
      kept (.type map) = [⟨map, Host.factoryRequirement.required⟩] ∧
      kept (.constant map) = [] ∧ kept (.constant (map.qualified (some " Shapes"))) = []) ∧
    shapeTable.types.contains padded = true ∧
      kept (.type padded) = [⟨padded, Host.factoryRequirement.required⟩] ∧
      kept (.constant padded) = [] ∧ kept (.constant (padded.qualified (some " Shapes"))) = [] := by
  decide +kernel

end SymbolTable

end CapabilityFlow
