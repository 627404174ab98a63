import CapabilityFlow.Capabilities
import CapabilityFlow.Proofs.Trimming
import Mathlib.Data.List.Basic
import Mathlib.Data.Nat.Basic

namespace CapabilityFlow

namespace Text

def nonblank (separates : Char → Bool) (cs : List Char) : List (List Char) :=
  ((fields separates cs).map trim).filter (· ≠ [])

section Fields

variable {separates : Char → Bool}

theorem fields_append {cs : List Char} (h : ∀ c ∈ cs, separates c = false) {s : Char}
    (hs : separates s = true) (rest : List Char) :
    fields separates (cs ++ s :: rest) = cs :: fields separates rest := by
  induction cs with
  | nil => simp [fields, hs]
  | cons c cs ih =>
    rw [List.forall_mem_cons] at h
    simp [fields, h.1, ih h.2]

/-- A text that can stand between separators and comes back as it is. -/
structure IsPart (separates : Char → Bool) (cs : List Char) : Prop where
  ne_nil : cs ≠ []
  not_separates : ∀ c ∈ cs, separates c = false
  not_blank : ∀ c ∈ cs, isBlank c = false

theorem nonblank_cons_blank {c : Char} (hb : isBlank c = true) (hs : separates c = false)
    (cs : List Char) : nonblank separates (c :: cs) = nonblank separates cs := by
  rw [nonblank, nonblank, fields, if_neg (by simp [hs])]
  cases fields separates cs with
  | nil => rfl
  | cons f fs => simp [trim_cons_blank hb]

theorem IsPart.nonblank_eq {cs : List Char} (h : IsPart separates cs) :
    nonblank separates cs = [cs] := by
  rw [nonblank, fields_of_forall h.not_separates]
  simp [trim_of_forall h.not_blank, h.ne_nil]

theorem IsPart.nonblank_append {cs : List Char} (h : IsPart separates cs) {b s : Char}
    (hb : isBlank b = true) (hbs : separates b = false) (hs : separates s = true)
    (rest : List Char) :
    nonblank separates (cs ++ b :: s :: rest) = cs :: nonblank separates rest := by
  have hcs : ∀ c ∈ cs ++ [b], separates c = false := by
    intro c hc
    rcases List.mem_append.1 hc with hc | hc
    · exact h.not_separates c hc
    · exact List.mem_singleton.1 hc ▸ hbs
  have hf := fields_append hcs hs rest
  rw [List.append_assoc, List.singleton_append] at hf
  rw [nonblank, hf, List.map_cons, trim_append_blank hb, trim_of_forall h.not_blank,
    List.filter_cons_of_pos (by simp [h.ne_nil]), nonblank]

/-- Parts that are joined by a separator between blanks can be taken apart again. -/
theorem nonblank_intercalate {b s : Char} (hb : isBlank b = true) (hbs : separates b = false)
    (hs : separates s = true) {parts : List (List Char)}
    (h : ∀ part ∈ parts, IsPart separates part) :
    nonblank separates ([b, s, b].intercalate parts) = parts := by
  induction parts with
  | nil => rfl
  | cons part parts ih =>
    rw [List.forall_mem_cons] at h
    cases parts with
    | nil => simpa using h.1.nonblank_eq
    | cons next parts =>
      rw [List.intercalate_cons_cons, List.append_assoc, List.cons_append, List.cons_append,
        List.singleton_append, h.1.nonblank_append hb hbs hs, nonblank_cons_blank hb hbs, ih h.2]

end Fields

theorem mem_toDigits {n : Nat} {c : Char} (h : c ∈ Nat.toDigits 16 n) :
    ∃ d < 16, c = Nat.digitChar d := by
  induction n using Nat.strongRecOn with
  | ind n ih =>
    rw [Nat.toDigits_eq_if (by decide)] at h
    split at h
    · rename_i hn
      exact ⟨n, hn, List.mem_singleton.1 h⟩
    · rename_i hn
      rcases List.mem_append.1 h with h | h
      · exact ih (n / 16) (by omega) h
      · exact ⟨n % 16, Nat.mod_lt _ (by decide), List.mem_singleton.1 h⟩

theorem toList_hexadecimal (n : Nat) :
    (hexadecimal n).toList = '0' :: 'x' :: Nat.toDigits 16 n := by
  simp [hexadecimal]

end Text

namespace Capabilities

variable {a b c : Capabilities} {i : Nat}

/-- The set has the bit that stands for `2 ^ i`. -/
def Has (c : Capabilities) (i : Nat) : Prop := c.bits.getLsbD i = true

instance : Decidable (c.Has i) := inferInstanceAs (Decidable (_ = _))

theorem Has.lt (h : c.Has i) : i < 32 := BitVec.lt_of_getLsbD h

@[simp] theorem not_has_empty : ¬ (∅ : Capabilities).Has i := by
  simp [Has]

@[simp] theorem has_all : all.Has i ↔ i < 32 := by
  simp only [Has, bits_all, BitVec.getLsbD_allOnes, decide_eq_true_eq]

@[simp] theorem has_union : (a ∪ b).Has i ↔ a.Has i ∨ b.Has i := by
  simp [Has]

@[simp] theorem has_sdiff : (a \ b).Has i ↔ a.Has i ∧ ¬ b.Has i := by
  simp only [Has, bits_sdiff, BitVec.getLsbD_and, BitVec.getLsbD_not]
  by_cases h : a.bits.getLsbD i = true
  · simp [h, BitVec.lt_of_getLsbD h]
  · simp [h]

@[simp] theorem has_inter : (a ∩ b).Has i ↔ a.Has i ∧ b.Has i := by
  simp [Has]

theorem eq_of_has (h : ∀ i, a.Has i ↔ b.Has i) : a = b :=
  ext (BitVec.eq_of_getLsbD_eq fun i _ => Bool.eq_iff_iff.2 (h i))

theorem eq_empty_iff : c = ∅ ↔ ∀ i, ¬ c.Has i := by
  constructor
  · rintro rfl i
    exact not_has_empty
  · intro h
    exact eq_of_has fun i => iff_of_false (h i) not_has_empty

theorem subset_iff : a ⊆ b ↔ ∀ i, a.Has i → b.Has i := by
  constructor
  · intro h i ha
    rw [Has, ← subset_def.1 h, BitVec.getLsbD_and, Bool.and_eq_true] at ha
    exact ha.2
  · intro h
    apply BitVec.eq_of_getLsbD_eq
    intro i _
    have hi := h i
    simp only [Has] at hi
    rw [BitVec.getLsbD_and]
    cases ha : a.bits.getLsbD i with
    | false => rfl
    | true => rw [hi ha, Bool.and_self]

theorem named_eq : named = ⟨0x3fff⟩ := by
  decide

theorem has_named : named.Has i ↔ i < 14 := by
  rw [named_eq]
  by_cases hi : i < 32
  · have h : ∀ j < 32, Has ⟨0x3fff⟩ j ↔ j < 14 := by decide
    exact h i hi
  · exact iff_of_false (fun h => hi h.lt) (by omega)

/-- Each bit with a name but the second one is the whole of some kind. -/
theorem exists_kind : ∀ i < 14, i ≠ 1 → ∃ k ∈ Kind.every, k.set = ⟨.twoPow 32 i⟩ := by
  decide

theorem exists_has_kind (k : Kind) : ∃ i < 32, k.set.Has i := by
  cases k <;> decide

theorem twoPow_subset_iff (h : i < 32) : ⟨.twoPow 32 i⟩ ⊆ c ↔ c.Has i := by
  simp [subset_iff, Has, h]

/-- The set of all bits, or some named bits of which the second comes only with the first: the
second one has a name only together with the first. -/
def Nameable (c : Capabilities) : Prop :=
  c = all ∨ c ⊆ named ∧ (c.Has 1 → c.Has 0)

instance : DecidablePred Nameable := fun _ => inferInstanceAs (Decidable (_ ∨ _))

theorem nameable_kind (k : Kind) : k.set.Nameable := by
  cases k <;> decide

theorem union_comm (a b : Capabilities) : a ∪ b = b ∪ a := ext (BitVec.or_comm _ _)

theorem union_assoc (a b c : Capabilities) : a ∪ b ∪ c = a ∪ (b ∪ c) := ext (BitVec.or_assoc _ _ _)

instance : Std.Associative (α := Capabilities) (· ∪ ·) := ⟨union_assoc⟩

theorem union_empty (a : Capabilities) : a ∪ ∅ = a := ext BitVec.or_zero

theorem all_union : all ∪ c = all := by
  apply eq_of_has
  intro i
  rw [has_union, has_all]
  exact ⟨fun h => h.elim id Has.lt, .inl⟩

theorem Nameable.union (ha : a.Nameable) (hb : b.Nameable) : (a ∪ b).Nameable := by
  rcases ha with rfl | ⟨ha, ha'⟩
  · exact .inl all_union
  · rcases hb with rfl | ⟨hb, hb'⟩
    · exact .inl ((union_comm a all).trans all_union)
    · right
      simp only [subset_iff, has_union] at *
      grind

theorem unions_cons (c : Capabilities) (cs : List Capabilities) :
    unions (c :: cs) = c ∪ unions cs := by
  rw [unions, List.foldl_cons, union_comm, List.foldl_assoc, unions]

theorem nameable_unions {cs : List Capabilities} (h : ∀ c ∈ cs, c.Nameable) :
    (unions cs).Nameable := by
  induction cs with
  | nil => decide
  | cons c cs ih =>
    rw [List.forall_mem_cons] at h
    rw [unions_cons]
    exact h.1.union (ih h.2)

def written (c : Capabilities) : List Kind → List Kind
  | [] => []
  | k :: ks => if k.set ⊆ c then k :: written (c \ k.set) ks else written c ks

/-- What is left of a set when the kinds that it has are taken out one after the other. -/
def rest (c : Capabilities) : List Kind → Capabilities
  | [] => c
  | k :: ks => if k.set ⊆ c then rest (c \ k.set) ks else rest c ks

theorem parts_eq (c : Capabilities) (ks : List Kind) : c.parts ks = (c.written ks).map Kind.name ++
    if c.rest ks = ∅ then [] else [Text.hexadecimal (c.rest ks).bits.toNat] := by
  induction ks generalizing c with
  | nil => rfl
  | cons k ks ih =>
    rw [parts, written, rest]
    by_cases h : k.set ⊆ c
    · simp only [if_pos h, ih, List.map_cons, List.cons_append]
    · simp only [if_neg h, ih]

theorem union_sdiff (h : a ⊆ c) : a ∪ (c \ a) = c := by
  rw [subset_iff] at h
  apply eq_of_has
  intro i
  rw [has_union, has_sdiff]
  have hi := h i
  tauto

theorem unions_written (c : Capabilities) (ks : List Kind) :
    unions ((c.written ks).map Kind.set) ∪ c.rest ks = c := by
  induction ks generalizing c with
  | nil => exact ext (BitVec.zero_or)
  | cons k ks ih =>
    rw [written, rest]
    by_cases h : k.set ⊆ c
    · simp only [if_pos h, List.map_cons, unions_cons, union_assoc, ih, union_sdiff h]
    · simp only [if_neg h, ih]

theorem rest_subset (c : Capabilities) (ks : List Kind) : c.rest ks ⊆ c := by
  have h := unions_written c ks
  rw [subset_iff]
  intro i hi
  rw [← h, has_union]
  exact .inr hi

theorem not_has_rest {k : Kind} (h : k.set ⊆ c) (ks : List Kind) (hi : k.set.Has i) :
    ¬ (c.rest (k :: ks)).Has i := by
  rw [rest, if_pos h]
  intro hr
  exact (has_sdiff.1 (subset_iff.1 (rest_subset _ ks) i hr)).2 hi

theorem not_subset_rest {k : Kind} {ks : List Kind} (hk : k ∈ ks) : ¬ k.set ⊆ c.rest ks := by
  induction ks generalizing c with
  | nil => cases hk
  | cons k' ks ih =>
    rcases List.mem_cons.1 hk with rfl | hk
    · by_cases h : k.set ⊆ c
      · obtain ⟨i, -, hi⟩ := exists_has_kind k
        exact fun hs => not_has_rest h ks hi (subset_iff.1 hs i hi)
      · rw [rest, if_neg h]
        intro hs
        apply h
        rw [subset_iff] at hs ⊢
        exact fun i hi => subset_iff.1 (rest_subset c ks) i (hs i hi)
    · rw [rest]
      split
      · exact ih hk
      · exact ih hk

theorem publicConstructors_subset (h0 : c.Has 0) (h1 : c.Has 1) :
    Kind.publicConstructors.set ⊆ c := by
  have hb : ∀ i < 32, Kind.publicConstructors.set.Has i → i = 0 ∨ i = 1 := by decide
  rw [subset_iff]
  intro i hi
  rcases hb i hi.lt hi with rfl | rfl
  · exact h0
  · exact h1

/-- Of bits with names, only the second one can be left over. -/
theorem eq_one_of_has_rest (hc : c ⊆ named) (hi : (c.rest Kind.every).Has i) : i = 1 := by
  by_contra h1
  have hlt := has_named.1 (subset_iff.1 hc i (subset_iff.1 (rest_subset c Kind.every) i hi))
  obtain ⟨k, hk, he⟩ := exists_kind i hlt h1
  apply not_subset_rest hk (c := c)
  rw [he, twoPow_subset_iff (by omega)]
  exact hi

theorem rest_eq_empty (h : c.Nameable) (hc : c ≠ all) : c.rest Kind.every = ∅ := by
  obtain ⟨hn, h01⟩ := h.resolve_left hc
  rw [eq_empty_iff]
  intro i hi
  -- the second bit has a name only together with the first one
  cases eq_one_of_has_rest hn hi
  have h1 := subset_iff.1 (rest_subset c Kind.every) 1 hi
  exact not_has_rest (publicConstructors_subset (h01 h1) h1) _ (by decide) hi

theorem nameable_of_rest (h : c.rest Kind.every = ∅) : c.Nameable := by
  have hu := unions_written c Kind.every
  rw [h, union_empty] at hu
  rw [← hu]
  apply nameable_unions
  intro a ha
  obtain ⟨k, -, rfl⟩ := List.mem_map.1 ha
  exact nameable_kind k

theorem parse_of_parts {text : String} {parts : List (List Char)} (hne : parts ≠ [])
    (h : Text.nonblank isSeparator text.toList = parts) :
    parse text = unions <$> parts.mapM ofPart := by
  rw [Text.nonblank] at h
  rw [parse, h]
  cases parts with
  | nil => exact absurd rfl hne
  | cons part parts => rfl

theorem isPart_of_all {cs : List Char} (hne : cs ≠ [])
    (h : (cs.all fun c => !isSeparator c && !Text.isBlank c) = true) :
    Text.IsPart isSeparator cs := by
  simp only [List.all_eq_true, Bool.and_eq_true, Bool.not_eq_true'] at h
  exact ⟨hne, fun c hc => (h c hc).1, fun c hc => (h c hc).2⟩

theorem isPart_name (k : Kind) : Text.IsPart isSeparator k.name.toList := by
  cases k <;> exact isPart_of_all (by decide) rfl

theorem isPart_hexadecimal (n : Nat) :
    Text.IsPart isSeparator (Text.hexadecimal n).toList := by
  have hd : ∀ d < 16, isSeparator (Nat.digitChar d) = false ∧
      Text.isBlank (Nat.digitChar d) = false := by decide
  have hc : ∀ c ∈ (Text.hexadecimal n).toList, isSeparator c = false ∧ Text.isBlank c = false := by
    intro c hc
    rw [Text.toList_hexadecimal, List.mem_cons, List.mem_cons] at hc
    rcases hc with rfl | rfl | hc
    · decide
    · decide
    · obtain ⟨d, hlt, rfl⟩ := Text.mem_toDigits hc
      exact hd d hlt
  exact ⟨by simp [Text.toList_hexadecimal], fun c h => (hc c h).1, fun c h => (hc c h).2⟩

theorem ofPart_name (k : Kind) : ofPart k.name.toList = .ok k.set := by
  cases k <;> decide +kernel

theorem ofPart_hexadecimal (n : Nat) : ofPart (Text.hexadecimal n).toList =
    .error (.unknownKind (Text.hexadecimal n)) := by
  have hne : ∀ name : String, name.toList.head? ≠ some '0' → Text.hexadecimal n ≠ name := by
    rintro _ h rfl
    simp [Text.toList_hexadecimal] at h
  have hk : Kind.ofName? (Text.hexadecimal n) = none := by
    rw [Kind.ofName?, List.find?_eq_none]
    intro k _
    have hk : k.name.toList.head? ≠ some '0' := by
      cases k <;> decide
    simpa using (hne k.name hk).symm
  simp only [ofPart, String.ofList_toList]
  rw [if_neg (hne "None" (by decide)), if_neg (hne "All" (by decide)), hk]

theorem mapM_names (ks : List Kind) :
    ((ks.map Kind.name).map String.toList).mapM ofPart = .ok (ks.map Kind.set) := by
  induction ks with
  | nil => rfl
  | cons k ks ih =>
    rw [List.map_cons, List.map_cons, List.mapM_cons, ofPart_name, ih]
    rfl

theorem isPart_of_mem_parts {ks : List Kind} {part : String} (h : part ∈ c.parts ks) :
    Text.IsPart isSeparator part.toList := by
  rw [parts_eq] at h
  rcases List.mem_append.1 h with h | h
  · obtain ⟨k, -, rfl⟩ := List.mem_map.1 h
    exact isPart_name k
  · split at h
    · cases h
    · exact List.mem_singleton.1 h ▸ isPart_hexadecimal _

theorem parts_ne_nil (h : c ≠ ∅) (ks : List Kind) : c.parts ks ≠ [] := by
  intro hn
  have hu := unions_written c ks
  rw [parts_eq, List.append_eq_nil_iff, List.map_eq_nil_iff] at hn
  obtain ⟨hw, hr⟩ := hn
  split at hr
  · rename_i he
    rw [hw, he] at hu
    exact h hu.symm
  · cases hr

theorem parse_text_eq (h : c ≠ ∅) (ha : c ≠ all) :
    parse c.text = unions <$> ((c.parts Kind.every).map String.toList).mapM ofPart := by
  have hp : ∀ part ∈ (c.parts Kind.every).map String.toList, Text.IsPart isSeparator part := by
    intro part hpart
    obtain ⟨name, hname, rfl⟩ := List.mem_map.1 hpart
    exact isPart_of_mem_parts hname
  have hne : (c.parts Kind.every).map String.toList ≠ [] :=
    mt List.map_eq_nil_iff.1 (parts_ne_nil h _)
  apply parse_of_parts hne
  rw [text, if_neg h, if_neg ha, String.toList_intercalate]
  exact Text.nonblank_intercalate (b := ' ') (s := '|') (by decide) (by decide) (by decide) hp

theorem parse_text_of_rest (h : c ≠ ∅) (ha : c ≠ all) :
    parse c.text = if c.rest Kind.every = ∅ then .ok c
      else .error (.unknownKind (Text.hexadecimal (c.rest Kind.every).bits.toNat)) := by
  have hn := mapM_names (c.written Kind.every)
  have hu := unions_written c Kind.every
  rw [parse_text_eq h ha, parts_eq, List.map_append]
  split
  · rename_i he
    rw [he, union_empty] at hu
    rw [List.map_nil, List.append_nil, hn]
    exact congrArg Except.ok hu
  · rw [List.mapM_append, hn, List.map_cons, List.mapM_cons, ofPart_hexadecimal]
    rfl

theorem nameable_of_ofPart {part : List Char} (h : ofPart part = .ok c) : c.Nameable := by
  simp only [ofPart] at h
  split at h
  · cases h
    decide
  · split at h
    · cases h
      decide
    · split at h
      · cases h
        exact nameable_kind _
      · cases h

theorem nameable_of_mapM {parts : List (List Char)} {cs : List Capabilities}
    (h : parts.mapM ofPart = .ok cs) : ∀ c ∈ cs, c.Nameable := by
  induction parts generalizing cs with
  | nil =>
    cases h
    exact fun _ hc => nomatch hc
  | cons part parts ih =>
    rw [List.mapM_cons] at h
    cases hp : ofPart part with
    | error e => rw [hp] at h; cases h
    | ok d =>
      cases hs : parts.mapM ofPart with
      | error e => rw [hp, hs] at h; cases h
      | ok ds =>
        rw [hp, hs] at h
        cases h
        rw [List.forall_mem_cons]
        exact ⟨nameable_of_ofPart hp, ih hs⟩

theorem nameable_of_parse {text : String} (h : parse text = .ok c) : c.Nameable := by
  cases hp : Text.nonblank isSeparator text.toList with
  | nil =>
    rw [Text.nonblank] at hp
    rw [parse, hp] at h
    cases h
  | cons part parts =>
    rw [parse_of_parts (by simp) hp] at h
    cases hm : (part :: parts).mapM ofPart with
    | error e => rw [hm] at h; cases h
    | ok cs =>
      rw [hm] at h
      cases h
      exact nameable_unions (nameable_of_mapM hm)

theorem Nameable.parse_text (h : c.Nameable) : parse c.text = .ok c := by
  by_cases he : c = ∅
  · subst he
    decide
  · by_cases ha : c = all
    · subst ha
      decide
    · rw [parse_text_of_rest he ha, if_pos (rest_eq_empty h ha)]

theorem parse_text_of_not_nameable (h : ¬ c.Nameable) :
    parse c.text = .error (.unknownKind (Text.hexadecimal (c.rest Kind.every).bits.toNat)) := by
  have he : c ≠ ∅ := by
    rintro rfl
    exact h (by decide)
  have ha : c ≠ all := by
    rintro rfl
    exact h (by decide)
  rw [parse_text_of_rest he ha, if_neg fun hr => h (nameable_of_rest hr)]

/-- The text of a set is read back as that set exactly if names cover the set; any other text names
a kind that is not known. What is read of any text at all is covered by names, and so comes back. -/
theorem parse_text_iff_nameable (c : Capabilities) (text : String) :
    (parse c.text = .ok c ↔ c.Nameable) ∧
    (¬ c.Nameable → ∃ name, parse c.text = .error (.unknownKind name)) ∧
    ∀ d, parse text = .ok d → d.Nameable ∧ parse d.text = parse text := by
  refine ⟨⟨nameable_of_parse, Nameable.parse_text⟩, ?_, ?_⟩
  · intro h
    exact ⟨_, parse_text_of_not_nameable h⟩
  · intro d hd
    have hn := nameable_of_parse hd
    exact ⟨hn, hn.parse_text.trans hd.symm⟩

/-- The second bit alone is written as a number; a text with blank parts and repetitions is read. -/
theorem parse_text_second_bit : ¬ Nameable ⟨0x000a⟩ ∧
    (∃ name, parse (text ⟨0x000a⟩) = .error (.unknownKind name)) ∧
    parse " Interfaces,|PublicConstructors, Interfaces " = .ok ⟨0x2003⟩ ∧
    parse (text ⟨0x2003⟩) = parse " Interfaces,|PublicConstructors, Interfaces " := by
  have hn : ¬ Nameable ⟨0x000a⟩ := by decide
  have hp : parse " Interfaces,|PublicConstructors, Interfaces " = .ok ⟨0x2003⟩ := by
    decide +kernel
  obtain ⟨-, he, hs⟩ :=
    parse_text_iff_nameable ⟨0x000a⟩ " Interfaces,|PublicConstructors, Interfaces "
  exact ⟨hn, he hn, hp, (hs _ hp).2⟩

end Capabilities

end CapabilityFlow
