import CapabilityFlow.Load
import CapabilityFlow.Proofs.Trimming
import Mathlib.Data.Nat.Digits.Defs

namespace CapabilityFlow

namespace Text

def digitChar (d : Fin 10) : Char := Nat.digitChar d.val

theorem digit?_eq_some_iff {c : Char} {n : Nat} :
    digit? c = some n ↔ ∃ d : Fin 10, digitChar d = c ∧ d.val = n := by
  constructor
  · intro h
    unfold digit? at h
    split at h
    · rename_i hc
      cases h
      have hlow : 48 ≤ c.toNat := hc.1
      have hhigh : c.toNat ≤ 57 := hc.2
      have hlt : c.toNat - 48 < 10 := by omega
      refine ⟨⟨c.toNat - 48, hlt⟩, ?_, rfl⟩
      apply Char.toNat_inj.1
      rw [digitChar, Nat.toNat_digitChar_of_lt_ten hlt]
      omega
    · cases h
  · rintro ⟨d, rfl, rfl⟩
    revert d
    decide

theorem digitChar_ne {c : Char} (h : digit? c = none) (d : Fin 10) : digitChar d ≠ c := by
  intro hd
  rw [digit?_eq_some_iff.2 ⟨d, hd, rfl⟩] at h
  cases h

theorem mapM_digit?_eq_some_iff {cs : List Char} {ns : List Nat} : cs.mapM digit? = some ns ↔
    ∃ ds : List (Fin 10), ds.map digitChar = cs ∧ ds.map Fin.val = ns := by
  induction cs generalizing ns with
  | nil =>
    constructor
    · intro h
      cases h
      exact ⟨[], rfl, rfl⟩
    · rintro ⟨ds, hds, rfl⟩
      rw [List.map_eq_nil_iff.1 hds]
      rfl
  | cons c cs ih =>
    rw [List.mapM_cons]
    constructor
    · intro h
      obtain ⟨n, hn, h⟩ := Option.bind_eq_some_iff.1 h
      obtain ⟨ns', hns, h⟩ := Option.bind_eq_some_iff.1 h
      cases h
      obtain ⟨d, rfl, rfl⟩ := digit?_eq_some_iff.1 hn
      obtain ⟨ds, rfl, rfl⟩ := ih.1 hns
      exact ⟨d :: ds, rfl, rfl⟩
    · rintro ⟨ds, hds, rfl⟩
      cases ds with
      | nil => cases hds
      | cons d ds =>
        cases hds
        have hd : digit? (digitChar d) = some d.val := digit?_eq_some_iff.2 ⟨d, rfl, rfl⟩
        rw [hd, ih.2 ⟨ds, rfl, rfl⟩]
        rfl

theorem ofDigits_eq (base : Nat) (ns : List Nat) :
    ofDigits base ns = Nat.ofDigits base ns.reverse := by
  induction ns using List.reverseRecOn with
  | nil => rfl
  | append_singleton ns n ih =>
    have hstep : ofDigits base (ns ++ [n]) = base * ofDigits base ns + n := by
      simp [ofDigits]
    rw [hstep, ih, List.reverse_append, List.reverse_singleton, List.singleton_append,
      Nat.ofDigits_cons, Nat.add_comm]

theorem decimal?_eq_some_iff {cs : List Char} {n : Nat} : decimal? cs = some n ↔
    ∃ ds : List (Fin 10), ds ≠ [] ∧ ds.map digitChar = cs ∧
      Nat.ofDigits 10 (ds.map Fin.val).reverse = n := by
  unfold decimal?
  split
  · rename_i h
    rw [List.isEmpty_iff.1 h]
    refine iff_of_false nofun ?_
    rintro ⟨ds, hne, hds, -⟩
    exact hne (List.map_eq_nil_iff.1 hds)
  · rename_i h
    rw [List.isEmpty_iff] at h
    rw [Option.map_eq_some_iff]
    constructor
    · rintro ⟨ns, hns, rfl⟩
      obtain ⟨ds, hds, rfl⟩ := mapM_digit?_eq_some_iff.1 hns
      refine ⟨ds, ?_, hds, (ofDigits_eq 10 _).symm⟩
      rintro rfl
      exact h hds.symm
    · rintro ⟨ds, -, hds, rfl⟩
      exact ⟨_, mapM_digit?_eq_some_iff.2 ⟨ds, hds, rfl⟩, ofDigits_eq 10 _⟩

end Text

/-- A part of a text that may be missing. -/
def given (there : Bool) (part : List Char) : List Char := if there then part else []

theorem mem_given {there : Bool} {part : List Char} {c : Char} :
    c ∈ given there part ↔ there = true ∧ c ∈ part := by
  cases there <;> simp [given]

/-- A way to write a code: digits, perhaps behind a mark and a plus sign, with blanks around. -/
structure WrittenCode where
  before : List Char
  hasMark : Bool
  hasSign : Bool
  digits : List (Fin 10)
  after : List Char
  blank_before : ∀ c ∈ before, Text.isBlank c = true
  blank_after : ∀ c ∈ after, Text.isBlank c = true
  digits_ne_nil : digits ≠ []

namespace WrittenCode

def body (w : WrittenCode) : List Char :=
  given w.hasMark codeMark ++ (given w.hasSign ['+'] ++ w.digits.map Text.digitChar)

def text (w : WrittenCode) : List Char := w.before ++ w.body ++ w.after

def value (w : WrittenCode) : Nat := Nat.ofDigits 10 (w.digits.map Fin.val).reverse

/-- The code is written in this way, and its number is not too large. -/
structure Writes (w : WrittenCode) (code : String) : Prop where
  text_eq : w.text = code.toList
  value_le : w.value ≤ 65535

end WrittenCode

/-- The code is written in some way. -/
def IsWrittenCode (code : String) : Prop := ∃ w : WrittenCode, w.Writes code

namespace WrittenCode

variable {w : WrittenCode}

theorem mem_body {c : Char} : c ∈ w.body ↔ (w.hasMark = true ∧ c ∈ codeMark) ∨
    (w.hasSign = true ∧ c = '+') ∨ ∃ d ∈ w.digits, Text.digitChar d = c := by
  rw [body, List.mem_append, List.mem_append, mem_given, mem_given, List.mem_map,
    List.mem_singleton]

theorem not_blank_body : ∀ c ∈ w.body, Text.isBlank c = false := by
  have hmark : ∀ c ∈ codeMark, Text.isBlank c = false :=
    List.forall_mem_cons.2 ⟨rfl, List.forall_mem_singleton.2 rfl⟩
  have hdigit : ∀ d, Text.isBlank (Text.digitChar d) = false := by decide
  intro c hc
  rcases mem_body.1 hc with ⟨-, hc⟩ | ⟨-, rfl⟩ | ⟨d, -, rfl⟩
  · exact hmark c hc
  · rfl
  · exact hdigit d

theorem trim_text (w : WrittenCode) : Text.trim w.text = w.body := by
  rw [text, Text.trim_append_blanks w.blank_after, Text.trim_blanks_append w.blank_before,
    Text.trim_of_forall not_blank_body]

theorem plus_mem_text_iff : '+' ∈ w.text ↔ w.hasSign = true := by
  have hmark : '+' ∉ codeMark := by decide
  have hdigit : ∀ d, Text.digitChar d ≠ '+' := Text.digitChar_ne rfl
  have hblank : ¬ Text.isBlank '+' = true := by decide
  have hbefore : '+' ∉ w.before := fun hc => hblank (w.blank_before _ hc)
  have hafter : '+' ∉ w.after := fun hc => hblank (w.blank_after _ hc)
  rw [text, List.mem_append, List.mem_append, mem_body]
  simp [hmark, hdigit, hbefore, hafter]

end WrittenCode

section Parse

variable {cs rest : List Char} {code : String} {n : Nat}

theorem decimal?_filter_eq_some_iff : (Text.decimal? cs).filter (· < 65536) = some n ↔
    ∃ ds : List (Fin 10), ds ≠ [] ∧ ds.map Text.digitChar = cs ∧
      Nat.ofDigits 10 (ds.map Fin.val).reverse = n ∧ n ≤ 65535 := by
  rw [Option.filter_eq_some_iff, Text.decimal?_eq_some_iff, decide_eq_true_eq, Nat.lt_succ_iff]
  constructor
  · rintro ⟨⟨ds, hne, hds, hn⟩, hle⟩
    exact ⟨ds, hne, hds, hn, hle⟩
  · rintro ⟨ds, hne, hds, hn, hle⟩
    exact ⟨⟨ds, hne, hds, hn⟩, hle⟩

theorem codeNumber?_of_head?_ne (h : cs.head? ≠ some '+') :
    codeNumber? cs = (Text.decimal? cs).filter (· < 65536) := by
  unfold codeNumber?
  split
  · exact absurd rfl h
  · rfl

theorem codeNumber?_eq_some_iff : codeNumber? cs = some n ↔
    ∃ (hasSign : Bool) (ds : List (Fin 10)), ds ≠ [] ∧
      given hasSign ['+'] ++ ds.map Text.digitChar = cs ∧
      Nat.ofDigits 10 (ds.map Fin.val).reverse = n ∧ n ≤ 65535 := by
  constructor
  · intro h
    by_cases hp : cs.head? = some '+'
    · obtain ⟨rest, rfl⟩ := List.head?_eq_some_iff.1 hp
      obtain ⟨ds, hne, hds, hn⟩ := decimal?_filter_eq_some_iff.1 h
      exact ⟨true, ds, hne, congrArg ('+' :: ·) hds, hn⟩
    · rw [codeNumber?_of_head?_ne hp] at h
      exact ⟨false, decimal?_filter_eq_some_iff.1 h⟩
  · rintro ⟨hasSign, ds, hne, rfl, hn⟩
    have hd := decimal?_filter_eq_some_iff.2 ⟨ds, hne, rfl, hn⟩
    cases hasSign with
    | true => exact hd
    | false =>
      have hhead : (ds.map Text.digitChar).head? ≠ some '+' := by
        rw [List.head?_map, ne_eq, Option.map_eq_some_iff]
        rintro ⟨d, -, h⟩
        exact Text.digitChar_ne rfl d h
      exact (codeNumber?_of_head?_ne hhead).trans hd

theorem parseCode?_of_mark (h : Text.trim code.toList = codeMark ++ rest) :
    parseCode? code = codeNumber? rest := by
  unfold parseCode?
  rw [h]
  rfl

theorem parseCode?_of_no_mark (h : ¬ codeMark <+: Text.trim code.toList) :
    parseCode? code = codeNumber? (Text.trim code.toList) := by
  unfold parseCode?
  exact congrArg codeNumber? (if_neg (mt List.isPrefixOf_iff_prefix.1 h))

/-- A code is read exactly if it is written in some way, and then as the number of its digits. -/
theorem parseCode?_eq_some_iff :
    parseCode? code = some n ↔ ∃ w : WrittenCode, w.Writes code ∧ w.value = n := by
  constructor
  · intro h
    obtain ⟨before, after, hcode, hb, ha⟩ := Text.exists_eq_append_trim code.toList
    by_cases hm : codeMark <+: Text.trim code.toList
    · obtain ⟨rest, hrest⟩ := hm
      rw [parseCode?_of_mark hrest.symm] at h
      obtain ⟨hasSign, ds, hne, rfl, hn, hle⟩ := codeNumber?_eq_some_iff.1 h
      refine ⟨⟨before, true, hasSign, ds, after, hb, ha, hne⟩, ⟨?_, hn.trans_le hle⟩, hn⟩
      rw [← hcode, ← hrest]
      rfl
    · rw [parseCode?_of_no_mark hm] at h
      obtain ⟨hasSign, ds, hne, hcs, hn, hle⟩ := codeNumber?_eq_some_iff.1 h
      refine ⟨⟨before, false, hasSign, ds, after, hb, ha, hne⟩, ⟨?_, hn.trans_le hle⟩, hn⟩
      rw [← hcode, ← hcs]
      rfl
  · rintro ⟨w, ⟨ht, hle⟩, rfl⟩
    have hbody : Text.trim code.toList = w.body := by
      rw [← ht, w.trim_text]
    have hnumber := codeNumber?_eq_some_iff.2 ⟨w.hasSign, w.digits, w.digits_ne_nil, rfl, rfl, hle⟩
    cases hmark : w.hasMark with
    | true =>
      rw [WrittenCode.body, hmark] at hbody
      exact (parseCode?_of_mark hbody).trans hnumber
    | false =>
      have hno : ¬ codeMark <+: Text.trim code.toList := by
        -- no letter stands behind the blanks of a code without a mark
        intro hp
        have hI : 'I' ∈ w.body := hbody ▸ hp.subset List.mem_cons_self
        rcases WrittenCode.mem_body.1 hI with ⟨hm, -⟩ | ⟨-, h⟩ | ⟨d, -, h⟩
        · exact absurd (hmark.symm.trans hm) nofun
        · exact absurd h (by decide)
        · exact Text.digitChar_ne rfl d h
      rw [parseCode?_of_no_mark hno, hbody, WrittenCode.body, hmark]
      exact hnumber

theorem parseCode?_eq_none_iff : parseCode? code = none ↔ ¬ IsWrittenCode code := by
  rw [Option.eq_none_iff_forall_ne_some]
  constructor
  · rintro h ⟨w, hw⟩
    exact h w.value (parseCode?_eq_some_iff.2 ⟨w, hw, rfl⟩)
  · intro h n hn
    obtain ⟨w, hw, -⟩ := parseCode?_eq_some_iff.1 hn
    exact h ⟨w, hw⟩

end Parse

namespace Config

variable {config : Config}

def Written (config : Config) : Prop :=
  ∀ code ∈ config.suppressed, IsWrittenCode code

theorem invalidCode?_eq_none_iff : config.invalidCode? = none ↔ config.Written := by
  rw [invalidCode?, List.find?_eq_none]
  refine forall₂_congr fun code _ => ?_
  rw [Option.isNone_iff_eq_none, parseCode?_eq_none_iff, not_not]

/-- The code that is reported is the first one that is not written as it should be. -/
theorem invalidCode?_eq_some_iff {code : String} : config.invalidCode? = some code ↔
    ∃ good rest, config.suppressed = good ++ code :: rest ∧
      (∀ c ∈ good, IsWrittenCode c) ∧ ¬ IsWrittenCode code := by
  rw [invalidCode?, List.find?_eq_some_iff_append, Option.isNone_iff_eq_none,
    parseCode?_eq_none_iff]
  have hgood : ∀ c, (!(parseCode? c).isNone) = true ↔ IsWrittenCode c := by
    intro c
    rw [Bool.not_eq_true', ← Bool.not_eq_true, Option.isNone_iff_eq_none, parseCode?_eq_none_iff,
      not_not]
  constructor
  · rintro ⟨hcode, good, rest, hsplit, h⟩
    exact ⟨good, rest, hsplit, fun c hc => (hgood c).1 (h c hc), hcode⟩
  · rintro ⟨good, rest, hsplit, h, hcode⟩
    exact ⟨hcode, good, rest, hsplit, fun c hc => (hgood c).2 (h c hc)⟩

theorem validate_eq_ok_iff : config.validate = .ok config ↔ config.Written := by
  rw [← invalidCode?_eq_none_iff, validate]
  cases config.invalidCode? with
  | none => exact iff_of_true rfl rfl
  | some code => exact iff_of_false nofun nofun

theorem validate_eq_error_iff {code : String} :
    config.validate = .error (.invalidCode code) ↔ config.invalidCode? = some code := by
  rw [validate]
  cases config.invalidCode? with
  | none => exact iff_of_false nofun nofun
  | some c => simp

theorem forall₂_filterMap_parseCode? {codes : List String}
    (h : ∀ code ∈ codes, IsWrittenCode code) :
    List.Forall₂ (fun code n => ∃ w : WrittenCode, w.Writes code ∧ w.value = n) codes
      (codes.filterMap parseCode?) := by
  induction codes with
  | nil => exact .nil
  | cons code codes ih =>
    rw [List.forall_mem_cons] at h
    obtain ⟨⟨w, hw⟩, hrest⟩ := h
    rw [List.filterMap_cons_some (parseCode?_eq_some_iff.2 ⟨w, hw, rfl⟩)]
    exact .cons ⟨w, hw, rfl⟩ (ih hrest)

/-- Some reader gives the configuration for a text, alone or in a file, and this comes of it. -/
inductive Loads (readers : ConfigReaders) (config : Config) : Except ConfigError Config → Prop
  | tomlText {text : String} (read : readers.toml text = some config) :
      Loads readers config (readers.ofTomlText text)
  | tomlFile {name text : String} {content : FileContent} (held : content.text? = some text)
      (named : extension? name = some "toml") (read : readers.toml text = some config) :
      Loads readers config (readers.ofFile name content)
  | jsonFile {name text : String} {content : FileContent} (held : content.text? = some text)
      (named : extension? name = some "json") (read : readers.json text = some config) :
      Loads readers config (readers.ofFile name content)

theorem Loads.eq_validate {readers : ConfigReaders} {result : Except ConfigError Config}
    (h : config.Loads readers result) : result = config.validate := by
  cases h with
  | tomlText read => rw [ConfigReaders.ofTomlText, read]
  | tomlFile held named read =>
    simp only [ConfigReaders.ofFile, held, named, ConfigReaders.ofTomlText, read]
  | jsonFile held named read =>
    simp only [ConfigReaders.ofFile, held, named, ConfigReaders.ofJsonText, read]

/-- A configuration is accepted exactly if every code that it suppresses is digits, perhaps behind a
mark and a plus sign, with blanks around them; the number is at most 65535. Else the first other
code is reported. What is suppressed then is the number of each code, in order. The codes of an
accepted configuration do without signs exactly if no plus sign stands in any of them. Whatever
reads a configuration, from a text or from a file, this is what comes of it. -/
theorem suppressed_codes_parsed (config : Config) :
    (config.validate = .ok config ↔ config.Written) ∧
    (∀ code, config.validate = .error (.invalidCode code) ↔
      ∃ good rest, config.suppressed = good ++ code :: rest ∧
        (∀ c ∈ good, IsWrittenCode c) ∧ ¬ IsWrittenCode code) ∧
    (config.validate = .ok config →
      List.Forall₂ (fun code n => ∃ w : WrittenCode, w.Writes code ∧ w.value = n)
        config.suppressed config.suppressedCodes ∧
      ((∀ code ∈ config.suppressed, ∃ w : WrittenCode, w.Writes code ∧ w.hasSign = false) ↔
        ∀ code ∈ config.suppressed, '+' ∉ code.toList)) ∧
    ∀ readers result, config.Loads readers result → result = config.validate := by
  refine ⟨validate_eq_ok_iff, fun code => validate_eq_error_iff.trans invalidCode?_eq_some_iff,
    fun h => ?_, fun readers result h => h.eq_validate⟩
  have hwritten := validate_eq_ok_iff.1 h
  refine ⟨forall₂_filterMap_parseCode? hwritten, forall₂_congr fun code hcode => ?_⟩
  constructor
  · rintro ⟨w, hw, hsign⟩
    rw [← hw.text_eq, WrittenCode.plus_mem_text_iff, hsign]
    exact Bool.false_ne_true
  · intro hplus
    obtain ⟨w, hw⟩ := hwritten code hcode
    rw [← hw.text_eq, WrittenCode.plus_mem_text_iff, Bool.not_eq_true] at hplus
    exact ⟨w, hw, hplus⟩

/-- A code with a sign is accepted, which no code that does without is written like. -/
theorem signed_code_accepted :
    let config : Config := { suppressed := ["IL+2072"] }
    config.validate = .ok config ∧
    config.suppressedCodes = [2072] ∧
    ¬ ∃ w : WrittenCode, w.Writes "IL+2072" ∧ w.hasSign = false := by
  intro config
  refine ⟨by decide +kernel, by decide +kernel, ?_⟩
  rintro ⟨w, hw, hsign⟩
  have hplus : '+' ∈ w.text := hw.text_eq ▸ (by decide : '+' ∈ "IL+2072".toList)
  exact Bool.false_ne_true (hsign.symm.trans (WrittenCode.plus_mem_text_iff.1 hplus))

end Config

end CapabilityFlow
