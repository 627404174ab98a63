import CapabilityFlow.Codec.SymbolTable
import CapabilityFlow.Proofs.CapabilityText
import CapabilityFlow.Proofs.RoundTrip
import CapabilityFlow.Proofs.Workers

namespace CapabilityFlow

theorem Except.foldlM_keeps {ε σ β : Type} {I : σ → Prop} {step : σ → β → Except ε σ}
    (hstep : ∀ s b t, I s → step s b = .ok t → I t) {bs : List β} {s t : σ} (hs : I s)
    (h : bs.foldlM step s = .ok t) : I t := by
  induction bs generalizing s with
  | nil =>
    cases h
    exact hs
  | cons b bs ih =>
    obtain ⟨next, hnext, hrest⟩ := bind_eq_ok.1 h
    exact ih (hstep s b next hs hnext) hrest

namespace OrderedMap

variable {κ ν : Type} [DecidableEq κ] {P : ν → Prop} {m : OrderedMap κ ν} {k : κ} {v : ν}

theorem forall_entries_insert (h : ∀ entry ∈ m.entries, P entry.2) (hv : P v) :
    ∀ entry ∈ (m.insert k v).entries, P entry.2 := by
  intro entry hentry
  have hget := get?_eq_some_iff.2 hentry
  rw [get?_insert] at hget
  split at hget
  · cases hget
    exact hv
  · exact h entry (get?_eq_some_iff.1 hget)

theorem forall_entries_modify {default : ν} {change : ν → ν}
    (h : ∀ entry ∈ m.entries, P entry.2) (hd : P default) (hc : ∀ v, P v → P (change v)) :
    ∀ entry ∈ (m.modify k default change).entries, P entry.2 := by
  apply forall_entries_insert h
  apply hc
  cases hget : m.get? k with
  | none => exact hd
  | some v => exact h (k, v) (get?_eq_some_iff.1 hget)

end OrderedMap

namespace Decoder

variable {α : Type} {decode : Decoder α} {P : α → Prop}

/-- Whatever a decoder takes some JSON for has the property. -/
def Gives (decode : Decoder α) (P : α → Prop) : Prop :=
  ∀ j a, decode j = .ok a → P a

theorem gives_any (decode : Decoder α) : decode.Gives fun _ => True := fun _ _ _ => trivial

theorem Gives.list (h : decode.Gives P) : (list decode).Gives fun as => ∀ a ∈ as, P a := by
  intro j as hj
  cases j with
  | arr items =>
    change items.mapM decode = .ok as at hj
    induction items generalizing as with
    | nil =>
      cases hj
      exact fun _ ha => absurd ha List.not_mem_nil
    | cons item items ih =>
      rw [List.mapM_cons] at hj
      obtain ⟨a, ha, hrest⟩ := Except.bind_eq_ok.1 hj
      obtain ⟨as', has, hcons⟩ := Except.bind_eq_ok.1 hrest
      cases hcons
      exact List.forall_mem_cons.2 ⟨h item a ha, ih as' has⟩
  | _ => cases hj

theorem Gives.map (h : decode.Gives P) :
    (map decode).Gives fun m => ∀ entry ∈ m.entries, P entry.2 := by
  intro j m hj
  cases j with
  | obj entries =>
    refine Except.foldlM_keeps (I := fun m => ∀ entry ∈ m.entries, P entry.2) ?_ ?_ hj
    · intro m entry m' hm hinsert
      obtain ⟨a, ha, hins⟩ := Except.bind_eq_ok.1 hinsert
      cases hins
      exact OrderedMap.forall_entries_insert hm (h _ a ha)
    · exact fun _ hentry => absurd hentry List.not_mem_nil
  | _ => cases hj

end Decoder

namespace Fields

variable {σ τ α β : Type} {f : Fields σ α} {g : Fields τ β} {decoder : Decoder α} {P : α → Prop}
  {Q : β → Prop}

/-- What is known of the fields while they are read keeps to an invariant, under which whatever they
are finished to has the property. -/
def Gives (f : Fields σ α) (P : α → Prop) : Prop :=
  ∃ I : σ → Prop, I f.start ∧ (∀ name j s t, I s → f.fill name j s = .ok t → I t) ∧
    ∀ s a, I s → f.finish s = .ok a → P a

theorem fillOne_keeps (h : decoder.Gives P) {j : Json} {s t : Option α}
    (ht : fillOne decoder j s = .ok t) : ∀ a ∈ t, P a := by
  cases s with
  | some a => cases ht
  | none =>
    obtain ⟨a, ha, rfl⟩ := Except.map_eq_ok.1 ht
    rintro _ ⟨⟩
    exact h j a ha

theorem gives_required (name : String) (h : decoder.Gives P) :
    (required name decoder).Gives P := by
  refine ⟨fun s => ∀ a ∈ s, P a, nofun, fun _ _ _ _ _ => fillOne_keeps h, ?_⟩
  intro s a hs ha
  cases s with
  | none => cases ha
  | some x =>
    cases ha
    exact hs a rfl

theorem gives_optional (name : String) (default : α) (h : decoder.Gives P) (hd : P default) :
    (optional name default decoder).Gives P := by
  refine ⟨fun s => ∀ a ∈ s, P a, nofun, fun _ _ _ _ _ => fillOne_keeps h, ?_⟩
  intro s a hs ha
  cases ha
  cases s with
  | none => exact hd
  | some x => exact hs x rfl

theorem Gives.and (hf : f.Gives P) (hg : g.Gives Q) : (f.and g).Gives fun x => P x.1 ∧ Q x.2 := by
  obtain ⟨I, hI, hfill, hfinish⟩ := hf
  obtain ⟨J, hJ, gfill, gfinish⟩ := hg
  refine ⟨fun s => I s.1 ∧ J s.2, ⟨hI, hJ⟩, ?_, ?_⟩
  · intro name j s t hs ht
    by_cases hn : name ∈ f.names
    · obtain ⟨s', hs', rfl⟩ := Except.map_eq_ok.1 ((fill_and_of_mem s.2 hn).symm.trans ht)
      exact ⟨hfill name j s.1 s' hs.1 hs', hs.2⟩
    · obtain ⟨s', hs', rfl⟩ := Except.map_eq_ok.1 ((fill_and_of_not_mem s.1 hn).symm.trans ht)
      exact ⟨hs.1, gfill name j s.2 s' hs.2 hs'⟩
  · intro s a hs ha
    obtain ⟨b, hb, hrest⟩ := Except.bind_eq_ok.1 ha
    obtain ⟨c, hc, hpair⟩ := Except.bind_eq_ok.1 hrest
    cases hpair
    exact ⟨hfinish s.1 b hs.1 hb, gfinish s.2 c hs.2 hc⟩

theorem readEntry_keeps {I : σ → Prop} (hfill : ∀ name j s t, I s → f.fill name j s = .ok t → I t)
    (s : σ) (entry : String × Json) (t : σ) (hs : I s) (ht : f.readEntry s entry = .ok t) :
    I t := by
  unfold readEntry at ht
  split at ht
  · cases ht
  · split at ht
    · exact hfill _ _ s t hs ht
    · split at ht
      · cases ht
        exact hs
      · cases ht

theorem Gives.decode (h : f.Gives P) : f.decode.Gives P := by
  obtain ⟨I, hI, hfill, hfinish⟩ := h
  intro j a hj
  cases j with
  | obj entries =>
    obtain ⟨s, hs, ha⟩ := Except.bind_eq_ok.1 hj
    exact hfinish s a (Except.foldlM_keeps (readEntry_keeps hfill) hI hs) ha
  | arr items =>
    obtain ⟨s, hs, hrest⟩ := Except.bind_eq_ok.1 hj
    obtain ⟨b, hb, hlength⟩ := Except.bind_eq_ok.1 hrest
    have hkept : I s := Except.foldlM_keeps (fun s item t => hfill item.1 item.2 s t) hI hs
    split at hlength
    · cases hlength
      exact hfinish s _ hkept hb
    · cases hlength
  | _ => cases hj

theorem Gives.decodeAs {make : α → β} (h : f.Gives P) (hm : ∀ a, P a → Q (make a)) :
    (f.decodeAs make).Gives Q := by
  intro j b hj
  obtain ⟨a, ha, rfl⟩ := Except.map_eq_ok.1 hj
  exact hm a (h.decode j a ha)

end Fields

namespace Capabilities

/-- The set was read from a text. -/
def Parsed (c : Capabilities) : Prop := ∃ text, parse text = .ok c

theorem parsed_empty : (∅ : Capabilities).Parsed := ⟨"None", by decide⟩

theorem Parsed.nameable {c : Capabilities} (h : c.Parsed) : c.Nameable := by
  obtain ⟨text, htext⟩ := h
  exact nameable_of_parse htext

theorem parsed_iff_nameable {c : Capabilities} : c.Parsed ↔ c.Nameable :=
  ⟨Parsed.nameable, fun h => ⟨c.text, h.parse_text⟩⟩

theorem gives_parsed : decode.Gives Parsed := by
  intro j c hj
  cases j with
  | str s =>
    change (parse s).mapError _ = .ok c at hj
    cases hp : parse s with
    | error e =>
      rw [hp] at hj
      cases hj
    | ok d =>
      rw [hp] at hj
      cases hj
      exact ⟨s, hp⟩
  | _ => cases hj

end Capabilities

namespace MethodSymbol

structure Parsed (m : MethodSymbol) : Prop where
  parameters : ∀ p ∈ m.parameters, p.capabilities.Parsed
  result : m.returnCapabilities.Parsed
  receiver : m.thisCapabilities.Parsed

theorem parsed_default : ({} : MethodSymbol).Parsed where
  parameters _ hp := absurd hp List.not_mem_nil
  result := Capabilities.parsed_empty
  receiver := Capabilities.parsed_empty

/-- One change to the declaration of a method; another declaration may also take its place. -/
inductive Change where
  | parameter (symbol : ParameterSymbol)
  | returns (capabilities : Capabilities)
  | this (capabilities : Capabilities)
  | declaredIn (type : TypeName)
  | exempt
  | replace (symbol : MethodSymbol)

namespace Change

def apply : Change → MethodSymbol → MethodSymbol
  | parameter symbol, m => { m with parameters := m.parameters ++ [symbol] }
  | returns capabilities, m => { m with returnCapabilities := capabilities }
  | this capabilities, m => { m with thisCapabilities := capabilities }
  | declaredIn type, m => { m with declaringType := some type }
  | exempt, m => { m with isExempt := true }
  | replace symbol, _ => symbol

def Parsed : Change → Prop
  | parameter symbol => symbol.capabilities.Parsed
  | returns capabilities | this capabilities => capabilities.Parsed
  | declaredIn _ | exempt => True
  | replace symbol => symbol.Parsed

theorem Parsed.apply {c : Change} {m : MethodSymbol} (hc : c.Parsed) (h : m.Parsed) :
    (c.apply m).Parsed := by
  cases c with
  | parameter symbol =>
    have hparameters : ∀ p ∈ m.parameters ++ [symbol], p.capabilities.Parsed :=
      List.forall_mem_append.2 ⟨h.parameters, List.forall_mem_singleton.2 hc⟩
    exact { h with parameters := hparameters }
  | returns capabilities => exact { h with result := hc }
  | this capabilities => exact { h with receiver := hc }
  | declaredIn type | exempt => exact { h with }
  | replace symbol => exact hc

end Change

def applyAll (changes : List Change) (m : MethodSymbol) : MethodSymbol :=
  changes.foldl (fun m c => c.apply m) m

theorem Parsed.applyAll {changes : List Change} {m : MethodSymbol} (h : m.Parsed)
    (hc : ∀ c ∈ changes, c.Parsed) : (m.applyAll changes).Parsed := by
  induction changes generalizing m with
  | nil => exact h
  | cons c changes ih =>
    rw [List.forall_mem_cons] at hc
    exact ih (hc.1.apply h) hc.2

end MethodSymbol

theorem ParameterSymbol.gives_parsed : decode.Gives fun p => p.capabilities.Parsed := by
  have hname := Fields.gives_required "name" (Decoder.gives_any .text)
  have hcapabilities := Fields.gives_optional "capabilities" ∅ Capabilities.gives_parsed
    Capabilities.parsed_empty
  exact (hname.and hcapabilities).decodeAs fun _ h => h.2

theorem MethodSymbol.gives_parsed : decode.Gives Parsed := by
  have htype := Fields.gives_optional "declaring_type" none
    (Decoder.gives_any (.option .text)) trivial
  have hparameters := Fields.gives_optional "parameters" [] ParameterSymbol.gives_parsed.list
    fun _ hp => absurd hp List.not_mem_nil
  have hresult := Fields.gives_optional "return_capabilities" ∅ Capabilities.gives_parsed
    Capabilities.parsed_empty
  have hreceiver := Fields.gives_optional "this_capabilities" ∅ Capabilities.gives_parsed
    Capabilities.parsed_empty
  have hexempt := Fields.gives_optional "requires_unreferenced_code" false
    (Decoder.gives_any .bool) trivial
  have hfields := htype.and (hparameters.and (hresult.and (hreceiver.and hexempt)))
  refine hfields.decodeAs ?_
  rintro m ⟨-, hparameters, hresult, hreceiver, -⟩
  exact ⟨hparameters, hresult, hreceiver⟩

theorem GenericSymbol.gives_parsed : decode.Gives fun g => g.capabilities.Parsed := by
  have hname := Fields.gives_required "name" (Decoder.gives_any .text)
  have hcapabilities := Fields.gives_optional "capabilities" ∅ Capabilities.gives_parsed
    Capabilities.parsed_empty
  have hconstraint := Fields.gives_optional "has_default_constructor_constraint" false
    (Decoder.gives_any .bool) trivial
  exact (hname.and (hcapabilities.and hconstraint)).decodeAs fun _ h => h.2.1

namespace SymbolTable

/-- All annotations of a table were read from texts. -/
structure Parsed (table : SymbolTable) : Prop where
  methods : ∀ entry ∈ table.methods.entries, entry.2.Parsed
  fields : ∀ entry ∈ table.fields.entries, entry.2.Parsed
  generics : ∀ entry ∈ table.generics.entries, ∀ g ∈ entry.2, g.capabilities.Parsed

theorem parsed_empty : (∅ : SymbolTable).Parsed where
  methods _ h := absurd h List.not_mem_nil
  fields _ h := absurd h List.not_mem_nil
  generics _ h := absurd h List.not_mem_nil

theorem gives_parsed : decode.Gives Parsed := by
  have hmethods := Fields.gives_optional "methods" ∅ MethodSymbol.gives_parsed.map
    parsed_empty.methods
  have hfields := Fields.gives_optional "fields" ∅ Capabilities.gives_parsed.map
    parsed_empty.fields
  have htypes := Fields.gives_optional "types" ∅ (Decoder.gives_any (.map TypeSymbol.decode))
    trivial
  have hgenerics := Fields.gives_optional "generics" ∅ GenericSymbol.gives_parsed.list.map
    parsed_empty.generics
  refine (hmethods.and (hfields.and (htypes.and hgenerics))).decodeAs ?_
  rintro table ⟨hmethods, hfields, -, hgenerics⟩
  exact ⟨hmethods, hfields, hgenerics⟩

end SymbolTable

/-- One step in declaring a table, or a mark that is made in between. -/
inductive DeclarationStep where
  | method (name : MethodName) (changes : List MethodSymbol.Change)
  | field (name : FieldName) (capabilities : Capabilities)
  | type (name : TypeName) (change : TypeSymbol → TypeSymbol)
  | generic (definition : String) (symbol : GenericSymbol)
  | mark (k : Mark)

namespace DeclarationStep

def apply : DeclarationStep → MarkedTable → MarkedTable
  | method name changes, t => { t with table := t.table.method name (·.applyAll changes) }
  | field name capabilities, t => { t with table := t.table.field name capabilities }
  | type name change, t => { t with table := t.table.type name change }
  | generic definition symbol, t => { t with table := t.table.generic definition symbol }
  | mark k, t => t.mark k

def Parsed : DeclarationStep → Prop
  | method _ changes => ∀ c ∈ changes, c.Parsed
  | field _ capabilities => capabilities.Parsed
  | generic _ symbol => symbol.capabilities.Parsed
  | type _ _ | mark _ => True

theorem Parsed.apply {s : DeclarationStep} {t : MarkedTable} (hs : s.Parsed)
    (h : t.table.Parsed) : (s.apply t).table.Parsed := by
  cases s with
  | method name changes =>
    have hmethods := OrderedMap.forall_entries_modify (k := name) h.methods
      MethodSymbol.parsed_default fun m hm => hm.applyAll hs
    exact { h with methods := hmethods }
  | field name capabilities =>
    exact { h with fields := OrderedMap.forall_entries_insert h.fields hs }
  | generic definition symbol =>
    have happend : ∀ symbols : List GenericSymbol, (∀ g ∈ symbols, g.capabilities.Parsed) →
        ∀ g ∈ symbols ++ [symbol], g.capabilities.Parsed := by
      intro symbols hsymbols
      exact List.forall_mem_append.2 ⟨hsymbols, List.forall_mem_singleton.2 hs⟩
    have hgenerics := OrderedMap.forall_entries_modify (k := definition) h.generics
      (fun _ hg => absurd hg List.not_mem_nil) happend
    exact { h with generics := hgenerics }
  | type name change => exact { h with }
  | mark k => exact h

end DeclarationStep

namespace MarkedTable

/-- The marks of a table are not written. -/
def encode (t : MarkedTable) : Json := t.table.encode

def decode : Decoder MarkedTable := fun j => (⟨·, ∅⟩) <$> SymbolTable.decode j

/-- Tables that were read, or declared step by step with annotations that were read; types may be
marked at any time. -/
inductive Made : MarkedTable → Prop
  | empty : Made ⟨∅, ∅⟩
  | decoded {j : Json} {t : MarkedTable} : decode j = .ok t → Made t
  | step {t : MarkedTable} (s : DeclarationStep) : Made t → s.Parsed → Made (s.apply t)

theorem parsed_of_decode {j : Json} {t : MarkedTable} (h : decode j = .ok t) :
    t.table.Parsed := by
  obtain ⟨table, htable, rfl⟩ := Except.map_eq_ok.1 h
  exact SymbolTable.gives_parsed j table htable

def declareAll (t : MarkedTable) (steps : List DeclarationStep) : MarkedTable :=
  steps.foldl (fun t s => s.apply t) t

theorem Made.declareAll {t : MarkedTable} {steps : List DeclarationStep} (h : t.Made)
    (hs : ∀ s ∈ steps, s.Parsed) : (t.declareAll steps).Made := by
  induction steps generalizing t with
  | nil => exact h
  | cons s steps ih =>
    rw [List.forall_mem_cons] at hs
    exact ih (h.step s hs.1) hs.2

theorem Made.parsed {t : MarkedTable} (h : t.Made) : t.table.Parsed := by
  induction h with
  | empty => exact SymbolTable.parsed_empty
  | decoded hj => exact parsed_of_decode hj
  | step s _ hs ih => exact hs.apply ih

end MarkedTable

end CapabilityFlow
