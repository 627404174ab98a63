import CapabilityFlow.Proofs.ParsedTables

namespace CapabilityFlow

open Decoder Fields

theorem Capabilities.Parsed.reads {c : Capabilities} (h : c.Parsed) : decode.Reads c.encode c := by
  refine ⟨?_, nofun⟩
  change (parse c.text).mapError _ = .ok c
  rw [h.nameable.parse_text]
  rfl

theorem reads_encodeOptionText (s : Option String) :
    (option text).Reads (encodeOptionText s) s := by
  cases s with
  | none => exact reads_none _
  | some s => exact (reads_text s).some nofun

namespace OrderedMap

variable {α : Type} {decode : Decoder α} {encodeValue : α → Json}

theorem foldlM_insertEntry {xs : List (String × α)} {m : OrderedMap String α}
    (hn : ((m.entries ++ xs).map Prod.fst).Nodup)
    (h : ∀ x ∈ xs, decode.Reads (encodeValue x.2) x.2) :
    ∃ m', (xs.map fun x => (x.1, encodeValue x.2)).foldlM (insertEntry decode) m = .ok m' ∧
      m'.entries = m.entries ++ xs := by
  induction xs generalizing m with
  | nil => exact ⟨m, rfl, (List.append_nil _).symm⟩
  | cons x xs ih =>
    rw [List.forall_mem_cons] at h
    have hnew : x.1 ∉ m.entries.map Prod.fst := by
      rw [List.map_append, List.map_cons] at hn
      intro hx
      exact (List.nodup_append.1 hn).2.2 _ hx _ List.mem_cons_self rfl
    have hinsert : (m.insert x.1 x.2).entries = m.entries ++ [x] := Bindings.insert_of_not_mem hnew
    have hn' : (((m.insert x.1 x.2).entries ++ xs).map Prod.fst).Nodup := by
      rwa [hinsert, List.append_assoc, List.singleton_append]
    obtain ⟨m', hm', he⟩ := ih hn' h.2
    have hstep : insertEntry decode m (x.1, encodeValue x.2) = .ok (m.insert x.1 x.2) := by
      rw [insertEntry, h.1.eq_ok]
      rfl
    refine ⟨m', Except.bind_eq_ok.2 ⟨_, hstep, hm'⟩, ?_⟩
    rw [he, hinsert, List.append_assoc, List.singleton_append]

theorem reads (m : OrderedMap String α) (encodeValue : α → Json)
    (h : ∀ entry ∈ m.entries, decode.Reads (encodeValue entry.2) entry.2) :
    (map decode).Reads (m.encode encodeValue) m := by
  refine ⟨?_, nofun⟩
  obtain ⟨m', hm', he⟩ := foldlM_insertEntry (m := ∅) m.nodup_keys h
  have hmap : m' = m := ext he
  rw [hmap] at hm'
  exact hm'

end OrderedMap

theorem ParameterSymbol.reads {p : ParameterSymbol} (h : p.capabilities.Parsed) :
    decode.Reads p.encode p := by
  have hname := reads_required "name" (reads_text p.name)
  have hcapabilities := reads_optional "capabilities" ∅ h.reads
  exact (hname.cons hcapabilities rfl).decodeAs rfl

theorem MethodSymbol.Parsed.reads {m : MethodSymbol} (h : m.Parsed) : decode.Reads m.encode m := by
  have htype := reads_optional "declaring_type" none (reads_encodeOptionText m.declaringType)
  have hparameters := reads_optional "parameters" []
    (reads_list fun p hp => ParameterSymbol.reads (h.parameters p hp))
  have hresult := reads_optional "return_capabilities" ∅ h.result.reads
  have hreceiver := reads_optional "this_capabilities" ∅ h.receiver.reads
  have hexempt := reads_optional "requires_unreferenced_code" false (reads_bool m.isExempt)
  have hannotations := hresult.cons (hreceiver.cons hexempt rfl) rfl
  exact (htype.cons (hparameters.cons hannotations rfl) rfl).decodeAs rfl

theorem TypeSymbol.reads (t : TypeSymbol) : decode.Reads t.encode t := by
  have hbase := reads_optional "base_type" none (reads_encodeOptionText t.baseType)
  have hexempt := reads_optional "requires_unreferenced_code" false (reads_bool t.isExempt)
  exact (hbase.cons hexempt rfl).decodeAs rfl

theorem GenericSymbol.reads {g : GenericSymbol} (h : g.capabilities.Parsed) :
    decode.Reads g.encode g := by
  have hname := reads_required "name" (reads_text g.name)
  have hcapabilities := reads_optional "capabilities" ∅ h.reads
  have hconstraint := reads_optional "has_default_constructor_constraint" false
    (reads_bool g.isConstructible)
  exact (hname.cons (hcapabilities.cons hconstraint rfl) rfl).decodeAs rfl

theorem SymbolTable.Parsed.reads {table : SymbolTable} (h : table.Parsed) :
    decode.Reads table.encode table := by
  have hmethods := reads_optional "methods" ∅
    (table.methods.reads MethodSymbol.encode fun entry he => (h.methods entry he).reads)
  have hfields := reads_optional "fields" ∅
    (table.fields.reads Capabilities.encode fun entry he => (h.fields entry he).reads)
  have htypes := reads_optional "types" ∅
    (table.types.reads TypeSymbol.encode fun entry _ => entry.2.reads)
  have hsymbols : ∀ entry ∈ table.generics.entries,
      (list GenericSymbol.decode).Reads (.arr (entry.2.map GenericSymbol.encode)) entry.2 :=
    fun entry he => reads_list fun g hg => GenericSymbol.reads (h.generics entry he g hg)
  have hgenerics := reads_optional "generics" ∅
    (table.generics.reads (fun symbols => .arr (symbols.map GenericSymbol.encode)) hsymbols)
  exact (hmethods.cons (hfields.cons (htypes.cons hgenerics rfl) rfl) rfl).decodeAs rfl

namespace MarkedTable

/-- A table comes back from its JSON exactly if all its annotations were read from texts, and so do
tables that were decoded, and those that were declared step by step with such annotations. What
comes back has the same declarations in the same order and no marks, and as a host it answers the
same. -/
theorem table_restored (t : MarkedTable) : (t.Made → t.table.Parsed) ∧
    (t.table.Parsed ↔ ∃ t', decode t.encode = .ok t' ∧ t'.table = t.table ∧ t'.marked = ∅ ∧
      t'.host = t.host) := by
  refine ⟨Made.parsed, ?_, ?_⟩
  · intro h
    have hread : decode t.encode = .ok ⟨t.table, ∅⟩ := (h.reads.map (MarkedTable.mk · ∅)).eq_ok
    exact ⟨_, hread, rfl, rfl, rfl⟩
  · rintro ⟨t', hread, htable, -⟩
    rw [← htable]
    exact parsed_of_decode hread

def registrySteps : List DeclarationStep :=
  [.method "Add(Type)" [.parameter ⟨"type", ⟨0x2003⟩⟩, .declaredIn "Registry", .this .all],
    .field "cache" Kind.publicFields.set,
    .mark ⟨"Widget", Kind.publicMethods.set⟩,
    .type "Widget" fun symbol => { symbol with baseType := some "Component" },
    .generic "Add(Type)" ⟨"T", Kind.interfaces.set, true⟩,
    .method "Add(Type)" [.returns Kind.publicEvents.set, .exempt]]

theorem parsed_registrySteps : ∀ s ∈ registrySteps, s.Parsed := by
  have hparameter : (⟨0x2003⟩ : Capabilities).Parsed :=
    ⟨" Interfaces,|PublicConstructors, Interfaces ", by decide +kernel⟩
  have hthis : Capabilities.all.Parsed := ⟨"All", by decide +kernel⟩
  have hkind (k : Kind) : k.set.Parsed := ⟨k.set.text, (Capabilities.nameable_kind k).parse_text⟩
  simp only [registrySteps, List.forall_mem_cons, DeclarationStep.Parsed,
    MethodSymbol.Change.Parsed, List.not_mem_nil, false_implies, implies_true, and_true, true_and]
  exact ⟨⟨hparameter, hthis⟩, hkind _, hkind _, hkind _⟩

theorem table_restored_registry :
    let t := declareAll ⟨∅, ∅⟩ registrySteps
    t.Made ∧ t.marked.toList = [⟨"Widget", Kind.publicMethods.set⟩] ∧
    ∃ t', decode t.encode = .ok t' ∧ t'.table = t.table ∧ t'.marked = ∅ ∧ t'.host = t.host := by
  intro t
  have hmade : t.Made := Made.empty.declareAll parsed_registrySteps
  obtain ⟨hparsed, hrestored⟩ := table_restored t
  exact ⟨hmade, rfl, hrestored.1 (hparsed hmade)⟩

end MarkedTable

end CapabilityFlow
