import CapabilityFlow.Codec.MethodBody
import CapabilityFlow.Proofs.WellFormed

namespace CapabilityFlow

namespace Decoder

variable {α : Type} {decode : Decoder α} {j : Json} {a : α}

/-- A decoder takes some JSON for a value, and as an entry of an object the JSON can be read. -/
structure Reads (decode : Decoder α) (j : Json) (a : α) : Prop where
  eq_ok : decode j = .ok a
  ne_flawed : j ≠ .flawed .entry

theorem reads_text (s : String) : text.Reads (.str s) s := ⟨rfl, nofun⟩

theorem reads_bool (b : Bool) : bool.Reads (.bool b) b := ⟨rfl, nofun⟩

theorem reads_word32 (n : UInt32) : word32.Reads (.nat n.toNat) n := by
  refine ⟨?_, nofun⟩
  rw [word32, dif_pos n.toNat_lt]
  exact congrArg Except.ok (UInt32.ofNatLT_toNat n)

theorem reads_word64 (n : UInt64) : word64.Reads (.nat n.toNat) n := by
  refine ⟨?_, nofun⟩
  rw [word64, dif_pos n.toNat_lt]
  exact congrArg Except.ok (UInt64.ofNatLT_toNat n)

theorem reads_none (decode : Decoder α) : (option decode).Reads .null none := ⟨rfl, nofun⟩

theorem Reads.some (h : decode.Reads j a) (hj : j ≠ .null) : (option decode).Reads j (some a) := by
  refine ⟨?_, h.ne_flawed⟩
  have ho : option decode j = Option.some <$> decode j := by
    cases j with
    | null => exact absurd rfl hj
    | _ => rfl
  rw [ho, h.eq_ok]
  rfl

theorem injective_of_reads {encode : α → Json} (h : ∀ a, decode.Reads (encode a) a) :
    Function.Injective encode := by
  intro a b he
  have ha : decode (encode a) = .ok a := (h a).eq_ok
  rw [he, (h b).eq_ok] at ha
  exact (Except.ok.inj ha).symm

theorem Reads.map {β : Type} (h : decode.Reads j a) (f : α → β) :
    Decoder.Reads (fun j => f <$> decode j) j (f a) := by
  refine ⟨?_, h.ne_flawed⟩
  rw [h.eq_ok]
  rfl

theorem mapM_eq_ok_cons {items : List Json} {as : List α} (h : decode j = .ok a)
    (hs : items.mapM decode = .ok as) : (j :: items).mapM decode = .ok (a :: as) := by
  rw [List.mapM_cons, h, hs]
  rfl

theorem reads_list_of_mapM {items : List Json} {as : List α} (h : items.mapM decode = .ok as) :
    (list decode).Reads (.arr items) as := ⟨h, nofun⟩

theorem reads_list {encode : α → Json} {as : List α} (h : ∀ a ∈ as, decode.Reads (encode a) a) :
    (list decode).Reads (.arr (as.map encode)) as := by
  apply reads_list_of_mapM
  induction as with
  | nil => rfl
  | cons a as ih =>
    obtain ⟨ha, hs⟩ := List.forall_mem_cons.1 h
    exact mapM_eq_ok_cons ha.eq_ok (ih hs)

end Decoder

namespace Fields

variable {σ τ α β : Type} {f : Fields σ α} {g : Fields τ β} {entries : List (String × Json)}
  {name : String} {j : Json} {a : α} {b : β}

/-- Fields have the values that some entries give, one entry for each field in their order. -/
structure Reads (f : Fields σ α) (entries : List (String × Json)) (a : α) : Prop where
  names_eq : entries.map Prod.fst = f.names
  ne_flawed : ∀ entry ∈ entries, entry.2 ≠ .flawed .entry
  filled : ∃ s, entries.foldlM f.readEntry f.start = .ok s ∧ f.finish s = .ok a

theorem readEntry_of_mem {s : σ} {entry : String × Json} (hn : entry.1 ∈ f.names)
    (hj : entry.2 ≠ .flawed .entry) : f.readEntry s entry = f.fill entry.1 entry.2 s := by
  obtain ⟨name, j⟩ := entry
  unfold readEntry
  split
  · rename_i he
    cases he
    exact absurd rfl hj
  · rename_i he
    cases he
    exact if_pos hn

theorem reads_of_fill {s : σ} (hnames : f.names = [name]) (hj : j ≠ .flawed .entry)
    (hs : f.fill name j f.start = .ok s) (ha : f.finish s = .ok a) : f.Reads [(name, j)] a := by
  refine ⟨hnames.symm, List.forall_mem_singleton.2 hj, s, ?_, ha⟩
  have hmem : name ∈ f.names := hnames ▸ List.mem_singleton_self name
  rw [List.foldlM_cons, readEntry_of_mem hmem hj, hs]
  rfl

theorem fillOne_none {decode : Decoder α} (h : decode j = .ok a) :
    fillOne decode j none = .ok (some a) := by
  change some <$> decode j = .ok (some a)
  rw [h]
  rfl

theorem reads_required {decode : Decoder α} (name : String) (h : decode.Reads j a) :
    (required name decode).Reads [(name, j)] a :=
  reads_of_fill rfl h.ne_flawed (fillOne_none h.eq_ok) rfl

theorem reads_optional {decode : Decoder α} (name : String) (default : α) (h : decode.Reads j a) :
    (optional name default decode).Reads [(name, j)] a :=
  reads_of_fill rfl h.ne_flawed (fillOne_none h.eq_ok) rfl

theorem fill_and_of_mem {s : σ} (t : τ) (h : name ∈ f.names) :
    (f.and g).fill name j (s, t) = (·, t) <$> f.fill name j s := if_pos h

theorem fill_and_of_not_mem (s : σ) {t : τ} (h : name ∉ f.names) :
    (f.and g).fill name j (s, t) = (s, ·) <$> g.fill name j t := if_neg h

theorem foldlM_readEntry_and (s : σ) {t t' : τ} (hf : ∀ entry ∈ entries, entry.1 ∉ f.names)
    (hg : ∀ entry ∈ entries, entry.1 ∈ g.names) (hj : ∀ entry ∈ entries, entry.2 ≠ .flawed .entry)
    (h : entries.foldlM g.readEntry t = .ok t') :
    entries.foldlM (f.and g).readEntry (s, t) = .ok (s, t') := by
  induction entries generalizing t with
  | nil =>
    cases h
    rfl
  | cons entry entries ih =>
    rw [List.forall_mem_cons] at hf hg hj
    obtain ⟨next, hnext, hrest⟩ := Except.bind_eq_ok.1 h
    rw [readEntry_of_mem hg.1 hj.1] at hnext
    have hmem : entry.1 ∈ (f.and g).names := List.mem_append_right _ hg.1
    rw [List.foldlM_cons, readEntry_of_mem hmem hj.1, fill_and_of_not_mem s hf.1, hnext]
    exact ih hf.2 hg.2 hj.2 hrest

theorem Reads.name_mem (h : f.Reads [(name, j)] a) : name ∈ f.names :=
  h.names_eq ▸ List.mem_singleton_self name

theorem Reads.exists_fill (h : f.Reads [(name, j)] a) :
    ∃ s, f.fill name j f.start = .ok s ∧ f.finish s = .ok a := by
  obtain ⟨s, hs, ha⟩ := h.filled
  obtain ⟨s', hs', hrest⟩ := Except.bind_eq_ok.1 hs
  cases hrest
  rw [readEntry_of_mem h.name_mem (h.ne_flawed _ (List.mem_singleton_self _))] at hs'
  exact ⟨s, hs', ha⟩

theorem Reads.mem_names (h : g.Reads entries b) : ∀ entry ∈ entries, entry.1 ∈ g.names := by
  intro entry hentry
  rw [← h.names_eq]
  exact List.mem_map_of_mem hentry

theorem Reads.cons (hf : f.Reads [(name, j)] a) (hg : g.Reads entries b)
    (hn : g.names.contains name = false) : (f.and g).Reads ((name, j) :: entries) (a, b) := by
  have hj : j ≠ .flawed .entry := hf.ne_flawed _ (List.mem_singleton_self _)
  have hout : ∀ entry ∈ entries, entry.1 ∉ f.names := by
    intro entry hentry he
    rw [← hf.names_eq] at he
    have hname : entry.1 = name := List.mem_singleton.1 he
    rw [← hname, List.contains_iff_mem.2 (hg.mem_names entry hentry)] at hn
    cases hn
  constructor
  case names_eq => exact congrArg₂ (· ++ ·) hf.names_eq hg.names_eq
  case ne_flawed => exact List.forall_mem_cons.2 ⟨hj, hg.ne_flawed⟩
  case filled =>
    obtain ⟨s, hs, ha⟩ := hf.exists_fill
    obtain ⟨t, ht, hb⟩ := hg.filled
    have hmem : name ∈ (f.and g).names := List.mem_append_left _ hf.name_mem
    have hstart : (f.and g).readEntry (f.start, g.start) (name, j) = .ok (s, g.start) := by
      rw [readEntry_of_mem hmem hj, fill_and_of_mem g.start hf.name_mem, hs]
      rfl
    have hrest := foldlM_readEntry_and s hout hg.mem_names hg.ne_flawed ht
    refine ⟨(s, t), Except.bind_eq_ok.2 ⟨_, hstart, hrest⟩, ?_⟩
    exact Except.bind_eq_ok.2 ⟨a, ha, Except.bind_eq_ok.2 ⟨b, hb, rfl⟩⟩

theorem Reads.decode (h : f.Reads entries a) : f.decode.Reads (.obj entries) a := by
  obtain ⟨-, -, s, hs, ha⟩ := h
  exact ⟨Except.bind_eq_ok.2 ⟨s, hs, ha⟩, nofun⟩

theorem Reads.decodeAs {make : α → β} (h : f.Reads entries a) (hb : make a = b) :
    (f.decodeAs make).Reads (.obj entries) b :=
  hb ▸ h.decode.map make

end Fields

namespace Variant

variable {α β : Type} {variants : List (Variant α)} {name : String}

theorem reads_of {f : β → α} {payload : Decoder β} {j : Json} {a : α} {b : β}
    (hv : find? variants name = some (of name f payload)) (h : payload.Reads j b) (ha : f b = a) :
    (decode variants).Reads (.obj [(name, j)]) a := by
  refine ⟨?_, nofun⟩
  simp only [decode, hv, of, h.eq_ok]
  exact congrArg Except.ok ha

theorem reads_unit {a : α} (hv : find? variants name = some (unit name a)) :
    (decode variants).Reads (.str name) a := by
  refine ⟨?_, nofun⟩
  simp only [decode, hv]
  rfl

end Variant

end CapabilityFlow
