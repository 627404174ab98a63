import CapabilityFlow.Proofs.MarkSources

namespace CapabilityFlow

namespace MarkedTable

variable {t : MarkedTable} {options : Options} {calls : List Call} {c : Call} {k : Mark}

def afterAll (t : MarkedTable) (options : Options) (calls : List Call) : MarkedTable :=
  calls.foldl (fun t c => t.after options c) t

@[simp] theorem afterAll_nil : t.afterAll options [] = t := rfl

@[simp] theorem afterAll_cons :
    t.afterAll options (c :: calls) = (t.after options c).afterAll options calls := rfl

theorem afterAll_append (calls' : List Call) : t.afterAll options (calls ++ calls') =
    (t.afterAll options calls).afterAll options calls' :=
  List.foldl_append

theorem table_afterAll : (t.afterAll options calls).table = t.table := by
  induction calls generalizing t with
  | nil => rfl
  | cons c calls ih => rw [afterAll_cons, ih, table_after]

theorem host_afterAll : (t.afterAll options calls).host = t.host :=
  congrArg SymbolTable.host table_afterAll

/-- What a call answers does not depend on the calls before it. -/
theorem answer_afterAll : (t.afterAll options calls).answer options c = t.answer options c := by
  rw [answer, host_afterAll, answer]

theorem mem_marked_afterAll : k ∈ (t.afterAll options calls).marked.toList ↔
    k ∈ t.marked.toList ∨ ∃ c ∈ calls, c.Makes t.host options k := by
  induction calls generalizing t with
  | nil => simp
  | cons c calls ih =>
    rw [afterAll_cons, ih, mem_marked_after, host_after, or_assoc, List.exists_mem_cons_iff]

theorem after_eq_self_of_mem (h : c ∈ calls) :
    (t.afterAll options calls).after options c = t.afterAll options calls := by
  have hmarked : ((t.afterAll options calls).after options c).marked =
      (t.afterAll options calls).marked := by
    rw [marked_after_eq_self_iff, host_afterAll]
    intro k hk
    exact mem_marked_afterAll.2 (.inr ⟨c, h, hk⟩)
  exact congrArg (MarkedTable.mk (t.afterAll options calls).table) hmarked

/-- What a call makes of the marked types, when others came before it. -/
structure Accumulates (t : MarkedTable) (options : Options) (before : List Call) (c : Call) :
    Prop where
  extends_before : (t.afterAll options before).marked.toList <+:
    (t.afterAll options (before ++ [c])).marked.toList
  nodup : (t.afterAll options (before ++ [c])).marked.toList.Nodup
  required_ne (k : Mark) : k ∈ (t.afterAll options (before ++ [c])).marked.toList →
    k ∈ t.marked.toList ∨ k.required ≠ ∅
  sources (k : Mark) : k ∈ (t.afterAll options (before ++ [c])).marked.toList →
    k ∈ (t.afterAll options before).marked.toList ∨ c.Sources t.table k.type
  repeated (first rest : List Call) (c' : Call) : before ++ [c] = first ++ c' :: rest →
    (t.afterAll options (before ++ [c] ++ [c'])).marked =
      (t.afterAll options (before ++ [c])).marked ∧
    (t.afterAll options (before ++ [c])).answer options c' =
      (t.afterAll options first).answer options c'

/-- Marks accumulate: after each call of a sequence the marked types extend those before it, hold
nothing twice and nothing that asks for nothing, and each one that is new comes from what the call
was asked to look at; a call that is repeated marks nothing and answers as it did before. -/
theorem marks_accumulate (t : MarkedTable) (options : Options) (before : List Call) (c : Call) :
    t.Accumulates options before c := by
  have hlast : t.afterAll options (before ++ [c]) = (t.afterAll options before).after options c :=
    afterAll_append [c]
  constructor
  case extends_before =>
    rw [hlast]
    exact prefix_after
  case nodup => exact (t.afterAll options (before ++ [c])).marked.nodup
  case required_ne =>
    intro k hk
    refine (mem_marked_afterAll.1 hk).imp_right ?_
    rintro ⟨c', -, hmakes⟩
    exact hmakes.sources.1
  case sources =>
    intro k hk
    rw [hlast, mem_marked_after, host_afterAll] at hk
    exact hk.imp_right fun hmakes => hmakes.sources.2
  case repeated =>
    intro first rest c' hsplit
    have hmem : c' ∈ before ++ [c] := hsplit ▸ List.mem_append_right _ List.mem_cons_self
    rw [afterAll_append [c'], afterAll_cons, afterAll_nil, after_eq_self_of_mem hmem,
      answer_afterAll, answer_afterAll]
    exact ⟨rfl, rfl⟩

def componentTable : MarkedTable where
  table :=
    { keepGenericTable with
      types := .ofList [("Widget", { baseType := some "Component" }), ("Gadget", {})] }

def collector : MethodBody where
  method := "Collect()"
  graph :=
    { blocks :=
        [{ id := ⟨0⟩
           statements :=
            [⟨.assign (.localVar 0) (.typeOf "Widget"), {}⟩,
              ⟨.evaluate (.invoke "Keep(Type)" none [.read (.localVar 0)] []), {}⟩,
              ⟨.evaluate (.invoke "Keep(Type)" none [.baseTypeOf (.read (.localVar 0))] []), {}⟩,
              ⟨.evaluate (.invoke "Keep(Type)" none [.nameOf "Gadget" .null] []), {}⟩,
              ⟨.instantiate ⟨"Keep`1", [.array (.named "Widget")]⟩, {}⟩,
              ⟨.instantiate ⟨"Keep`1", [.constructed "List`1" [.named "Gadget"]]⟩, {}⟩] }] }

theorem marks_accumulate_collector :
    let calls := [.analyze collector, misfit]
    let later := componentTable.afterAll {} (calls ++ [failing])
    later.marked.toList.map (·.type) =
      ["Widget", "Component", "Gadget", "System.Array", "List`1"] ∧
    (∀ k ∈ later.marked.toList, k.required ≠ ∅) ∧
    (Call.analyze collector).Sources componentTable.table "Component" ∧
    (componentTable.afterAll {} (calls ++ [failing] ++ [misfit])).marked = later.marked ∧
    later.answer {} misfit =
      (componentTable.afterAll {} [.analyze collector]).answer {} misfit := by
  intro calls later
  have hmarked : later.marked.toList.map (·.type) =
      ["Widget", "Component", "Gadget", "System.Array", "List`1"] := by
    decide +kernel
  have hall := marks_accumulate componentTable {} calls failing
  have hfirst := marks_accumulate componentTable {} [] (.analyze collector)
  obtain ⟨hsame, hanswer⟩ := hall.repeated [.analyze collector] [failing] misfit rfl
  have hbase := hfirst.sources ⟨"Component", Kind.publicMethods.set⟩ (by decide +kernel)
  refine ⟨hmarked, ?_, hbase.resolve_left (by decide +kernel), hsame, hanswer⟩
  intro k hk
  exact (hall.required_ne k hk).resolve_left List.not_mem_nil

end MarkedTable

end CapabilityFlow
