import CapabilityFlow.Proofs.Workers

namespace CapabilityFlow

section Picking

variable {α β : Type} {order : List Nat} {xs : List α}

/-- The elements at some positions, in the order of the positions. -/
def pick (order : List Nat) (xs : List α) : List α := order.filterMap (xs[·]?)

theorem pick_map (f : α → β) : pick order (xs.map f) = (pick order xs).map f := by
  rw [pick, pick, List.map_filterMap]
  simp only [List.getElem?_map]

theorem pick_range : pick (List.range xs.length) xs = xs := by
  induction xs with
  | nil => rfl
  | cons x xs ih =>
    rw [pick, List.length_cons, List.range_succ_eq_map, List.filterMap_cons, List.filterMap_map]
    exact congrArg (x :: ·) ih

theorem pick_perm (h : order.Perm (List.range xs.length)) : (pick order xs).Perm xs := by
  have hperm := h.filterMap (xs[·]?)
  rwa [← pick, ← pick, pick_range] at hperm

end Picking

namespace MarkedTable

variable {t : MarkedTable} {config : Config} {m : MethodBody} {ms : List MethodBody}
  {report : BatchReport} {marked : MarkedTypes}

def batch (t : MarkedTable) (config : Config) (ms : List MethodBody) :
    BatchReport × MarkedTypes :=
  let (report, marks) := CapabilityFlow.batch t.host config false ms
  (report, t.marked.insertAll marks)

/-- The batch of one body, against a copy of the table in which nothing is marked. -/
def alone (t : MarkedTable) (config : Config) (m : MethodBody) : BatchReport × MarkedTypes :=
  batch ⟨t.table, ∅⟩ config [m]

/-- Workers may end a batch with the report and with the types marked. -/
def BatchEnds (t : MarkedTable) (config : Config) (ms : List MethodBody) (report : BatchReport)
    (marked : MarkedTypes) : Prop :=
  Workers.Ends (fun host m => m.report host config)
    (fun r => config.failFast && r.outcome.isAborted) (fun m => ⟨m.method, .cancelled⟩) t ms
    report.methods marked

/-- Each body is reported, in the order of the bodies, with the outcome that it has alone, and the
types marked are those that were marked before and those that some body marks alone; these are the
ones that its own report marks. -/
structure Separate (t : MarkedTable) (config : Config) (ms : List MethodBody)
    (report : BatchReport) (marked : MarkedTypes) : Prop where
  length_eq : report.methods.length = ms.length
  outcome (i : Nat) (m : MethodBody) : ms[i]? = some m → ∃ outcome,
    report.methods[i]? = some ⟨m.method, outcome⟩ ∧
      (t.alone config m).1.methods = [⟨m.method, outcome⟩]
  mem_marked (k : Mark) : k ∈ marked.toList ↔
    k ∈ t.marked.toList ∨ ∃ m ∈ ms, k ∈ (t.alone config m).2.toList
  mem_alone (m : MethodBody) (k : Mark) :
    k ∈ (t.alone config m).2.toList ↔ k ∈ (m.report t.host config).2

theorem methods_alone : (t.alone config m).1.methods = [(m.report t.host config).1] := rfl

theorem mem_marked_alone {k : Mark} :
    k ∈ (t.alone config m).2.toList ↔ k ∈ (m.report t.host config).2 := by
  have hmarks : (CapabilityFlow.batch t.host config false [m]).2 = (m.report t.host config).2 :=
    List.append_nil _
  rw [alone, batch, MarkedTypes.mem_insertAll]
  exact (or_iff_right List.not_mem_nil).trans (by rw [← hmarks]; rfl)

theorem batchEnds_batch :
    t.BatchEnds config ms (t.batch config ms).1 (t.batch config ms).2 :=
  Workers.ends_runJobs t ms

theorem BatchEnds.eq_runAll (h : t.BatchEnds config ms report marked)
    (hc : config.failFast = false) :
    report.methods = (runAll (·.report t.host config) ms).1 ∧
    ∀ k, k ∈ marked.toList ↔
      k ∈ t.marked.toList ∨ ∃ m ∈ ms, k ∈ (m.report t.host config).2 := by
  have hnever (r : MethodReport) : (config.failFast && r.outcome.isAborted) = false := by
    rw [hc, Bool.false_and]
  obtain ⟨hmethods, hmarked⟩ := Workers.Ends.eq_runAll h hnever
  refine ⟨hmethods, fun k => ?_⟩
  rw [hmarked, runAll, List.mem_flatMap]

theorem BatchEnds.separate (h : t.BatchEnds config ms report marked)
    (hc : config.failFast = false) : t.Separate config ms report marked := by
  obtain ⟨hmethods, hmarked⟩ := h.eq_runAll hc
  constructor
  case length_eq => rw [hmethods, runAll, List.length_map]
  case outcome =>
    intro i m hm
    refine ⟨(m.run t.host config).1, ?_, methods_alone⟩
    rw [hmethods, runAll, List.getElem?_map, hm]
    rfl
  case mem_marked =>
    intro k
    simp only [mem_marked_alone]
    exact hmarked k
  case mem_alone => exact fun m k => mem_marked_alone

/-- Bodies do not interfere: however the workers of a batch take turns, it ends as when each body is
analyzed alone, and bodies in another order end in the report in that order and the same marks. -/
theorem batch_separate (hc : config.failFast = false) (t : MarkedTable) (ms : List MethodBody) :
    t.BatchEnds config ms (t.batch config ms).1 (t.batch config ms).2 ∧
    ∀ report marked, t.BatchEnds config ms report marked →
      t.Separate config ms report marked ∧
      ∀ order, order.Perm (List.range ms.length) → ∀ report' marked',
        t.BatchEnds config (pick order ms) report' marked' →
          report'.methods = pick order report.methods ∧
          ∀ k, k ∈ marked'.toList ↔ k ∈ marked.toList := by
  refine ⟨batchEnds_batch, fun report marked h => ⟨h.separate hc, ?_⟩⟩
  intro order horder report' marked' h'
  obtain ⟨hmethods, hmarked⟩ := h.eq_runAll hc
  obtain ⟨hmethods', hmarked'⟩ := h'.eq_runAll hc
  constructor
  · rw [hmethods', hmethods, runAll, runAll, pick_map]
  · intro k
    rw [hmarked', hmarked]
    simp only [(pick_perm horder).mem_iff]

def keepTable : MarkedTable where
  table :=
    { methods := .ofList
        [("Keep(Type)",
            { parameters := [{ name := "type", capabilities := Kind.publicMethods.set }] }),
          ("Skip()", { isExempt := true })] }
  marked := (∅ : MarkedTypes).insert ⟨"Old", Kind.publicFields.set⟩

def keeper (method : MethodName) (type : TypeName) (slot : Slot) : MethodBody where
  method := method
  parameterCount := 1
  graph :=
    { blocks :=
        [{ id := ⟨0⟩
           statements :=
            [⟨.evaluate (.invoke "Keep(Type)" none [.typeOf type] []), {}⟩,
              ⟨.evaluate (.invoke "Keep(Type)" none [.read slot] []), {}⟩] }] }

def keepers : List MethodBody :=
  [keeper "Skip()" "Skipped" (.parameter 0), keeper "Fail(Type)" "Gadget" (.parameter 1),
    keeper "Pass(Type)" "Widget" (.parameter 0)]

theorem batch_keepers_separate :
    (keepTable.batch {} keepers).1.methods =
      [⟨"Skip()", .exempt .declared⟩,
        ⟨"Fail(Type)", .aborted (.parameterOutOfRange "Fail(Type)" 1 1)⟩,
        ⟨"Pass(Type)", .completed [⟨.mismatch .parameter .parameter,
          ["type", "Keep(Type)", "#0", "Pass(Type)", "PublicMethods"], {}⟩] 0⟩] ∧
    (keepTable.batch {} keepers).2.toList =
      [⟨"Old", Kind.publicFields.set⟩, ⟨"Gadget", Kind.publicMethods.set⟩,
        ⟨"Widget", Kind.publicMethods.set⟩] ∧
    keepTable.Separate {} keepers (keepTable.batch {} keepers).1 (keepTable.batch {} keepers).2 ∧
    (keepTable.batch {} (pick [2, 0, 1] keepers)).1.methods =
      pick [2, 0, 1] (keepTable.batch {} keepers).1.methods ∧
    ∀ k, k ∈ (keepTable.batch {} (pick [2, 0, 1] keepers)).2.toList ↔
      k ∈ (keepTable.batch {} keepers).2.toList := by
  have hc : ({} : Config).failFast = false := rfl
  obtain ⟨hends, hall⟩ := batch_separate hc keepTable keepers
  obtain ⟨hends', -⟩ := batch_separate hc keepTable (pick [2, 0, 1] keepers)
  obtain ⟨hseparate, horder⟩ := hall _ _ hends
  have hperm : [2, 0, 1].Perm (List.range keepers.length) := by decide
  exact ⟨by decide +kernel, by decide +kernel, hseparate, horder _ hperm _ _ hends'⟩

end MarkedTable

end CapabilityFlow
