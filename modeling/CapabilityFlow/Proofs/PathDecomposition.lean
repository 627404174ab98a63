import CapabilityFlow.Proofs.ExactPass

namespace CapabilityFlow

theorem length_distinct_le {α : Type} [DecidableEq α] (xs : List α) :
    (distinct xs).length ≤ xs.length := by
  induction xs with
  | nil => exact Nat.le_refl 0
  | cons x xs ih =>
    have hf := List.length_filter_le (· ≠ x) (distinct xs)
    simp only [distinct, List.length_cons]
    omega

theorem ValueSet.size_map_le {α β : Type} [DecidableEq β] (f : α → β) (s : ValueSet α) :
    (s.map f).size ≤ s.size := by
  have h := length_distinct_le (s.toList.map f)
  rwa [List.length_map, length_toList, ← toList_ofList, length_toList] at h

/-- No slot holds more than one value. -/
def SlotState.Single (state : State) : Prop := ∀ slot, (state.get slot).size ≤ 1

theorem SlotState.Single.values {host : Host} {state : State} (h : state.Single) :
    ∀ o : Operand, (o.values host state).size ≤ 1
  | .read slot => h slot
  | .baseTypeOf operand =>
    Nat.le_trans (ValueSet.size_map_le host.baseValue _) (h.values operand)
  | .typeOf _ | .genericParameter _ | .literal _ | .null | .load _ | .nameOf _ _
  | .invoke _ _ _ _ | .element _ | .unmodelled _ _ => Nat.le_refl 1

theorem SlotState.Single.set {state : State} {values : ValueSet Value} (h : state.Single)
    (slot : Slot) (hv : values.size ≤ 1) : (state.set slot values).Single := by
  intro slot'
  rw [SlotState.get_set]
  split
  · exact hv
  · exact h slot'

theorem SlotState.Single.finalState {host : Host} {state : State} (h : state.Single)
    (code : List Statement) : (finalState host code state).Single := by
  induction code generalizing state with
  | nil => exact h
  | cons statement code ih =>
    rw [finalState_cons]
    apply ih
    unfold Statement.effect
    split
    · exact h.set _ (h.values _)
    · exact h

theorem Check.result_verdict_eq_ok {α : Type} {c : Check α} {ds : List Diagnostic} :
    c.verdict.result = .ok ds ↔ c.Succeeds ∧ c.diagnostics = ds := by
  rw [verdict, Succeeds]
  cases c.outcome <;> simp [Except.map]

namespace MethodBody

variable {m : MethodBody} {host : Host} {options : Options}

theorem single_initialState (m : MethodBody) (host : Host) : (m.initialState host).Single := by
  have hp (h) : SlotState.Single ⟨⟨m.annotatedParameters host, h⟩⟩ := by
    intro slot
    unfold SlotState.get
    cases he : OrderedMap.get? (⟨m.annotatedParameters host, h⟩ : OrderedMap _ _) slot with
    | none => exact Nat.zero_le 1
    | some values =>
      obtain ⟨i, _, hi⟩ := List.mem_map.1 (Bindings.mem_of_get? he)
      cases hi
      exact Nat.le_refl 1
  unfold initialState
  split
  · exact (hp _).set _ (Nat.le_refl 1)
  · exact hp _

theorem forward_trace {b : BlockId} {code : List Statement} {e : Event}
    (h : m.graph.Forward b code) (he : e ∈ trace m host code (m.initialState host)) :
    ∃ a ∈ m.graph.reversePostorder, ∃ block, m.graph.block? a = some block ∧
      ∃ s ∈ m.arriving host a, e ∈ trace m host block.statements s := by
  induction h with
  | start => exact absurd he List.not_mem_nil
  | @edge a b block code ha hblock _ _ ih =>
    rw [trace_append, List.mem_append] at he
    rcases he with he | he
    · exact ih he
    · exact ⟨a, forward_mem ha, block, hblock, _, finalState_mem_arriving ha, he⟩
  | @thrown a b block code ran ha hblock _ _ hran ih =>
    rw [trace_append, List.mem_append] at he
    rcases he with he | he
    · exact ih he
    · obtain ⟨rest, hrest⟩ := hran
      refine ⟨a, forward_mem ha, block, hblock, _, finalState_mem_arriving ha, ?_⟩
      rw [← hrest, trace_append]
      exact List.mem_append_left _ he

/-- A pass reports and marks what the runs along forward paths do. -/
theorem mem_pass_events (h : (m.pass host).Succeeds) {e : Event} : e ∈ (m.pass host).events ↔
    ∃ code, m.graph.ForwardRun code ∧ e ∈ trace m host code (m.initialState host) := by
  obtain ⟨p, hp⟩ := h
  rw [(pass_exact hp).2]
  constructor
  · intro hx
    obtain ⟨b, _, block, hblock, _, ⟨code, hc, rfl⟩, he⟩ := hx
    refine ⟨code ++ block.statements, ⟨b, code, hc, .inr ⟨block, hblock, rfl⟩⟩, ?_⟩
    rw [trace_append]
    exact List.mem_append_right _ he
  · intro hx
    obtain ⟨code, ⟨b, before, hf, rfl | ⟨block, hblock, rfl⟩⟩, he⟩ := hx
    · exact forward_trace hf he
    · rw [trace_append, List.mem_append] at he
      rcases he with he | he
      · exact forward_trace hf he
      · exact ⟨b, forward_mem hf, block, hblock, _, finalState_mem_arriving hf, he⟩

theorem mem_diagnostics {α : Type} {c : Check α} {d : Diagnostic} :
    d ∈ c.diagnostics ↔ .report d ∈ c.events := by
  rw [Check.diagnostics, List.mem_filterMap]
  constructor
  · intro hx
    obtain ⟨e, he, hd⟩ := hx
    cases e with
    | report d' => exact Option.some.inj hd ▸ he
    | mark k => cases hd
  · intro h
    exact ⟨_, h, rfl⟩

theorem mem_marks {α : Type} {c : Check α} {k : Mark} : k ∈ c.marks ↔ .mark k ∈ c.events := by
  rw [Check.marks, List.mem_filterMap]
  constructor
  · intro hx
    obtain ⟨e, he, hk⟩ := hx
    cases e with
    | report d => cases hk
    | mark k' => exact Option.some.inj hk ▸ he
  · intro h
    exact ⟨_, h, rfl⟩

theorem analyze_eq_ok {ds : List Diagnostic} (hx : m.exemption? host options = none) :
    (m.analyze host options).result = .ok ds ↔
      (m.pass host).Succeeds ∧ (m.pass host).diagnostics = ds := by
  rw [analyze_of_not_exempt hx, Check.result_verdict_eq_ok]

theorem execute_of_forwardRun (h : (m.pass host).Succeeds) {code : List Statement}
    (hr : m.graph.ForwardRun code) : m.execute host code (m.initialState host) =
      ⟨trace m host code (m.initialState host), .ok (finalState host code (m.initialState host))⟩ :=
  execute_of_admits (forwardRun_admits h hr)

theorem mem_pass_diagnostics (h : (m.pass host).Succeeds) {d : Diagnostic} :
    d ∈ (m.pass host).diagnostics ↔ ∃ code, m.graph.ForwardRun code ∧
      d ∈ (m.execute host code (m.initialState host)).diagnostics := by
  rw [mem_diagnostics, mem_pass_events h]
  refine exists_congr fun code => and_congr_right fun hr => ?_
  rw [mem_diagnostics, execute_of_forwardRun h hr]

theorem mem_pass_marks (h : (m.pass host).Succeeds) {k : Mark} :
    k ∈ (m.pass host).marks ↔ ∃ code, m.graph.ForwardRun code ∧
      k ∈ (m.execute host code (m.initialState host)).marks := by
  rw [mem_marks, mem_pass_events h]
  refine exists_congr fun code => and_congr_right fun hr => ?_
  rw [mem_marks, execute_of_forwardRun h hr]

theorem pass_clean_iff (h : (m.pass host).Succeeds) : (m.pass host).diagnostics = [] ↔
    ∀ code, m.graph.ForwardRun code →
      (m.execute host code (m.initialState host)).diagnostics = [] := by
  simp only [List.eq_nil_iff_forall_not_mem, mem_pass_diagnostics h]
  constructor
  · intro hc code hr d hd
    exact hc d ⟨code, hr, hd⟩
  · rintro hc d ⟨code, hr, hd⟩
    exact hc code hr d hd

theorem execute_prefix_single (h : (m.pass host).Succeeds) {code ran : List Statement}
    (hr : m.graph.ForwardRun code) (hp : ran <+: code) :
    ∃ s, (m.execute host ran (m.initialState host)).outcome = .ok s ∧ s.Single := by
  have ha : m.Admits host ran := fun s hs => forwardRun_admits h hr s (hp.subset hs)
  exact ⟨_, congrArg Check.outcome (execute_of_admits ha),
    (m.single_initialState host).finalState ran⟩

/-- An analysis reports and marks exactly what the runs along single forward paths report and mark.
Each of them runs to its end with at most one value in a slot, and a body is clean exactly if they
all are. -/
theorem analyze_eq_union_of_paths {ds : List Diagnostic} (hx : m.exemption? host options = none)
    (h : (m.analyze host options).result = .ok ds) :
    (∀ d, d ∈ ds ↔ ∃ code, m.graph.ForwardRun code ∧
      d ∈ (m.execute host code (m.initialState host)).diagnostics) ∧
    (∀ k, k ∈ (m.analyze host options).marks ↔ ∃ code, m.graph.ForwardRun code ∧
      k ∈ (m.execute host code (m.initialState host)).marks) ∧
    (∀ code ran, m.graph.ForwardRun code → ran <+: code →
      ∃ s, (m.execute host ran (m.initialState host)).outcome = .ok s ∧
        ∀ slot, (s.get slot).size ≤ 1) ∧
    (ds = [] ↔ ∀ code, m.graph.ForwardRun code →
      (m.execute host code (m.initialState host)).diagnostics = []) := by
  obtain ⟨hs, rfl⟩ := (analyze_eq_ok hx).1 h
  refine ⟨fun d => mem_pass_diagnostics hs, fun k => ?_, fun code ran hr hp => ?_,
    pass_clean_iff hs⟩
  · rw [analyze_of_not_exempt hx]
    exact mem_pass_marks hs
  · exact execute_prefix_single hs hr hp

def sourceMismatch : Diagnostic :=
  ⟨.mismatch .returnValue .parameter, ["type", "Sink(Type)", "Source()", "PublicMethods"], {}⟩

theorem analyze_retry_union : retry.exemption? sinkTable.host {} = none ∧
    (retry.analyze sinkTable.host {}).result = .ok [sourceMismatch] ∧
    (∀ d, d ∈ [sourceMismatch] ↔ ∃ code, retry.graph.ForwardRun code ∧
      d ∈ (retry.execute sinkTable.host code (retry.initialState sinkTable.host)).diagnostics) ∧
    (∃ code, retry.graph.ForwardRun code ∧ ⟨"Widget", Kind.publicMethods.set⟩ ∈
      (retry.execute sinkTable.host code (retry.initialState sinkTable.host)).marks) := by
  have hx : retry.exemption? sinkTable.host {} = none := by decide +kernel
  have h : (retry.analyze sinkTable.host {}).result = .ok [sourceMismatch] := by
    decide +kernel
  have hm : (retry.analyze sinkTable.host {}).marks = [⟨"Widget", Kind.publicMethods.set⟩] := by
    decide +kernel
  obtain ⟨hd, hk, -, -⟩ := analyze_eq_union_of_paths hx h
  exact ⟨hx, h, hd, (hk _).1 (hm ▸ List.mem_cons_self)⟩

end MethodBody

end CapabilityFlow
