import CapabilityFlow.Proofs.ForwardPaths
import CapabilityFlow.SymbolTable

namespace CapabilityFlow

namespace Pass

variable {m : MethodBody} {host : Host} {f : Fact Value}

/-- What is known of the points from which a handler may have been reached. -/
def thrownState (thrown : OrderedMap BlockId State) (handler : BlockId) : State :=
  (thrown.get? handler).getD ∅

theorem says_throwTo {thrown : OrderedMap BlockId State} {s : State} {handler b : BlockId} :
    (thrownState (throwTo s thrown handler) b).Says f ↔
      (thrownState thrown b).Says f ∨ handler = b ∧ s.Says f := by
  by_cases hb : handler = b
  · subst hb
    unfold throwTo thrownState
    cases h : thrown.get? handler with
    | none => simp [OrderedMap.get?_insert, SlotState.not_says_empty]
    | some old => simp [OrderedMap.get?_insert, SlotState.says_join]
  · unfold throwTo thrownState
    cases h : thrown.get? handler <;> simp [OrderedMap.get?_insert, hb]

theorem says_throwToAll {handlers : List BlockId} {thrown : OrderedMap BlockId State} {s : State}
    {b : BlockId} : (thrownState (throwToAll handlers thrown s) b).Says f ↔
      (thrownState thrown b).Says f ∨ b ∈ handlers ∧ s.Says f := by
  induction handlers generalizing thrown with
  | nil => simp [throwToAll]
  | cons handler handlers ih =>
    rw [throwToAll, List.foldl_cons, ← throwToAll, ih, says_throwTo, List.mem_cons, or_assoc,
      ← or_and_right, eq_comm]

theorem says_foldl_throwToAll {handlers : List BlockId} {thrown : OrderedMap BlockId State}
    {states : List State} {b : BlockId} :
    (thrownState (states.foldl (throwToAll handlers) thrown) b).Says f ↔
      (thrownState thrown b).Says f ∨ b ∈ handlers ∧ ∃ s ∈ states, s.Says f := by
  induction states generalizing thrown with
  | nil => simp
  | cons s states ih =>
    rw [List.foldl_cons, ih, says_throwToAll, or_assoc, ← and_or_left, List.exists_mem_cons_iff]

theorem says_entryState {p : Pass} {block : BasicBlock} :
    (p.entryState m host block).Says f ↔
      (block.id = m.graph.entry ∧ (m.initialState host).Says f) ∨
        (∃ a ∈ block.predecessors, ∃ s, p.exitStates.get? a = some s ∧ s.Says f) ∨
        (thrownState p.thrownStates block.id).Says f := by
  have hm : (p.entryState m host block).Says f ↔
      ((block.predecessors.filterMap p.exitStates.get?).foldl SlotState.join
        (if block.id = m.graph.entry then m.initialState host else ∅)).Says f ∨
        (thrownState p.thrownStates block.id).Says f := by
    unfold entryState thrownState
    cases p.thrownStates.get? block.id with
    | none => simp [SlotState.not_says_empty]
    | some thrown => simp [SlotState.says_join]
  have hs : (if block.id = m.graph.entry then m.initialState host else ∅ : State).Says f ↔
      block.id = m.graph.entry ∧ (m.initialState host).Says f := by
    by_cases he : block.id = m.graph.entry <;> simp [he, SlotState.not_says_empty]
  rw [hm, SlotState.says_foldl_join, hs, or_assoc]
  simp only [List.mem_filterMap]
  constructor
  · intro hx
    rcases hx with h | ⟨s, ⟨a, ha, hs⟩, hf⟩ | h
    · exact .inl h
    · exact .inr (.inl ⟨a, ha, s, hs, hf⟩)
    · exact .inr (.inr h)
  · intro hx
    rcases hx with h | ⟨a, ha, s, hs, hf⟩ | h
    · exact .inl h
    · exact .inr (.inl ⟨s, ⟨a, ha, hs⟩, hf⟩)
    · exact .inr (.inr h)

/-- What is known once some blocks are visited is exact: each state is the join of the states in
which forward paths come to its place. -/
structure Exact (m : MethodBody) (host : Host) (visited : List BlockId) (p : Pass) : Prop where
  entry_keys : p.entryStates.entries.map Prod.fst = visited
  exit_keys : p.exitStates.entries.map Prod.fst = visited
  entry_collects : ∀ b s, p.entryStates.get? b = some s → s.Collects (m.arriving host b)
  exit_collects : ∀ b s, p.exitStates.get? b = some s → s.Collects (m.leaving host b)
  thrown_collects : ∀ b, (thrownState p.thrownStates b).Collects (m.throwing host visited b)

theorem Exact.entry {visited : List BlockId} {p : Pass} (h : Exact m host visited p) (b : BlockId)
    (s : State) (hs : p.entryStates.get? b = some s) : s.IsJoin (m.arriving host b) :=
  (h.entry_collects b s hs).isJoin

theorem exact_start (m : MethodBody) (host : Host) : Exact m host [] {} where
  entry_keys := rfl
  exit_keys := rfl
  entry_collects b s h := nomatch h
  exit_collects b s h := nomatch h
  thrown_collects b := by
    intro f
    refine iff_of_false (SlotState.not_says_empty f) ?_
    intro hx
    obtain ⟨s, ⟨a, ha, _⟩, _⟩ := hx
    exact absurd ha List.not_mem_nil

theorem mem_keys_iff {ν : Type} {entries : OrderedMap BlockId ν} {b : BlockId} :
    b ∈ entries.entries.map Prod.fst ↔ ∃ x, entries.get? b = some x := by
  rw [← not_iff_not, ← Bindings.get?_eq_none, OrderedMap.get?]
  cases Bindings.get? b entries.entries <;> simp

theorem Exact.collects_entryState {visited rest : List BlockId} {p : Pass} {b : BlockId}
    {block : BasicBlock} (h : Exact m host visited p) (hw : m.graph.WellFormed)
    (ho : m.graph.reversePostorder = visited ++ b :: rest)
    (hb : m.graph.block? b = some block) :
    (p.entryState m host block).Collects (m.arriving host b) := by
  have hid : block.id = b := FlowGraph.id_of_block? hb
  intro f
  rw [says_entryState, hid]
  constructor
  · intro hx
    rcases hx with ⟨he, hf⟩ | ⟨a, ha, s, hs, hf⟩ | hf
    · exact ⟨_, (MethodBody.mem_arriving_iff ho).2 (.inl ⟨he, rfl⟩), hf⟩
    · have hvisited : a ∈ visited := h.exit_keys ▸ mem_keys_iff.2 ⟨s, hs⟩
      obtain ⟨s', hs', hf'⟩ := (h.exit_collects a s hs f).1 hf
      obtain ⟨c, hc, hedge⟩ := hw.predecessors block (FlowGraph.mem_of_block? hb) a ha
      exact ⟨s', (MethodBody.mem_arriving_iff ho).2
        (.inr (.inl ⟨a, hvisited, ⟨c, hc, hid ▸ hedge⟩, hs'⟩)), hf'⟩
    · obtain ⟨s', hs', hf'⟩ := (h.thrown_collects b f).1 hf
      exact ⟨s', (MethodBody.mem_arriving_iff ho).2 (.inr (.inr hs')), hf'⟩
  · intro hx
    obtain ⟨s, hs, hf⟩ := hx
    rcases (MethodBody.mem_arriving_iff ho).1 hs with ⟨he, rfl⟩ | ⟨a, ha, ⟨c, hc, hedge⟩, hl⟩ | ht
    · exact .inl ⟨he, hf⟩
    · obtain ⟨s', hs'⟩ := mem_keys_iff.1 (h.exit_keys ▸ ha : a ∈ _)
      obtain ⟨block', hblock', hpred⟩ := hw.successors c (FlowGraph.mem_of_block? hc) b hedge
      cases hb.symm.trans hblock'
      rw [FlowGraph.id_of_block? hc] at hpred
      exact .inr (.inl ⟨a, hpred, s', hs', (h.exit_collects a s' hs' f).2 ⟨s, hl, hf⟩⟩)
    · exact .inr (.inr ((h.thrown_collects b f).2 ⟨s, ht, hf⟩))

theorem keys_insert {ν : Type} {entries : OrderedMap BlockId ν} {visited : List BlockId}
    {b : BlockId} {x : ν} (h : entries.entries.map Prod.fst = visited) (hn : b ∉ visited) :
    (entries.insert b x).entries.map Prod.fst = visited ++ [b] := by
  rw [OrderedMap.entries_insert, Bindings.keys_insert, h, if_neg hn]

theorem forall_insert {ν : Type} {entries : OrderedMap BlockId ν} {b : BlockId} {x : ν}
    {P : BlockId → ν → Prop} (hx : P b x) (h : ∀ c y, entries.get? c = some y → P c y) :
    ∀ c y, (entries.insert b x).get? c = some y → P c y := by
  intro c y hy
  rw [OrderedMap.get?_insert] at hy
  by_cases he : b = c
  · rw [if_pos he, Option.some.injEq] at hy
    subst he hy
    exact hx
  · rw [if_neg he] at hy
    exact h c y hy

def afterVisit (m : MethodBody) (host : Host) (p : Pass) (block : BasicBlock) : Pass :=
  let start := p.entryState m host block
  { entryStates := p.entryStates.insert block.id start
    exitStates := p.exitStates.insert block.id (finalState host block.statements start)
    thrownStates := (start :: statesAfter host block.statements start).foldl
      (throwToAll (m.graph.handlers block.id)) p.thrownStates }

theorem visit_of_admits {p : Pass} {block : BasicBlock} (h : m.Admits host block.statements) :
    p.visit m host block =
      ⟨trace m host block.statements (p.entryState m host block),
        .ok (afterVisit m host p block)⟩ := by
  rw [visit, MethodBody.steps_of_admits h, Check.bind_eq, Check.andThen_of_ok rfl,
    getLast_statesAfter]
  simp only [Check.pure_eq, Check.done, List.append_nil]
  rfl

/-- A visit to the next block keeps what is known exact. -/
theorem Exact.visit {before rest : List BlockId} {p : Pass} {b : BlockId} {block : BasicBlock}
    (h : Exact m host before p) (hw : m.graph.WellFormed)
    (ho : m.graph.reversePostorder = before ++ b :: rest) (hb : m.graph.block? b = some block) :
    Exact m host (before ++ [b]) (afterVisit m host p block) := by
  have hid : block.id = b := FlowGraph.id_of_block? hb
  have hjoin := h.collects_entryState hw ho hb
  have hne : (m.arriving host b).Nonempty := MethodBody.arriving_nonempty b (ho ▸ by simp)
  have hn : b ∉ before := FlowGraph.not_mem_visited ho
  unfold afterVisit
  rw [hid]
  constructor
  · exact keys_insert h.entry_keys hn
  · exact keys_insert h.exit_keys hn
  · exact forall_insert hjoin h.entry_collects
  · refine forall_insert ?_ h.exit_collects
    rw [MethodBody.leaving_eq hb]
    exact collects_finalState hjoin hne block.statements
  · intro c f
    rw [says_foldl_throwToAll, h.thrown_collects c f, says_points_join hjoin hne]
    simp only [MethodBody.mem_throwing_concat hb]
    constructor
    · intro hx
      rcases hx with ⟨s, hs, hf⟩ | ⟨hc, s₀, hs₀, ran, hran, hf⟩
      · exact ⟨s, .inl hs, hf⟩
      · exact ⟨_, .inr ⟨hc, s₀, hs₀, ran, hran, rfl⟩, hf⟩
    · intro hx
      obtain ⟨_, hs | ⟨hc, s₀, hs₀, ran, hran, rfl⟩, hf⟩ := hx
      · exact .inl ⟨_, hs, hf⟩
      · exact .inr ⟨hc, s₀, hs₀, ran, hran, hf⟩

theorem visitAll_cons {p : Pass} {id : BlockId} {ids : List BlockId} {block : BasicBlock}
    (hb : m.graph.block? id = some block) (ha : m.Admits host block.statements) :
    visitAll m host (id :: ids) p =
      ⟨trace m host block.statements (p.entryState m host block) ++
        (visitAll m host ids (afterVisit m host p block)).events,
        (visitAll m host ids (afterVisit m host p block)).outcome⟩ := by
  rw [visitAll_of_block hb, visit_of_admits ha]
  rfl

theorem Exact.visitAll {before rest : List BlockId} {p q : Pass} (h : Exact m host before p)
    (hw : m.graph.WellFormed) (ho : m.graph.reversePostorder = before ++ rest)
    (hq : (visitAll m host rest p).outcome = .ok q) :
    Exact m host m.graph.reversePostorder q ∧
      ∀ e, e ∈ (visitAll m host rest p).events ↔ ∃ b ∈ rest, ∃ block,
        m.graph.block? b = some block ∧
          ∃ s ∈ m.arriving host b, e ∈ trace m host block.statements s := by
  induction rest generalizing before p with
  | nil =>
    rw [List.append_nil] at ho
    cases hq
    exact ⟨ho ▸ h, fun e => iff_of_false List.not_mem_nil fun ⟨_, hb, _⟩ => nomatch hb⟩
  | cons b rest ih =>
    obtain ⟨⟨block, hb, ha⟩, -⟩ := List.forall_mem_cons.1 (visitAll_succeeds.1 ⟨q, hq⟩)
    rw [visitAll_cons hb ha] at hq ⊢
    obtain ⟨hexact, hevents⟩ := ih (h.visit hw ho hb) (by rw [ho, List.append_assoc]; rfl) hq
    refine ⟨hexact, fun e => ?_⟩
    have hne : (m.arriving host b).Nonempty := MethodBody.arriving_nonempty b (ho ▸ by simp)
    rw [List.mem_append, mem_trace_join (h.collects_entryState hw ho hb) hne, hevents,
      List.exists_mem_cons_iff]
    refine or_congr_left ?_
    constructor
    · intro hs
      exact ⟨block, hb, hs⟩
    · intro hx
      obtain ⟨block', hb', hs⟩ := hx
      cases hb.symm.trans hb'
      exact hs

end Pass

namespace MethodBody

variable {m : MethodBody} {host : Host}

theorem pass_of_wellFormed (hw : m.graph.WellFormed) :
    m.pass host = Pass.visitAll m host m.graph.reversePostorder {} := by
  rw [pass, FlowGraph.validate_eq_ok.2 hw]
  rfl

theorem pass_exact {p : Pass} (h : (m.pass host).outcome = .ok p) :
    Pass.Exact m host m.graph.reversePostorder p ∧
      ∀ e, e ∈ (m.pass host).events ↔ ∃ b ∈ m.graph.reversePostorder, ∃ block,
        m.graph.block? b = some block ∧
          ∃ s ∈ m.arriving host b, e ∈ trace m host block.statements s := by
  have hw := (pass_succeeds.1 ⟨p, h⟩).1
  rw [pass_of_wellFormed hw] at h ⊢
  exact (Pass.exact_start m host).visitAll hw rfl h

/-- A pass visits the blocks in order, and a block starts with a value in a slot exactly if some
forward path to the block leaves the value there. -/
theorem mem_entryStates_iff_forward {p : Pass} (h : (m.pass host).outcome = .ok p) :
    p.entryStates.entries.map Prod.fst = m.graph.reversePostorder ∧
      p.exitStates.entries.map Prod.fst = m.graph.reversePostorder ∧
      ∀ b ∈ m.graph.reversePostorder, ∃ state, p.entryStates.get? b = some state ∧
        ∀ slot v, v ∈ state.get slot ↔ ∃ code final, m.graph.Forward b code ∧
          (m.execute host code (m.initialState host)).outcome = .ok final ∧ v ∈ final.get slot := by
  obtain ⟨hexact, -⟩ := pass_exact h
  refine ⟨hexact.entry_keys, hexact.exit_keys, fun b hb => ?_⟩
  obtain ⟨state, hs⟩ := Pass.mem_keys_iff.1 (hexact.entry_keys ▸ hb : b ∈ _)
  refine ⟨state, hs, fun slot v => ?_⟩
  rw [hexact.entry b state hs slot v]
  constructor
  · intro hx
    obtain ⟨_, ⟨code, hf, rfl⟩, hv⟩ := hx
    have he : (m.execute host code (m.initialState host)).outcome =
        .ok (finalState host code (m.initialState host)) :=
      congrArg Check.outcome (execute_of_admits (forward_admits ⟨p, h⟩ hf))
    exact ⟨code, _, hf, he, hv⟩
  · intro hx
    obtain ⟨code, final, hf, he, hv⟩ := hx
    rw [execute_of_admits (forward_admits ⟨p, h⟩ hf)] at he
    cases he
    exact ⟨_, finalState_mem_arriving hf, hv⟩

def retry : MethodBody where
  method := "Retry()"
  graph :=
    { blocks :=
        [{ id := ⟨0⟩, successors := [⟨1⟩]
           statements := [⟨.assign (.localVar 0) (.typeOf "Widget"), {}⟩] },
          { id := ⟨1⟩, predecessors := [⟨0⟩, ⟨1⟩], successors := [⟨1⟩, ⟨3⟩]
            statements := [⟨.assign (.localVar 0) (.invoke "Source()" none [] []), {}⟩,
              ⟨.assign (.localVar 0) .null, {}⟩] },
          { id := ⟨2⟩, successors := [⟨3⟩]
            statements := [⟨.evaluate (.invoke "Sink(Type)" none [.read (.localVar 0)] []), {}⟩] },
          { id := ⟨3⟩, predecessors := [⟨1⟩, ⟨2⟩] }]
      regions := [⟨.caught, [⟨1⟩], ⟨2⟩⟩] }

def sinkTable : SymbolTable :=
  (∅ : SymbolTable).method "Sink(Type)" fun symbol =>
    { symbol with parameters := [{ name := "type", capabilities := Kind.publicMethods.set }] }

theorem mem_entryStates_retry : ∃ p state, (retry.pass sinkTable.host).outcome = .ok p ∧
    p.entryStates.get? ⟨2⟩ = some state ∧
    (state.get (.localVar 0)).toList =
      [.type "Widget", .annotated (.returnValue "Source()") ∅, .null] ∧
    ∀ v, v ∈ state.get (.localVar 0) ↔ ∃ code final, retry.graph.Forward ⟨2⟩ code ∧
      (retry.execute sinkTable.host code (retry.initialState sinkTable.host)).outcome = .ok final ∧
        v ∈ final.get (.localVar 0) := by
  have hv : (retry.pass sinkTable.host).outcome.toOption.map (fun p =>
      (p.entryStates.get? ⟨2⟩).map fun state => (state.get (.localVar 0)).toList) =
        some (some [.type "Widget", .annotated (.returnValue "Source()") ∅, .null]) := by
    decide +kernel
  have ho : retry.graph.reversePostorder = [⟨0⟩, ⟨1⟩, ⟨2⟩, ⟨3⟩] := by decide +kernel
  cases hp : (retry.pass sinkTable.host).outcome with
  | error v => rw [hp] at hv; cases hv
  | ok p =>
    obtain ⟨-, -, h⟩ := mem_entryStates_iff_forward hp
    obtain ⟨state, hs, hiff⟩ := h ⟨2⟩ (ho ▸ by decide)
    rw [hp] at hv
    simp only [Except.toOption, Option.map_some, hs, Option.some.injEq] at hv
    exact ⟨p, state, rfl, hs, hv, hiff _⟩

end MethodBody

end CapabilityFlow
