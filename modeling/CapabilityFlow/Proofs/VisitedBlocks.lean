import CapabilityFlow.Proofs.ExactPass

namespace CapabilityFlow

section StraightLine

variable {m : MethodBody} {host : Host} {location : Location} {state : State} {e : Event}

theorem MethodBody.mem_checkDemands_cons {d : Demand} {ds : List Demand} :
    e ∈ (m.checkDemands host location state (d :: ds)).events ↔
      e ∈ (d.check m host location state).events ∨
        ¬ d.Fails m host ∧ e ∈ (m.checkDemands host location state ds).events := by
  have hmet : (∃ u, (d.check m host location state).outcome = .ok u ∧
      e ∈ (m.checkDemands host location state ds).events) ↔
        ¬ d.Fails m host ∧ e ∈ (m.checkDemands host location state ds).events := by
    rw [← Demand.check_succeeds, Check.Succeeds, exists_and_right]
  rw [checkDemands_cons, Check.mem_events_andThen, hmet]

theorem MethodBody.mem_step {statement : Statement} :
    e ∈ (m.step host statement state).events ↔
      e ∈ (m.checkDemands host statement.location state
        (statement.operation.demands m.method)).events := by
  rw [step_eq, Check.mem_events_andThen_done]

theorem MethodBody.mem_execute_cons {statement : Statement} {code : List Statement} :
    e ∈ (m.execute host (statement :: code) state).events ↔
      e ∈ (m.step host statement state).events ∨ ¬ statement.operation.Violates m host ∧
        e ∈ (m.execute host code (statement.effect host state)).events := by
  rw [execute, Check.bind_eq, Check.mem_events_andThen]
  refine or_congr_right ?_
  constructor
  · rintro ⟨next, hnext, he⟩
    have hadmitted : ¬ statement.operation.Violates m host := step_succeeds.1 ⟨next, hnext⟩
    rw [step_of_admitted hadmitted] at hnext
    cases hnext
    exact ⟨hadmitted, he⟩
  · rintro ⟨hadmitted, he⟩
    rw [step_of_admitted hadmitted]
    exact ⟨_, rfl, he⟩

theorem MethodBody.mem_steps {code : List Statement} :
    e ∈ (m.steps host code state).events ↔ e ∈ (m.execute host code state).events := by
  induction code generalizing state with
  | nil => exact Iff.rfl
  | cons statement code ih =>
    rw [steps, execute, Check.bind_eq, Check.bind_eq, Check.mem_events_andThen,
      Check.mem_events_andThen]
    refine or_congr_right (exists_congr fun next => and_congr_right fun _ => ?_)
    rw [Check.bind_eq, ← ih]
    exact Check.mem_events_andThen_done

theorem MethodBody.exists_demand_of_mem_checkDemands {ds : List Demand}
    (he : e ∈ (m.checkDemands host location state ds).events) :
    ∃ d ∈ ds, e ∈ (d.check m host location state).events := by
  induction ds with
  | nil => cases he
  | cons d ds ih =>
    rcases mem_checkDemands_cons.1 he with he | ⟨-, he⟩
    · exact ⟨d, List.mem_cons_self, he⟩
    · obtain ⟨d', hd', he'⟩ := ih he
      exact ⟨d', List.mem_cons_of_mem _ hd', he'⟩

/-- Every event of straight-line code comes of a demand of some statement, checked in the state that
the statements before it leave. -/
theorem MethodBody.exists_demand_of_mem_execute {code : List Statement}
    (he : e ∈ (m.execute host code state).events) :
    ∃ ran statement rest, code = ran ++ statement :: rest ∧
      ∃ d ∈ statement.operation.demands m.method,
        e ∈ (d.check m host statement.location (finalState host ran state)).events := by
  induction code generalizing state with
  | nil => cases he
  | cons statement code ih =>
    rcases mem_execute_cons.1 he with he | ⟨-, he⟩
    · exact ⟨[], statement, code, rfl, exists_demand_of_mem_checkDemands (mem_step.1 he)⟩
    · obtain ⟨ran, statement', rest, rfl, hd⟩ := ih he
      exact ⟨statement :: ran, statement', rest, rfl, hd⟩

end StraightLine

section Joining

variable {m : MethodBody} {host : Host} {join : State} {states : Set State} {e : Event}

theorem mem_checkDemands_join (h : join.IsJoin states) (hn : states.Nonempty)
    {location : Location} (ds : List Demand) :
    e ∈ (m.checkDemands host location join ds).events ↔
      ∃ s ∈ states, e ∈ (m.checkDemands host location s ds).events := by
  induction ds with
  | nil => exact exists_mem_const hn
  | cons d ds ih =>
    simp only [MethodBody.mem_checkDemands_cons, mem_check_join h hn, ih, and_or_left, exists_or]
    refine or_congr_right ?_
    constructor
    · rintro ⟨hmet, s, hs, he⟩
      exact ⟨s, hs, hmet, he⟩
    · rintro ⟨s, hs, hmet, he⟩
      exact ⟨hmet, s, hs, he⟩

theorem mem_execute_join (h : join.Collects states) (hn : states.Nonempty)
    (code : List Statement) :
    e ∈ (m.execute host code join).events ↔
      ∃ s ∈ states, e ∈ (m.execute host code s).events := by
  induction code generalizing join states with
  | nil => exact exists_mem_const hn
  | cons statement code ih =>
    have heffect : (statement.effect host join).Collects (statement.effect host '' states) :=
      collects_effect h hn statement
    simp only [MethodBody.mem_execute_cons, MethodBody.mem_step,
      mem_checkDemands_join h.isJoin hn, ih heffect (hn.image _), Set.exists_mem_image,
      and_or_left, exists_or]
    refine or_congr_right ?_
    constructor
    · rintro ⟨hadmitted, s, hs, he⟩
      exact ⟨s, hs, hadmitted, he⟩
    · rintro ⟨s, hs, hadmitted, he⟩
      exact ⟨hadmitted, s, hs, he⟩

end Joining

namespace MethodBody

variable {m : MethodBody} {host : Host} {a b : BlockId} {e : Event}

def Passes (m : MethodBody) (host : Host) (b : BlockId) : Prop :=
  ∃ block, m.graph.block? b = some block ∧ m.Admits host block.statements

/-- A pass comes to the block: nothing violates the contract in the blocks that are visited before
it. Of the block itself nothing is said. -/
def Visits (m : MethodBody) (host : Host) (b : BlockId) : Prop :=
  b ∈ m.graph.reversePostorder ∧ ∀ a, m.graph.Before a b → m.Passes host a

theorem visits_of_order {before rest : List BlockId}
    (ho : m.graph.reversePostorder = before ++ b :: rest) :
    m.Visits host b ↔ ∀ a ∈ before, m.Passes host a := by
  have hmem : b ∈ m.graph.reversePostorder := ho ▸ by simp
  simp only [Visits, hmem, true_and, FlowGraph.before_iff_mem ho]

theorem Visits.of_before (h : m.Visits host b) (hlt : m.graph.Before a b) : m.Visits host a := by
  obtain ⟨before, rest, ho⟩ := List.append_of_mem h.1
  have ha : a ∈ before := (FlowGraph.before_iff_mem ho).1 hlt
  obtain ⟨first, second, rfl⟩ := List.append_of_mem ha
  have ho' : m.graph.reversePostorder = first ++ a :: (second ++ b :: rest) := by
    rw [ho, List.append_assoc, List.cons_append]
  rw [visits_of_order ho']
  intro c hc
  exact h.2 c ((FlowGraph.before_iff_mem ho).2 (List.mem_append_left _ hc))

theorem passes_of_visits_later {before rest : List BlockId} {c : BlockId}
    (ho : m.graph.reversePostorder = before ++ b :: rest) (hc : c ∈ rest)
    (h : m.Visits host c) : m.Passes host b := by
  have hsub : [b, c].Sublist (b :: rest) := .cons_cons b (List.singleton_sublist.2 hc)
  have hlt : m.graph.Before b c := by
    rw [FlowGraph.Before, ho]
    exact hsub.trans (List.sublist_append_right before _)
  exact h.2 b hlt

end MethodBody

namespace Pass

variable {m : MethodBody} {host : Host} {e : Event}

theorem mem_visit {p : Pass} {block : BasicBlock} :
    e ∈ (p.visit m host block).events ↔
      e ∈ (m.execute host block.statements (p.entryState m host block)).events := by
  rw [visit, Check.bind_eq, ← MethodBody.mem_steps]
  exact Check.mem_events_andThen_done

theorem Exact.mem_visitAll {before ids : List BlockId} {p : Pass} (h : Exact m host before p)
    (hw : m.graph.WellFormed) (ho : m.graph.reversePostorder = before ++ ids)
    (hpasses : ∀ a ∈ before, m.Passes host a) :
    e ∈ (Pass.visitAll m host ids p).events ↔ ∃ b ∈ ids, m.Visits host b ∧ ∃ block,
      m.graph.block? b = some block ∧
        ∃ s ∈ m.arriving host b, e ∈ (m.execute host block.statements s).events := by
  induction ids generalizing before p with
  | nil =>
    refine iff_of_false List.not_mem_nil ?_
    rintro ⟨b, hb, -⟩
    cases hb
  | cons b rest ih =>
    have hmem : b ∈ m.graph.reversePostorder := ho ▸ by simp
    obtain ⟨block, hb⟩ := hw.exists_block b hmem
    have hvisits : m.Visits host b := (MethodBody.visits_of_order ho).2 hpasses
    have hne : (m.arriving host b).Nonempty := MethodBody.arriving_nonempty b hmem
    have hhere : e ∈ (p.visit m host block).events ↔ m.Visits host b ∧ ∃ block,
        m.graph.block? b = some block ∧
          ∃ s ∈ m.arriving host b, e ∈ (m.execute host block.statements s).events := by
      rw [mem_visit, mem_execute_join (h.collects_entryState hw ho hb) hne]
      constructor
      · intro hs
        exact ⟨hvisits, block, hb, hs⟩
      · rintro ⟨-, block', hb', hs⟩
        cases hb.symm.trans hb'
        exact hs
    rw [visitAll_of_block hb, Check.mem_events_andThen, hhere, List.exists_mem_cons_iff]
    refine or_congr_right ?_
    by_cases ha : m.Admits host block.statements
    · have hpass : m.Passes host b := ⟨block, hb, ha⟩
      have hpasses' : ∀ a ∈ before ++ [b], m.Passes host a :=
        List.forall_mem_append.2 ⟨hpasses, List.forall_mem_singleton.2 hpass⟩
      rw [← ih (h.visit hw ho hb) (by rw [ho, List.append_assoc]; rfl) hpasses',
        visit_of_admits ha]
      constructor
      · rintro ⟨q, hq, he⟩
        cases hq
        exact he
      · intro he
        exact ⟨_, rfl, he⟩
    · -- The pass ends here, and no block behind this one counts as visited.
      constructor
      · rintro ⟨q, hq, -⟩
        exact absurd (visit_succeeds.1 ⟨q, hq⟩) ha
      · rintro ⟨c, hc, hvisited, -⟩
        obtain ⟨block', hb', ha'⟩ := MethodBody.passes_of_visits_later ho hc hvisited
        cases hb.symm.trans hb'
        exact absurd ha' ha

end Pass

namespace MethodBody

variable {m : MethodBody} {host : Host} {b : BlockId} {e : Event}

theorem Visits.admits {code : List Statement} (h : m.Visits host b)
    (hf : m.graph.Forward b code) : m.Admits host code := by
  induction hf with
  | start => exact fun s hs => absurd hs List.not_mem_nil
  | @edge a b block code _ hblock _ hlt ih =>
    obtain ⟨block', hb', hadmits⟩ := h.2 a hlt
    cases hblock.symm.trans hb'
    exact (ih (h.of_before hlt)).append hadmits
  | @thrown a b block code ran _ hblock _ hlt hran ih =>
    obtain ⟨block', hb', hadmits⟩ := h.2 a hlt
    cases hblock.symm.trans hb'
    exact (ih (h.of_before hlt)).append fun s hs => hadmits s (hran.subset hs)

/-- The code of a block that a pass comes to has the event, when it is run from a state in which a
forward path arrives at the block; if it violates the contract, then before it does. -/
def Emits (m : MethodBody) (host : Host) (e : Event) : Prop :=
  m.graph.WellFormed ∧ ∃ b block code s, m.Visits host b ∧ m.graph.block? b = some block ∧
    m.graph.Forward b code ∧ (m.execute host code (m.initialState host)).outcome = .ok s ∧
    e ∈ (m.execute host block.statements s).events

theorem mem_arriving_of_visits (h : m.Visits host b) {s : State} :
    s ∈ m.arriving host b ↔ ∃ code, m.graph.Forward b code ∧
      (m.execute host code (m.initialState host)).outcome = .ok s := by
  have hrun {code : List Statement} (hf : m.graph.Forward b code) :
      (m.execute host code (m.initialState host)).outcome =
        .ok (finalState host code (m.initialState host)) :=
    congrArg Check.outcome (execute_of_admits (h.admits hf))
  constructor
  · rintro ⟨code, hf, rfl⟩
    exact ⟨code, hf, hrun hf⟩
  · rintro ⟨code, hf, hs⟩
    rw [hrun hf] at hs
    cases hs
    exact finalState_mem_arriving hf

theorem events_pass_of_not_wellFormed (hw : ¬ m.graph.WellFormed) : (m.pass host).events = [] := by
  rw [← FlowGraph.validate_eq_ok] at hw
  rw [pass, Check.bind_eq]
  cases hv : m.graph.validate with
  | error v => rfl
  | ok u => exact absurd hv hw

/-- What a pass reports and marks, whether or not a violation ends it. -/
theorem mem_pass_iff_emits : e ∈ (m.pass host).events ↔ m.Emits host e := by
  by_cases hw : m.graph.WellFormed
  · have hvisit : e ∈ (Pass.visitAll m host m.graph.reversePostorder {}).events ↔ _ :=
      (Pass.exact_start m host).mem_visitAll hw rfl fun _ ha => absurd ha List.not_mem_nil
    rw [pass_of_wellFormed hw, hvisit]
    constructor
    · rintro ⟨b, -, hvisits, block, hb, s, hs, he⟩
      obtain ⟨code, hf, hrun⟩ := (mem_arriving_of_visits hvisits).1 hs
      exact ⟨hw, b, block, code, s, hvisits, hb, hf, hrun, he⟩
    · rintro ⟨-, b, block, code, s, hvisits, hb, hf, hrun, he⟩
      have hs := (mem_arriving_of_visits hvisits).2 ⟨code, hf, hrun⟩
      exact ⟨b, hvisits.1, hvisits, block, hb, s, hs, he⟩
  · rw [events_pass_of_not_wellFormed hw]
    exact iff_of_false List.not_mem_nil fun h => hw h.1

end MethodBody

end CapabilityFlow
