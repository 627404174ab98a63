import CapabilityFlow.Proofs.StraightLine

namespace CapabilityFlow

/-- Some forward path leads from the entry to a block and runs the code on its way. Each step goes
to a block that is visited later: along an edge at the end of a block, or from any point of a block
to the handler of a region that protects it. -/
inductive FlowGraph.Forward (g : FlowGraph) : BlockId → List Statement → Prop
  | start : Forward g g.entry []
  | edge {a b : BlockId} {block : BasicBlock} {code : List Statement} :
    Forward g a code → g.block? a = some block → b ∈ block.successors → g.Before a b →
    Forward g b (code ++ block.statements)
  | thrown {a b : BlockId} {block : BasicBlock} {code ran : List Statement} :
    Forward g a code → g.block? a = some block → b ∈ g.handlers a → g.Before a b →
    ran <+: block.statements → Forward g b (code ++ ran)

/-- Code that runs along a forward path, with or without the last block. -/
def FlowGraph.ForwardRun (g : FlowGraph) (code : List Statement) : Prop :=
  ∃ b before, g.Forward b before ∧
    (code = before ∨ ∃ block, g.block? b = some block ∧ code = before ++ block.statements)

namespace MethodBody

/-- The states in which forward paths arrive at a block. -/
def arriving (m : MethodBody) (host : Host) (b : BlockId) : Set State :=
  {s | ∃ code, m.graph.Forward b code ∧ s = finalState host code (m.initialState host)}

/-- The states in which forward paths leave a block at its end. -/
def leaving (m : MethodBody) (host : Host) (b : BlockId) : Set State :=
  {s | ∃ block, m.graph.block? b = some block ∧
    ∃ s₀ ∈ m.arriving host b, s = finalState host block.statements s₀}

def throwing (m : MethodBody) (host : Host) (visited : List BlockId) (handler : BlockId) :
    Set State :=
  {s | ∃ a ∈ visited, handler ∈ m.graph.handlers a ∧ ∃ block, m.graph.block? a = some block ∧
    ∃ s₀ ∈ m.arriving host a, ∃ ran, ran <+: block.statements ∧ s = finalState host ran s₀}

variable {m : MethodBody} {host : Host}

theorem finalState_mem_arriving {b : BlockId} {code : List Statement}
    (h : m.graph.Forward b code) :
    finalState host code (m.initialState host) ∈ m.arriving host b :=
  ⟨code, h, rfl⟩

/-- The paths that arrive at a block come from the blocks before it. -/
theorem mem_arriving_iff {visited rest : List BlockId} {b : BlockId} {s : State}
    (h : m.graph.reversePostorder = visited ++ b :: rest) : s ∈ m.arriving host b ↔
      (b = m.graph.entry ∧ s = m.initialState host) ∨
        (∃ a ∈ visited, (∃ block, m.graph.block? a = some block ∧ b ∈ block.successors) ∧
          s ∈ m.leaving host a) ∨
        s ∈ m.throwing host visited b := by
  constructor
  · intro hx
    obtain ⟨code, hf, rfl⟩ := hx
    cases hf with
    | start => exact .inl ⟨rfl, rfl⟩
    | edge ha hblock hb hlt =>
      rw [finalState_append]
      exact .inr (.inl ⟨_, (FlowGraph.before_iff_mem h).1 hlt, ⟨_, hblock, hb⟩, _, hblock, _,
        finalState_mem_arriving ha, rfl⟩)
    | thrown ha hblock hb hlt hran =>
      rw [finalState_append]
      exact .inr (.inr ⟨_, (FlowGraph.before_iff_mem h).1 hlt, hb, _, hblock, _,
        finalState_mem_arriving ha, _, hran, rfl⟩)
  · rintro (⟨rfl, rfl⟩ | ⟨a, ha, ⟨block, hblock, hb⟩, block', hblock', _, ⟨code, hc, rfl⟩, rfl⟩ |
      ⟨a, ha, hb, block, hblock, _, ⟨code, hc, rfl⟩, ran, hran, rfl⟩)
    · exact ⟨[], .start, rfl⟩
    · cases hblock.symm.trans hblock'
      have hf := FlowGraph.Forward.edge hc hblock hb ((FlowGraph.before_iff_mem h).2 ha)
      exact ⟨_, hf, (finalState_append ..).symm⟩
    · have hf := FlowGraph.Forward.thrown hc hblock hb ((FlowGraph.before_iff_mem h).2 ha) hran
      exact ⟨_, hf, (finalState_append ..).symm⟩

theorem arriving_nonempty : ∀ b ∈ m.graph.reversePostorder, (m.arriving host b).Nonempty := by
  refine FlowGraph.reversePostorder_induction (P := fun b => (m.arriving host b).Nonempty)
    ⟨_, finalState_mem_arriving .start⟩ ?_
  rintro a b hlt he ⟨_, code, hc, rfl⟩
  obtain ⟨block, hblock, hs | hh⟩ := FlowGraph.edge_iff.1 he
  · exact ⟨_, finalState_mem_arriving (.edge hc hblock hs hlt)⟩
  · exact ⟨_, finalState_mem_arriving (.thrown hc hblock hh hlt List.nil_prefix)⟩

theorem leaving_eq {b : BlockId} {block : BasicBlock} (hb : m.graph.block? b = some block) :
    m.leaving host b = finalState host block.statements '' m.arriving host b := by
  ext s
  constructor
  · intro h
    obtain ⟨block', hb', s₀, hs₀, rfl⟩ := h
    cases hb.symm.trans hb'
    exact ⟨s₀, hs₀, rfl⟩
  · intro h
    obtain ⟨s₀, hs₀, rfl⟩ := h
    exact ⟨block, hb, s₀, hs₀, rfl⟩

theorem mem_throwing_concat {b handler : BlockId} {block : BasicBlock} {before : List BlockId}
    {s : State} (hb : m.graph.block? b = some block) :
    s ∈ m.throwing host (before ++ [b]) handler ↔ s ∈ m.throwing host before handler ∨
      handler ∈ m.graph.handlers b ∧ ∃ s₀ ∈ m.arriving host b, ∃ ran, ran <+: block.statements ∧
        s = finalState host ran s₀ := by
  constructor
  · intro hx
    obtain ⟨a, ha, hh, block', hblock', hs⟩ := hx
    rcases List.mem_append.1 ha with ha | ha
    · exact .inl ⟨a, ha, hh, block', hblock', hs⟩
    · rw [List.mem_singleton] at ha
      subst ha
      cases hb.symm.trans hblock'
      exact .inr ⟨hh, hs⟩
  · intro hx
    rcases hx with ⟨a, ha, h⟩ | ⟨hh, hs⟩
    · exact ⟨a, List.mem_append_left _ ha, h⟩
    · exact ⟨b, List.mem_append_right _ List.mem_cons_self, hh, block, hb, hs⟩

theorem forward_mem {b : BlockId} {code : List Statement} (h : m.graph.Forward b code) :
    b ∈ m.graph.reversePostorder := by
  cases h with
  | start => exact m.graph.entry_mem_reversePostorder
  | edge _ _ _ hlt => exact hlt.right_mem
  | thrown _ _ _ hlt => exact hlt.right_mem

theorem Admits.append {code code' : List Statement} (h : m.Admits host code)
    (h' : m.Admits host code') : m.Admits host (code ++ code') := fun s hs =>
  (List.mem_append.1 hs).elim (h s) (h' s)

/-- Nothing along a forward path of a body that can be analyzed violates the contract. -/
theorem forward_admits (h : (m.pass host).Succeeds) {b : BlockId} {code : List Statement}
    (hf : m.graph.Forward b code) : m.Admits host code := by
  have hall := (pass_succeeds.1 h).2
  induction hf with
  | start => exact fun s hs => absurd hs List.not_mem_nil
  | @edge a b block code ha hblock _ _ ih =>
    obtain ⟨block', hb', hadmits⟩ := hall a (forward_mem ha)
    cases hblock.symm.trans hb'
    exact ih.append hadmits
  | @thrown a b block code ran ha hblock _ _ hran ih =>
    obtain ⟨block', hb', hadmits⟩ := hall a (forward_mem ha)
    cases hblock.symm.trans hb'
    exact ih.append fun s hs => hadmits s (hran.subset hs)

theorem forwardRun_admits (h : (m.pass host).Succeeds) {code : List Statement}
    (hr : m.graph.ForwardRun code) : m.Admits host code := by
  obtain ⟨b, before, hf, rfl | ⟨block, hblock, rfl⟩⟩ := hr
  · exact forward_admits h hf
  · obtain ⟨block', hb', hadmits⟩ := (pass_succeeds.1 h).2 b (forward_mem hf)
    cases hblock.symm.trans hb'
    exact (forward_admits h hf).append hadmits

end MethodBody

end CapabilityFlow
