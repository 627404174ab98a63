import CapabilityFlow.Proofs.Reachability

namespace CapabilityFlow

theorem Except.bind_eq_ok {ε α β : Type} {x : Except ε α} {f : α → Except ε β} {b : β} :
    x >>= f = .ok b ↔ ∃ a, x = .ok a ∧ f a = .ok b := by
  cases x with
  | error e => simp [bind, Except.bind]
  | ok a => simp [bind, Except.bind]

theorem Except.map_eq_ok {ε α β : Type} {x : Except ε α} {f : α → β} {b : β} :
    f <$> x = .ok b ↔ ∃ a, x = .ok a ∧ f a = b := by
  cases x with
  | error e => simp [Functor.map, Except.map]
  | ok a => simp [Functor.map, Except.map]

theorem Except.forM_eq_ok {ε α : Type} {f : α → Except ε Unit} {xs : List α} {u : Unit} :
    forM xs f = .ok u ↔ ∀ x ∈ xs, f x = .ok () := by
  induction xs with
  | nil => simp [pure, Except.pure]
  | cons x xs ih =>
    rw [List.forM_cons, bind_eq_ok, List.forall_mem_cons, ← ih]
    exact ⟨fun ⟨_, h, hs⟩ => ⟨h, hs⟩, fun ⟨h, hs⟩ => ⟨(), h, hs⟩⟩

theorem Except.guard_eq_ok {ε : Type} {p : Prop} [Decidable p] {e : ε} :
    (if p then pure () else throw e : Except ε Unit) = .ok () ↔ p := by
  by_cases h : p <;> simp [h, pure, Except.pure, throw, throwThe, MonadExceptOf.throw]

theorem Except.discard_eq_ok {ε α : Type} {x : Except ε α} :
    discard x = .ok () ↔ ∃ a, x = .ok a := by
  cases x with
  | error e => simp [discard, Functor.mapConst, Except.map]
  | ok a => simp [discard, Functor.mapConst, Except.map]

namespace FlowGraph

variable {g : FlowGraph}

theorem block_eq_ok {id : BlockId} {b : BasicBlock} :
    g.block id = .ok b ↔ g.block? id = some b := by
  unfold block
  split
  · rename_i c h
    simp [h]
  · rename_i h
    simp [h]

/-- A graph that can be analyzed. -/
structure WellFormed (g : FlowGraph) : Prop where
  entry : ∃ b, g.block? g.entry = some b
  ids : ∀ b ∈ g.blocks, ∃ c, g.block? b.id = some c
  successors : ∀ b ∈ g.blocks, ∀ s ∈ b.successors,
    ∃ c, g.block? s = some c ∧ b.id ∈ c.predecessors
  predecessors : ∀ b ∈ g.blocks, ∀ p ∈ b.predecessors,
    ∃ c, g.block? p = some c ∧ b.id ∈ c.successors
  handlers : ∀ r ∈ g.regions, ∃ b, g.block? r.handler = some b
  nonempty : ∀ r ∈ g.regions, r.protectedBlocks ≠ []
  protects : ∀ r ∈ g.regions, ∀ p ∈ r.protectedBlocks, ∃ b, g.block? p = some b

theorem validateBlock_eq_ok {b : BasicBlock} : g.validateBlock b = .ok () ↔
    (∃ c, g.block? b.id = some c) ∧
      (∀ s ∈ b.successors, ∃ c, g.block? s = some c ∧ b.id ∈ c.predecessors) ∧
      ∀ p ∈ b.predecessors, ∃ c, g.block? p = some c ∧ b.id ∈ c.successors := by
  simp only [validateBlock, List.forM_eq_forM, Except.bind_eq_ok, Except.forM_eq_ok, block_eq_ok,
    Except.guard_eq_ok]
  constructor
  · intro h
    obtain ⟨c, hc, _, hs, hp⟩ := h
    exact ⟨⟨c, hc⟩, hs, hp⟩
  · intro h
    obtain ⟨⟨c, hc⟩, hs, hp⟩ := h
    exact ⟨c, hc, (), hs, hp⟩

theorem validateRegion_eq_ok {r : Region} : g.validateRegion r = .ok () ↔
    (∃ b, g.block? r.handler = some b) ∧ r.protectedBlocks ≠ [] ∧
      ∀ p ∈ r.protectedBlocks, ∃ b, g.block? p = some b := by
  have hd : (∀ p ∈ r.protectedBlocks, discard (g.block p) = .ok ()) ↔
      ∀ p ∈ r.protectedBlocks, ∃ b, g.block? p = some b := by
    simp only [Except.discard_eq_ok, block_eq_ok]
  rw [validateRegion, Except.bind_eq_ok, List.forM_eq_forM]
  by_cases he : r.protectedBlocks = []
  · simp [he, throw, throwThe, MonadExceptOf.throw, bind, Except.bind]
  · simp only [List.isEmpty_iff, he, if_false, Except.forM_eq_ok, hd, block_eq_ok]
    exact ⟨fun ⟨b, hb, hp⟩ => ⟨⟨b, hb⟩, he, hp⟩, fun ⟨⟨b, hb⟩, _, hp⟩ => ⟨b, hb, hp⟩⟩

theorem validate_eq_ok : g.validate = .ok () ↔ g.WellFormed := by
  simp only [validate, List.forM_eq_forM, Except.bind_eq_ok, Except.forM_eq_ok, block_eq_ok,
    validateBlock_eq_ok, validateRegion_eq_ok]
  constructor
  · intro hx
    obtain ⟨b, hb, _, hbs, hrs⟩ := hx
    exact ⟨⟨b, hb⟩, fun b hb => (hbs b hb).1, fun b hb => (hbs b hb).2.1,
      fun b hb => (hbs b hb).2.2, fun r hr => (hrs r hr).1, fun r hr => (hrs r hr).2.1,
      fun r hr => (hrs r hr).2.2⟩
  · intro h
    obtain ⟨b, hb⟩ := h.entry
    exact ⟨b, hb, (), fun b hb => ⟨h.ids b hb, h.successors b hb, h.predecessors b hb⟩,
      fun r hr => ⟨h.handlers r hr, h.nonempty r hr, h.protects r hr⟩⟩

theorem WellFormed.exists_block (h : g.WellFormed) :
    ∀ b ∈ g.reversePostorder, ∃ block, g.block? b = some block := by
  refine reversePostorder_induction (P := fun b => ∃ block, g.block? b = some block) h.entry ?_
  intro a b _ he _
  obtain ⟨block, hb, hs | hh⟩ := edge_iff.1 he
  · obtain ⟨c, hc, -⟩ := h.successors block (mem_of_block? hb) b hs
    exact ⟨c, hc⟩
  · obtain ⟨r, hr, -, rfl⟩ := mem_handlers.1 hh
    exact h.handlers r hr

end FlowGraph

end CapabilityFlow
