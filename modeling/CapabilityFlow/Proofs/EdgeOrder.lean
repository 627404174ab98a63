import CapabilityFlow.Proofs.Lockstep
import CapabilityFlow.Proofs.PathDecomposition
import Mathlib.Data.List.Forall2
import Mathlib.Data.List.Perm.Basic

namespace CapabilityFlow

section Related

variable {α β : Type} {R : α → β → Prop}

theorem rel_of_forall₂ {xs : List α} {ys : List β} (h : xs.Forall₂ R ys) (i : Nat) :
    Option.Rel R xs[i]? ys[i]? := by
  induction h generalizing i with
  | nil => exact .none
  | cons hr _ ih =>
    cases i with
    | zero => exact .some hr
    | succ i => exact ih i

theorem exists_of_forall₂ {xs : List α} {ys : List β} (h : xs.Forall₂ R ys) :
    (∀ x ∈ xs, ∃ y ∈ ys, R x y) ∧ ∀ y ∈ ys, ∃ x ∈ xs, R x y := by
  induction h with
  | nil => simp
  | cons hr _ ih =>
    simp only [List.forall_mem_cons, List.exists_mem_cons_iff, hr, true_or, true_and]
    exact ⟨fun x hx => .inr (ih.1 x hx), fun y hy => .inr (ih.2 y hy)⟩

theorem exists_of_rel {x : Option α} {y : Option β} {a : α} (h : Option.Rel R x y)
    (hx : x = some a) : ∃ b, y = some b ∧ R a b := by
  subst hx
  cases h with
  | some hr => exact ⟨_, rfl, hr⟩

theorem rel_imp {S : α → β → Prop} {x : Option α} {y : Option β} (h : Option.Rel R x y)
    (hs : ∀ a b, R a b → S a b) : Option.Rel S x y := by
  cases h with
  | none => exact .none
  | some hr => exact .some (hs _ _ hr)

theorem rel_symm {S : β → α → Prop} {x : Option α} {y : Option β} (h : Option.Rel R x y)
    (hs : ∀ a b, R a b → S b a) : Option.Rel S y x := by
  cases h with
  | none => exact .none
  | some hr => exact .some (hs _ _ hr)

theorem rel_filter {p : α → Bool} {q : β → Bool} {x : Option α} {y : Option β}
    (h : Option.Rel R x y) (hp : ∀ a b, R a b → q b = p a) :
    Option.Rel R (x.filter p) (y.filter q) := by
  cases h with
  | none => exact .none
  | @some a b hr =>
    rw [Option.filter_some, Option.filter_some, hp a b hr]
    split
    · exact .some hr
    · exact .none

end Related

/-- Two blocks differ in the order of their edges only. -/
structure BasicBlock.Reorders (b b' : BasicBlock) : Prop where
  id_eq : b'.id = b.id
  statements_eq : b'.statements = b.statements
  predecessors : b.predecessors.Perm b'.predecessors
  successors : b.successors.Perm b'.successors

structure Region.Reorders (r r' : Region) : Prop where
  kind_eq : r'.kind = r.kind
  handler_eq : r'.handler = r.handler
  protectedBlocks : r.protectedBlocks.Perm r'.protectedBlocks

namespace FlowGraph

/-- Two graphs differ only in the order of the edges of a block, of the regions, and of the blocks
that a region protects. -/
structure Reorders (g g' : FlowGraph) : Prop where
  entry_eq : g'.entry = g.entry
  blocks : g.blocks.Forall₂ BasicBlock.Reorders g'.blocks
  regions : ∃ regions, g.regions.Forall₂ Region.Reorders regions ∧ regions.Perm g'.regions

/-- Two graphs run the same code along the same edges, in whatever order these are listed. -/
structure SameEdges (g g' : FlowGraph) : Prop where
  entry_eq : g'.entry = g.entry
  handlers a b : b ∈ g.handlers a ↔ b ∈ g'.handlers a
  block id : Option.Rel (fun b b' => b'.statements = b.statements ∧
    ∀ s, s ∈ b.successors ↔ s ∈ b'.successors) (g.block? id) (g'.block? id)

variable {g g' : FlowGraph}

namespace SameEdges

theorem symm (h : g.SameEdges g') : g'.SameEdges g where
  entry_eq := h.entry_eq.symm
  handlers a b := (h.handlers a b).symm
  block id := rel_symm (h.block id) fun _ _ hb => ⟨hb.1.symm, fun s => (hb.2 s).symm⟩

theorem exists_block (h : g.SameEdges g') {id : BlockId} {b : BasicBlock}
    (hb : g.block? id = some b) : ∃ b', g'.block? id = some b' ∧ b'.statements = b.statements ∧
      ∀ s, s ∈ b.successors ↔ s ∈ b'.successors :=
  exists_of_rel (h.block id) hb

theorem edge (h : g.SameEdges g') {a b : BlockId} (he : g.Edge a b) : g'.Edge a b := by
  obtain ⟨block, hblock, hs⟩ := edge_iff.1 he
  obtain ⟨block', hblock', -, hs'⟩ := h.exists_block hblock
  exact edge_iff.2 ⟨block', hblock', hs.imp (hs' b).1 (h.handlers a b).1⟩

theorem edge_eq (h : g.SameEdges g') : g'.Edge = g.Edge := by
  funext a b
  exact propext ⟨h.symm.edge, h.edge⟩

theorem mem_reversePostorder (h : g.SameEdges g') {b : BlockId} :
    b ∈ g'.reversePostorder ↔ b ∈ g.reversePostorder := by
  rw [mem_reversePostorder_iff, mem_reversePostorder_iff, Reaches, Reaches, h.edge_eq, h.entry_eq]

theorem acyclic (h : g.SameEdges g') (ha : g.Acyclic) : g'.Acyclic := by
  unfold Acyclic Reaches
  rw [h.edge_eq, h.entry_eq]
  exact ha

theorem forward (h : g.SameEdges g') (ha : g'.Acyclic) {b : BlockId} {code : List Statement}
    (hf : g.Forward b code) : g'.Forward b code := by
  -- the blocks may be visited in another order, but without cycles every edge goes forward in it
  have hbefore : ∀ {a b : BlockId}, g.Before a b → g.Edge a b → g'.Before a b := fun hlt he =>
    ha.before (h.mem_reversePostorder.2 (hlt.subset List.mem_cons_self)) (h.edge he)
  induction hf with
  | start => exact h.entry_eq ▸ .start
  | @edge a b block code _ hblock hb hlt ih =>
    obtain ⟨block', hblock', hcode, hs⟩ := h.exists_block hblock
    have he : g.Edge a b := edge_iff.2 ⟨block, hblock, .inl hb⟩
    exact hcode ▸ .edge ih hblock' ((hs b).1 hb) (hbefore hlt he)
  | @thrown a b block code ran _ hblock hb hlt hran ih =>
    obtain ⟨block', hblock', hcode, -⟩ := h.exists_block hblock
    have he : g.Edge a b := edge_iff.2 ⟨block, hblock, .inr hb⟩
    exact .thrown ih hblock' ((h.handlers a b).1 hb) (hbefore hlt he) (hcode ▸ hran)

theorem forward_iff (h : g.SameEdges g') (ha : g.Acyclic) {b : BlockId} {code : List Statement} :
    g'.Forward b code ↔ g.Forward b code :=
  ⟨h.symm.forward ha, h.forward (h.acyclic ha)⟩

end SameEdges

namespace Reorders

theorem block? (h : g.Reorders g') (id : BlockId) :
    Option.Rel BasicBlock.Reorders (g.block? id) (g'.block? id) := by
  refine rel_filter (rel_of_forall₂ h.blocks id.index.toNat) fun b b' hb => ?_
  rw [hb.id_eq]

theorem exists_region (h : g.Reorders g') :
    (∀ r ∈ g.regions, ∃ r' ∈ g'.regions, r.Reorders r') ∧
      ∀ r' ∈ g'.regions, ∃ r ∈ g.regions, r.Reorders r' := by
  obtain ⟨regions, hr, hp⟩ := h.regions
  obtain ⟨hl, hr⟩ := exists_of_forall₂ hr
  constructor
  · intro r hm
    obtain ⟨r', hm', hr'⟩ := hl r hm
    exact ⟨r', hp.mem_iff.1 hm', hr'⟩
  · intro r' hm'
    exact hr r' (hp.mem_iff.2 hm')

theorem statements_eq (h : g.Reorders g') : g'.statements = g.statements := by
  have hb := h.blocks
  unfold statements
  generalize g.blocks = blocks, g'.blocks = blocks' at hb
  induction hb with
  | nil => rfl
  | cons hr _ ih => rw [List.flatMap_cons, List.flatMap_cons, ih, hr.statements_eq]

theorem sameEdges (h : g.Reorders g') : g.SameEdges g' where
  entry_eq := h.entry_eq
  handlers a b := by
    rw [mem_handlers, mem_handlers]
    constructor
    · intro hx
      obtain ⟨r, hr, ha, rfl⟩ := hx
      obtain ⟨r', hr', hrr⟩ := h.exists_region.1 r hr
      exact ⟨r', hr', hrr.protectedBlocks.mem_iff.1 ha, hrr.handler_eq⟩
    · intro hx
      obtain ⟨r', hr', ha, rfl⟩ := hx
      obtain ⟨r, hr, hrr⟩ := h.exists_region.2 r' hr'
      exact ⟨r, hr, hrr.protectedBlocks.mem_iff.2 ha, hrr.handler_eq.symm⟩
  block id := rel_imp (h.block? id) fun _ _ hb => ⟨hb.statements_eq, fun _ => hb.successors.mem_iff⟩

theorem wellFormed (h : g.Reorders g') (hw : g.WellFormed) : g'.WellFormed := by
  have hblock : ∀ {id b}, g.block? id = some b → ∃ b', g'.block? id = some b' ∧ b.Reorders b' :=
    fun hb => exists_of_rel (h.block? _) hb
  have hexists : ∀ {id}, (∃ b, g.block? id = some b) → ∃ b', g'.block? id = some b' := by
    rintro id ⟨b, hb⟩
    obtain ⟨b', hb', -⟩ := hblock hb
    exact ⟨b', hb'⟩
  obtain ⟨-, hblocks⟩ := exists_of_forall₂ h.blocks
  obtain ⟨-, hregions⟩ := h.exists_region
  constructor
  · exact h.entry_eq ▸ hexists hw.entry
  · intro b' hb'
    obtain ⟨b, hb, hr⟩ := hblocks b' hb'
    exact hr.id_eq ▸ hexists (hw.ids b hb)
  · intro b' hb' s hs
    obtain ⟨b, hb, hr⟩ := hblocks b' hb'
    obtain ⟨c, hc, hp⟩ := hw.successors b hb s (hr.successors.mem_iff.2 hs)
    obtain ⟨c', hc', hcr⟩ := hblock hc
    exact ⟨c', hc', hr.id_eq ▸ hcr.predecessors.mem_iff.1 hp⟩
  · intro b' hb' p hp
    obtain ⟨b, hb, hr⟩ := hblocks b' hb'
    obtain ⟨c, hc, hs⟩ := hw.predecessors b hb p (hr.predecessors.mem_iff.2 hp)
    obtain ⟨c', hc', hcr⟩ := hblock hc
    exact ⟨c', hc', hr.id_eq ▸ hcr.successors.mem_iff.1 hs⟩
  · intro r' hr'
    obtain ⟨r, hm, hr⟩ := hregions r' hr'
    exact hr.handler_eq ▸ hexists (hw.handlers r hm)
  · intro r' hr' he
    obtain ⟨r, hm, hr⟩ := hregions r' hr'
    exact hw.nonempty r hm (he ▸ hr.protectedBlocks).eq_nil
  · intro r' hr' p hp
    obtain ⟨r, hm, hr⟩ := hregions r' hr'
    exact hexists (hw.protects r hm p (hr.protectedBlocks.mem_iff.2 hp))

end Reorders

end FlowGraph

section Same

variable {m : MethodBody} {host : Host} {s s' : State}

theorem SlotState.Same.values_perm (h : s.Same s') (o : Operand) :
    (o.values host s).toList.Perm (o.values host s').toList := by
  have hc : s.Collects {s'} := SlotState.collects_singleton.2 h
  refine ValueSet.toList_perm_iff.2 fun v => ?_
  rw [mem_values_join hc.isJoin (Set.singleton_nonempty s') o]
  simp only [Set.mem_singleton_iff, exists_eq_left]

theorem SlotState.Same.effect (h : s.Same s') (statement : Statement) :
    (statement.effect host s).Same (statement.effect host s') := by
  have hc : s.Collects {s'} := SlotState.collects_singleton.2 h
  have he : (statement.effect host s).Collects (statement.effect host '' {s'}) :=
    collects_effect hc (Set.singleton_nonempty s') statement
  rwa [Set.image_singleton, SlotState.collects_singleton] at he

/-- Straight-line code reports and marks the same from states that say the same, each as often. -/
theorem SlotState.Same.trace_perm (h : s.Same s') (code : List Statement) :
    (trace m host code s).Perm (trace m host code s') := by
  induction code generalizing s s' with
  | nil => exact .nil
  | cons statement code ih =>
    refine List.Perm.append ?_ (ih (h.effect statement))
    refine List.Perm.flatMap_left _ fun d _ => ?_
    -- only a flow looks at the state; its values come in another order
    cases d with
    | access slot => exact .refl _
    | instantiate i => exact .refl _
    | flow place source =>
      simp only [Demand.check, Host.enforce, Check.emit, Requirement.enforce]
      split
      · exact .nil
      · exact (h.values_perm source).flatMap_right _

end Same

namespace Pass

variable {m : MethodBody} {host : Host} {p q : Pass}

def blockEvents (q : Pass) (m : MethodBody) (host : Host) (b : BlockId) : List Event :=
  match m.graph.block? b, q.entryStates.get? b with
  | some block, some state => trace m host block.statements state
  | _, _ => []

theorem blockEvents_eq {b : BlockId} {block : BasicBlock} {state : State}
    (hb : m.graph.block? b = some block) (hs : q.entryStates.get? b = some state) :
    q.blockEvents m host b = trace m host block.statements state := by
  rw [blockEvents, hb, hs]

theorem entryStates_visitAll {ids : List BlockId} {b : BlockId} (hb : b ∉ ids)
    (hq : (visitAll m host ids p).outcome = .ok q) :
    q.entryStates.get? b = p.entryStates.get? b := by
  induction ids generalizing p with
  | nil =>
    cases hq
    rfl
  | cons id ids ih =>
    obtain ⟨⟨block, hblock, ha⟩, -⟩ := List.forall_mem_cons.1 (visitAll_succeeds.1 ⟨q, hq⟩)
    rw [List.mem_cons, not_or] at hb
    rw [visitAll_cons hblock ha] at hq
    rw [ih hb.2 hq, afterVisit, OrderedMap.get?_insert, FlowGraph.id_of_block? hblock,
      if_neg (Ne.symm hb.1)]

/-- The events of a pass are those of its blocks, in the order of the visits. -/
theorem events_visitAll {ids : List BlockId} (hn : ids.Nodup)
    (hq : (visitAll m host ids p).outcome = .ok q) :
    (visitAll m host ids p).events = ids.flatMap (q.blockEvents m host) := by
  induction ids generalizing p with
  | nil => rfl
  | cons id ids ih =>
    obtain ⟨⟨block, hblock, ha⟩, -⟩ := List.forall_mem_cons.1 (visitAll_succeeds.1 ⟨q, hq⟩)
    obtain ⟨hid, hn⟩ := List.nodup_cons.1 hn
    rw [visitAll_cons hblock ha] at hq ⊢
    have he : q.entryStates.get? id = some (p.entryState m host block) := by
      rw [entryStates_visitAll hid hq, afterVisit, OrderedMap.get?_insert,
        FlowGraph.id_of_block? hblock, if_pos rfl]
    rw [List.flatMap_cons, ← ih hn hq, blockEvents_eq hblock he]

/-- What two passes know of their blocks is equal at both ends of each. -/
structure Agrees (p q : Pass) : Prop where
  entry b : Option.Rel (fun s s' => (s == s') = true) (p.entryStates.get? b) (q.entryStates.get? b)
  exit b : Option.Rel (fun s s' => (s == s') = true) (p.exitStates.get? b) (q.exitStates.get? b)

theorem rel_of_collects {known known' : OrderedMap BlockId State} {states : BlockId → Set State}
    (hk : ∀ b, b ∈ known.entries.map Prod.fst ↔ b ∈ known'.entries.map Prod.fst)
    (h : ∀ b s, known.get? b = some s → s.Collects (states b))
    (h' : ∀ b s, known'.get? b = some s → s.Collects (states b)) (b : BlockId) :
    Option.Rel (fun s s' => (s == s') = true) (known.get? b) (known'.get? b) := by
  cases hs : known.get? b with
  | none =>
    have hs' : known'.get? b = none :=
      Bindings.get?_eq_none.2 (mt (hk b).2 (Bindings.get?_eq_none.1 hs))
    rw [hs']
    exact .none
  | some s =>
    obtain ⟨s', hs'⟩ := mem_keys_iff.1 ((hk b).1 (mem_keys_iff.2 ⟨s, hs⟩))
    rw [hs']
    exact .some (SlotState.beq_iff_same.2 ((h b s hs).same (h' b s' hs')))

end Pass

namespace MethodBody

variable {m : MethodBody} {host : Host} {g : FlowGraph} {options : Options}

theorem admits_withGraph {code : List Statement} :
    (m.withGraph g).Admits host code ↔ m.Admits host code := by
  have hs : ((m.withGraph g).steps host code ∅).Succeeds ↔ (m.withGraph g).Admits host code :=
    steps_succeeds
  rw [← hs, steps_withGraph, steps_succeeds]

theorem trace_withGraph (code : List Statement) (state : State) :
    trace (m.withGraph g) host code state = trace m host code state := by
  induction code generalizing state with
  | nil => rfl
  | cons statement code ih => simp only [trace, Statement.events, check_withGraph, ih]; rfl

theorem events_pass {p : Pass} (hp : (m.pass host).outcome = .ok p) :
    (m.pass host).events = m.graph.reversePostorder.flatMap (p.blockEvents m host) := by
  have hw : m.graph.WellFormed := (pass_succeeds.1 ⟨p, hp⟩).1
  rw [pass_of_wellFormed hw] at hp ⊢
  exact Pass.events_visitAll m.graph.nodup_reversePostorder hp

section SameEdges

variable (h : m.graph.SameEdges g) (ha : m.graph.Acyclic)
include h ha

theorem arriving_withGraph (b : BlockId) : (m.withGraph g).arriving host b = m.arriving host b := by
  ext s
  exact exists_congr fun code => and_congr_left fun _ => h.forward_iff ha

theorem leaving_withGraph (b : BlockId) : (m.withGraph g).leaving host b = m.leaving host b := by
  ext s
  constructor
  · intro hx
    obtain ⟨block', hb', s₀, hs₀, rfl⟩ := hx
    obtain ⟨block, hb, hcode, -⟩ := h.symm.exists_block hb'
    exact ⟨block, hb, s₀, arriving_withGraph h ha b ▸ hs₀, by rw [hcode]⟩
  · intro hx
    obtain ⟨block, hb, s₀, hs₀, rfl⟩ := hx
    obtain ⟨block', hb', hcode, -⟩ := h.exists_block hb
    exact ⟨block', hb', s₀, (arriving_withGraph h ha b).symm ▸ hs₀, by rw [hcode]⟩

theorem agrees_of_sameEdges {p q : Pass} (hp : (m.pass host).outcome = .ok p)
    (hq : ((m.withGraph g).pass host).outcome = .ok q) : p.Agrees q := by
  obtain ⟨hp, -⟩ := pass_exact hp
  obtain ⟨hq, -⟩ := pass_exact hq
  constructor
  · refine Pass.rel_of_collects (fun b => ?_) hp.entry_collects fun b s hs => ?_
    · rw [hp.entry_keys, hq.entry_keys]
      exact h.mem_reversePostorder.symm
    · exact arriving_withGraph h ha b ▸ hq.entry_collects b s hs
  · refine Pass.rel_of_collects (fun b => ?_) hp.exit_collects fun b s hs => ?_
    · rw [hp.exit_keys, hq.exit_keys]
      exact h.mem_reversePostorder.symm
    · exact leaving_withGraph h ha b ▸ hq.exit_collects b s hs

theorem events_perm_of_sameEdges (hm : (m.pass host).Succeeds)
    (hg : ((m.withGraph g).pass host).Succeeds) :
    (m.pass host).events.Perm ((m.withGraph g).pass host).events := by
  obtain ⟨p, hp⟩ := hm
  obtain ⟨q, hq⟩ := hg
  have hagree := agrees_of_sameEdges h ha hp hq
  rw [events_pass hp, events_pass hq]
  have horder : m.graph.reversePostorder.Perm g.reversePostorder :=
    (List.perm_ext_iff_of_nodup m.graph.nodup_reversePostorder g.nodup_reversePostorder).2
      fun _ => h.mem_reversePostorder.symm
  refine horder.flatMap fun b hb => ?_
  obtain ⟨block, hblock⟩ := (pass_succeeds.1 ⟨p, hp⟩).1.exists_block b hb
  obtain ⟨block', hblock', hcode, -⟩ := h.exists_block hblock
  obtain ⟨s, hs⟩ := Pass.mem_keys_iff.1 ((pass_exact hp).1.entry_keys ▸ hb : b ∈ _)
  obtain ⟨s', hs', he⟩ := exists_of_rel (hagree.entry b) hs
  rw [Pass.blockEvents_eq hblock hs, Pass.blockEvents_eq (m := m.withGraph g) hblock' hs', hcode,
    trace_withGraph]
  exact (SlotState.beq_iff_same.1 he).trace_perm block.statements

end SameEdges

theorem succeeds_of_sameEdges (h : m.graph.SameEdges g) (hw : g.WellFormed)
    (hm : (m.pass host).Succeeds) : ((m.withGraph g).pass host).Succeeds := by
  refine pass_succeeds.2 ⟨hw, fun b hb => ?_⟩
  obtain ⟨block, hblock, hadmits⟩ := (pass_succeeds.1 hm).2 b (h.mem_reversePostorder.1 hb)
  obtain ⟨block', hblock', hcode, -⟩ := h.exists_block hblock
  exact ⟨block', hblock', admits_withGraph.2 (hcode ▸ hadmits)⟩

theorem exemption?_of_reorders (h : m.graph.Reorders g) :
    (m.withGraph g).exemption? host options = m.exemption? host options := by
  have hg : (m.withGraph g).isGenerated = m.isGenerated := by
    rw [isGenerated, isGenerated, graph_withGraph, h.statements_eq]
  rw [exemption?, exemption?, hg]
  rfl

/-- The order in which edges, regions and protected blocks are listed has no part in an analysis of
a body without cycles: it succeeds or fails all the same, the states at the ends of the blocks are
equal, and the same is reported and marked, each as often. -/
theorem analyze_of_reorders (h : m.graph.Reorders g) (hv : m.graph.validate = .ok ())
    (ha : m.graph.Acyclic) :
    ((∃ ds, (m.analyze host options).result = .ok ds) ↔
      ∃ ds, ((m.withGraph g).analyze host options).result = .ok ds) ∧
    (∀ ds ds', (m.analyze host options).result = .ok ds →
      ((m.withGraph g).analyze host options).result = .ok ds' → ds.Perm ds') ∧
    (∀ ds, (m.analyze host options).result = .ok ds →
      (m.analyze host options).marks.Perm ((m.withGraph g).analyze host options).marks) ∧
    ((m.pass host).Succeeds ↔ ((m.withGraph g).pass host).Succeeds) ∧
    ∀ p q, (m.pass host).outcome = .ok p → ((m.withGraph g).pass host).outcome = .ok q →
      p.Agrees q := by
  have he : m.graph.SameEdges g := h.sameEdges
  have hw : m.graph.WellFormed := FlowGraph.validate_eq_ok.1 hv
  have hs : (m.pass host).Succeeds ↔ ((m.withGraph g).pass host).Succeeds :=
    ⟨succeeds_of_sameEdges he (h.wellFormed hw), succeeds_of_sameEdges he.symm hw⟩
  have hagree : ∀ p q, (m.pass host).outcome = .ok p →
      ((m.withGraph g).pass host).outcome = .ok q → p.Agrees q :=
    fun p q => agrees_of_sameEdges he ha
  have hx : (m.withGraph g).exemption? host options = m.exemption? host options :=
    exemption?_of_reorders h
  cases hm : m.exemption? host options with
  | some reason =>
    rw [analyze_of_exempt hm, analyze_of_exempt (hx.trans hm)]
    refine ⟨Iff.rfl, fun ds ds' hd hd' => ?_, fun _ _ => .refl [], hs, hagree⟩
    cases hd
    cases hd'
    exact .refl []
  | none =>
    have hp : (m.pass host).Succeeds →
        (m.pass host).events.Perm ((m.withGraph g).pass host).events :=
      fun hsucc => events_perm_of_sameEdges he ha hsucc (hs.1 hsucc)
    simp only [analyze_eq_ok hm, analyze_eq_ok (hx.trans hm)]
    rw [analyze_of_not_exempt hm, analyze_of_not_exempt (hx.trans hm)]
    refine ⟨?_, ?_, ?_, hs, hagree⟩
    · simpa using hs
    · rintro ds ds' ⟨hsucc, rfl⟩ ⟨-, rfl⟩
      exact (hp hsucc).filterMap Event.diagnostic?
    · rintro ds ⟨hsucc, -⟩
      exact (hp hsucc).filterMap Event.mark?

def branching (order : {α : Type} → List α → List α) : MethodBody where
  method := "Branch()"
  graph :=
    { blocks :=
        [{ id := ⟨0⟩, successors := order [⟨1⟩, ⟨2⟩] },
          { id := ⟨1⟩, predecessors := [⟨0⟩], successors := [⟨3⟩]
            statements := [⟨.assign (.localVar 0) (.typeOf "Widget"), {}⟩,
              ⟨.assign (.localVar 0) (.invoke "Left()" none [] []), {}⟩] },
          { id := ⟨2⟩, predecessors := [⟨0⟩], successors := [⟨3⟩]
            statements := [⟨.assign (.localVar 0) (.invoke "Right()" none [] []), {}⟩] },
          { id := ⟨3⟩, predecessors := order [⟨1⟩, ⟨2⟩]
            statements := [⟨.evaluate (.invoke "Sink(Type)" none [.read (.localVar 0)] []), {}⟩] },
          { id := ⟨4⟩
            statements := [⟨.evaluate (.invoke "Sink(Type)" none [.read (.localVar 0)] []), {}⟩] },
          { id := ⟨5⟩ }]
      regions := order [⟨.caught, order [⟨1⟩, ⟨2⟩], ⟨4⟩⟩, ⟨.ensured, [⟨2⟩], ⟨5⟩⟩] }

def branchMismatch (call : String) : Diagnostic :=
  ⟨.mismatch .returnValue .parameter, ["type", "Sink(Type)", call, "PublicMethods"], {}⟩

theorem reorders_branching :
    (branching (fun xs => xs)).graph.Reorders (branching List.reverse).graph where
  entry_eq := rfl
  blocks := by
    refine .cons ⟨rfl, rfl, .refl _, ?_⟩ <| .cons ⟨rfl, rfl, .refl _, .refl _⟩ <|
      .cons ⟨rfl, rfl, .refl _, .refl _⟩ <| .cons ⟨rfl, rfl, ?_, .refl _⟩ <|
      .cons ⟨rfl, rfl, .refl _, .refl _⟩ <| .cons ⟨rfl, rfl, .refl _, .refl _⟩ .nil
    all_goals exact (List.reverse_perm _).symm
  regions := ⟨[⟨.caught, [⟨2⟩, ⟨1⟩], ⟨4⟩⟩, ⟨.ensured, [⟨2⟩], ⟨5⟩⟩],
    .cons ⟨rfl, rfl, (List.reverse_perm [_, _]).symm⟩ (.cons ⟨rfl, rfl, .refl _⟩ .nil),
    (List.reverse_perm _).symm⟩

theorem analyze_branching_reversed :
    (branching (fun xs => xs)).graph.validate = .ok () ∧
    (branching (fun xs => xs)).graph.Acyclic ∧
    (branching (fun xs => xs)).graph.Reorders (branching List.reverse).graph ∧
    ∃ ds ds', ((branching (fun xs => xs)).analyze sinkTable.host {}).result = .ok ds ∧
      ((branching List.reverse).analyze sinkTable.host {}).result = .ok ds' ∧
      ds ≠ ds' ∧ ds.Perm ds' := by
  have hv : (branching (fun xs => xs)).graph.validate = .ok () := by decide +kernel
  have ha : (branching (fun xs => xs)).graph.Acyclic :=
    FlowGraph.acyclic_of_ascending (by decide) (by decide)
  have hd : ((branching (fun xs => xs)).analyze sinkTable.host {}).result =
      .ok (["Right()", "Left()", "Left()", "Right()"].map branchMismatch) := by
    decide +kernel
  have hd' : ((branching List.reverse).analyze sinkTable.host {}).result =
      .ok (["Left()", "Right()", "Right()", "Left()"].map branchMismatch) := by
    decide +kernel
  obtain ⟨-, hp, -⟩ := analyze_of_reorders reorders_branching hv ha
  exact ⟨hv, ha, reorders_branching, _, _, hd, hd', by decide, hp _ _ hd hd'⟩

end MethodBody

end CapabilityFlow
