import CapabilityFlow.Proofs.TraversalOrder
import CapabilityFlow.Proofs.Violations

namespace CapabilityFlow

/-- The second list is the first one without some elements that have a property. -/
inductive Thinned {α : Type} (P : α → Prop) : List α → List α → Prop
  | nil : Thinned P [] []
  | keep (x : α) {xs ys : List α} : Thinned P xs ys → Thinned P (x :: xs) (x :: ys)
  | drop {x : α} {xs ys : List α} : P x → Thinned P xs ys → Thinned P (x :: xs) ys

namespace Thinned

variable {α : Type} {P : α → Prop} {xs ys xs' ys' : List α}

theorem refl : ∀ xs : List α, Thinned P xs xs
  | [] => .nil
  | x :: xs => .keep x (refl xs)

theorem filter {p : α → Bool} (h : ∀ x, p x = false → P x) (xs : List α) :
    Thinned P xs (xs.filter p) := by
  induction xs with
  | nil => exact .nil
  | cons x xs ih =>
    cases hx : p x with
    | false =>
      rw [List.filter_cons_of_neg (by simp [hx])]
      exact .drop (h x hx) ih
    | true =>
      rw [List.filter_cons_of_pos hx]
      exact .keep x ih

theorem append (h : Thinned P xs ys) (h' : Thinned P xs' ys') :
    Thinned P (xs ++ xs') (ys ++ ys') := by
  induction h with
  | nil => exact h'
  | keep x _ ih => exact .keep x ih
  | drop hx _ ih => exact .drop hx ih

theorem subset (h : Thinned P xs ys) : ys ⊆ xs := by
  induction h with
  | nil => exact List.Subset.refl []
  | keep x _ ih => exact List.cons_subset_cons x ih
  | drop _ _ ih => exact fun y hy => List.mem_cons_of_mem _ (ih hy)

theorem filterMap_eq {β : Type} {f : α → Option β} (h : Thinned P xs ys)
    (hf : ∀ x, P x → f x = none) : ys.filterMap f = xs.filterMap f := by
  induction h with
  | nil => rfl
  | keep x _ ih => rw [List.filterMap_cons, List.filterMap_cons, ih]
  | drop hx _ ih => rw [List.filterMap_cons, hf _ hx, ih]

end Thinned

namespace FlowGraph

variable {g g' : FlowGraph}

def ThinnedFrame (g : FlowGraph) (f f' : Frame) : Prop :=
  f'.block = f.block ∧ Thinned (¬ g.Before f.block ·) f.untried f'.untried

/-- The traversal takes no notice of edges that do not go forward: when it tries one, the target is
found already, for a target that is still to be found comes before its source is left. -/
theorem leave_thinned (hg : ∀ b, Thinned (¬ g.Before b ·) (g.outgoing b) (g'.outgoing b))
    {unfound unfound' : List BlockId} {stack stack' : List Frame}
    (hs : g'.Suspended unfound' stack') (hr : stack.Forall₂ g.ThinnedFrame stack')
    (hsub : (g.leave unfound stack).Sublist g.postorder)
    (hu : ∀ a s, g'.Edge a s → (s ∈ unfound' ↔ s ∈ unfound)) :
    g'.leave unfound' stack' = g.leave unfound stack := by
  induction unfound, stack using leave.induct g generalizing unfound' stack' with
  | case1 unfound =>
    cases hr
    rw [leave, leave]
  | case2 unfound b stack ih =>
    cases hr with
    | @cons _ f' _ stack' hf hr =>
      obtain ⟨b', untried'⟩ := f'
      obtain ⟨rfl, ht⟩ := hf
      cases ht
      rw [leave_pop] at hsub
      rw [leave_pop, leave_pop, ih hs.pop hr ((List.sublist_cons_self _ _).trans hsub) hu]
  | case3 unfound b s untried stack hf ih =>
    cases hr with
    | @cons _ f' _ stack' hb hr =>
      obtain ⟨b', untried'⟩ := f'
      obtain ⟨rfl, ht⟩ := hb
      rw [leave_push hf] at hsub
      cases ht with
      | keep _ ht =>
        have hf' : s ∈ unfound' :=
          (hu _ s (hs.edges _ List.mem_cons_self s List.mem_cons_self)).2 hf
        have hu' : ∀ a t, g'.Edge a t → (t ∈ others s unfound' ↔ t ∈ others s unfound) := by
          intro a t he
          rw [mem_others, mem_others, hu a t he]
        rw [leave_push hf, leave_push hf']
        exact ih (hs.push hf') (.cons ⟨rfl, hg s⟩ (.cons ⟨rfl, ht⟩ hr)) hsub hu'
      | drop hn _ =>
        have hp := blocks_sublist_leave g (others s unfound)
          (⟨s, g.outgoing s⟩ :: ⟨b', untried⟩ :: stack)
        have hb : [s, b'].Sublist g.postorder :=
          (((List.nil_sublist _).cons_cons b').cons_cons s).trans (hp.trans hsub)
        exact absurd (List.reverse_sublist.2 hb) hn
  | case4 unfound b s untried stack hf ih =>
    cases hr with
    | @cons _ f' _ stack' hb hr =>
      obtain ⟨b', untried'⟩ := f'
      obtain ⟨rfl, ht⟩ := hb
      rw [leave_skip hf] at hsub ⊢
      cases ht with
      | keep _ ht =>
        have hf' : s ∉ unfound' :=
          mt (hu _ s (hs.edges _ List.mem_cons_self s List.mem_cons_self)).1 hf
        rw [leave_skip hf']
        exact ih hs.skip (.cons ⟨rfl, ht⟩ hr) hsub hu
      | drop _ ht => exact ih hs (.cons ⟨rfl, ht⟩ hr) hsub hu

theorem reversePostorder_thinned (he : g'.entry = g.entry)
    (hg : ∀ b, Thinned (¬ g.Before b ·) (g.outgoing b) (g'.outgoing b)) :
    g'.reversePostorder = g.reversePostorder := by
  have hu : ∀ a s, g'.Edge a s → (s ∈ others g'.entry g'.ids ↔ s ∈ others g.entry g.ids) := by
    intro a s hs
    have hs' : g.Edge a s := (hg a).subset hs
    simp only [mem_others, hs.mem_ids, hs'.mem_ids, he]
  have hr : List.Forall₂ g.ThinnedFrame [⟨g.entry, g.outgoing g.entry⟩]
      [⟨g'.entry, g'.outgoing g'.entry⟩] :=
    .cons ⟨he, he ▸ hg g.entry⟩ .nil
  have hl := leave_thinned hg (suspended_start g') hr (List.Sublist.refl _) hu
  exact congrArg List.reverse hl

end FlowGraph

namespace FlowGraph

variable {g : FlowGraph} {f : BasicBlock → BasicBlock}

def mapBlocks (g : FlowGraph) (f : BasicBlock → BasicBlock) : FlowGraph :=
  { g with blocks := g.blocks.map f }

@[simp] theorem blocks_mapBlocks : (g.mapBlocks f).blocks = g.blocks.map f := rfl

theorem block?_mapBlocks (hf : ∀ b, (f b).id = b.id) (id : BlockId) :
    (g.mapBlocks f).block? id = (g.block? id).map f := by
  have hp : ((fun b : BasicBlock => decide (b.id = id)) ∘ f) = fun b => decide (b.id = id) := by
    funext b
    rw [Function.comp_apply, hf]
  rw [block?, block?, blocks_mapBlocks, List.getElem?_map, Option.filter_map, hp]

end FlowGraph

namespace MethodBody

def withGraph (m : MethodBody) (g : FlowGraph) : MethodBody := { m with graph := g }

variable {m : MethodBody} {host : Host} {g : FlowGraph}

@[simp] theorem graph_withGraph : (m.withGraph g).graph = g := rfl

@[simp] theorem initialState_withGraph : (m.withGraph g).initialState host = m.initialState host :=
  rfl

theorem check_withGraph (location : Location) (state : State) (d : Demand) :
    d.check (m.withGraph g) host location state = d.check m host location state := by
  cases d <;> rfl

theorem checkDemands_withGraph (location : Location) (state : State) (ds : List Demand) :
    (m.withGraph g).checkDemands host location state ds =
      m.checkDemands host location state ds := by
  have hd : Demand.check (m.withGraph g) host location state =
      Demand.check m host location state := funext (check_withGraph location state)
  rw [checkDemands, checkDemands, hd]

theorem step_withGraph (statement : Statement) (state : State) :
    (m.withGraph g).step host statement state = m.step host statement state := by
  rw [step_eq, step_eq, checkDemands_withGraph]
  rfl

theorem steps_withGraph (code : List Statement) (state : State) :
    (m.withGraph g).steps host code state = m.steps host code state := by
  induction code generalizing state with
  | nil => rfl
  | cons statement code ih => simp only [steps, step_withGraph, ih]

/-- Another graph whose visited blocks do the same as those of a body, and whose edges are the same
but for some that do not go forward. -/
structure Lockstep (m : MethodBody) (host : Host) (g : FlowGraph) : Prop where
  entry_eq : g.entry = m.graph.entry
  handlers_eq id : g.handlers id = m.graph.handlers id
  absent id : m.graph.block? id = none → g.block? id = none
  present id block : m.graph.block? id = some block → ∃ block', g.block? id = some block' ∧
    Thinned (¬ m.graph.Before id ·) block.successors block'.successors ∧
    Thinned (¬ m.graph.Before · id) block.predecessors block'.predecessors ∧
    (id ∈ m.graph.reversePostorder →
      ∀ state, m.steps host block'.statements state = m.steps host block.statements state)

theorem Lockstep.reversePostorder_eq (h : m.Lockstep host g) :
    g.reversePostorder = m.graph.reversePostorder := by
  refine FlowGraph.reversePostorder_thinned h.entry_eq fun id => ?_
  unfold FlowGraph.outgoing
  cases hb : m.graph.block? id with
  | none =>
    rw [h.absent id hb]
    exact .nil
  | some block =>
    obtain ⟨block', hb', hs, _, _⟩ := h.present id block hb
    rw [hb', h.handlers_eq id]
    exact hs.append (.refl _)

end MethodBody

namespace Pass

variable {m : MethodBody} {host : Host} {g : FlowGraph} {p q : Pass}

theorem exitStates_visit {block : BasicBlock} (h : (p.visit m host block).outcome = .ok q) :
    ∃ state, q.exitStates = p.exitStates.insert block.id state := by
  obtain ⟨after, _, hq⟩ := Check.outcome_andThen_eq_ok.1 h
  cases hq
  exact ⟨_, rfl⟩

/-- The predecessors that one graph has more than the other are visited later, so that nothing is
known of them yet. -/
theorem visit_lockstep (h : m.Lockstep host g) {visited rest : List BlockId} {id : BlockId}
    {block : BasicBlock} (ho : m.graph.reversePostorder = visited ++ id :: rest)
    (hk : p.exitStates.entries.map Prod.fst = visited) (hb : m.graph.block? id = some block) :
    ∃ block', g.block? id = some block' ∧
      p.visit (m.withGraph g) host block' = p.visit m host block := by
  obtain ⟨block', hb', _, hp, hsteps⟩ := h.present id block hb
  have hid : block.id = id := FlowGraph.id_of_block? hb
  have hid' : block'.id = id := FlowGraph.id_of_block? hb'
  have hpreds : block'.predecessors.filterMap p.exitStates.get? =
      block.predecessors.filterMap p.exitStates.get? := by
    refine hp.filterMap_eq fun a ha => Bindings.get?_eq_none.2 fun hm => ha ?_
    exact (FlowGraph.before_iff_mem ho).2 (hk ▸ hm)
  have hentry : p.entryState (m.withGraph g) host block' = p.entryState m host block := by
    simp only [entryState, hid, hid', hpreds, MethodBody.graph_withGraph, h.entry_eq,
      MethodBody.initialState_withGraph]
  refine ⟨block', hb', ?_⟩
  simp only [visit, hentry, hid, hid', MethodBody.steps_withGraph, hsteps (ho ▸ by simp),
    MethodBody.graph_withGraph, h.handlers_eq]

theorem visitAll_lockstep (h : m.Lockstep host g) (hw : m.graph.WellFormed)
    {visited rest : List BlockId} (ho : m.graph.reversePostorder = visited ++ rest)
    (hk : p.exitStates.entries.map Prod.fst = visited) :
    visitAll (m.withGraph g) host rest p = visitAll m host rest p := by
  induction rest generalizing visited p with
  | nil => rfl
  | cons id rest ih =>
    obtain ⟨block, hb⟩ := hw.exists_block id (ho ▸ by simp)
    obtain ⟨block', hb', hvisit⟩ := visit_lockstep h ho hk hb
    rw [visitAll_of_block hb, visitAll_of_block (m := m.withGraph g) hb', hvisit]
    unfold Check.andThen
    cases hq : (p.visit m host block).outcome with
    | error v => rfl
    | ok q =>
      obtain ⟨state, hstate⟩ := exitStates_visit hq
      have hkeys : q.exitStates.entries.map Prod.fst = visited ++ [id] := by
        rw [hstate, FlowGraph.id_of_block? hb, OrderedMap.entries_insert, Bindings.keys_insert, hk,
          if_neg (FlowGraph.not_mem_visited ho)]
      have ho' : m.graph.reversePostorder = (visited ++ [id]) ++ rest := by
        rw [ho, List.append_assoc]
        rfl
      simp only [ih ho' hkeys]

end Pass

theorem MethodBody.Lockstep.pass_eq {m : MethodBody} {host : Host} {g : FlowGraph}
    (h : m.Lockstep host g) (hv : g.validate = m.graph.validate) :
    (m.withGraph g).pass host = m.pass host := by
  cases hm : m.graph.validate with
  | error v =>
    rw [pass, pass, graph_withGraph, hv, hm]
    rfl
  | ok u =>
    have hw : m.graph.WellFormed := FlowGraph.validate_eq_ok.1 hm
    have hall : Pass.visitAll (m.withGraph g) host m.graph.reversePostorder {} =
        Pass.visitAll m host m.graph.reversePostorder {} :=
      Pass.visitAll_lockstep h hw (List.nil_append _).symm rfl
    rw [pass, pass, graph_withGraph, hv, hm, h.reversePostorder_eq]
    exact hall

end CapabilityFlow
