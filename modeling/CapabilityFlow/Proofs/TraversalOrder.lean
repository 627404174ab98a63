import CapabilityFlow.Proofs.Reachability
import Mathlib.Logic.Function.Iterate

namespace CapabilityFlow.FlowGraph

open Relation

/-- The traversal between two turns of its loop: the blocks found, the blocks left, and the path to
the current block. -/
structure Walk where
  found : List BlockId
  left : List BlockId
  path : List Frame

namespace Walk

def start (g : FlowGraph) : Walk := ⟨[g.entry], [], [⟨g.entry, g.outgoing g.entry⟩]⟩

/-- One turn of the loop: the current block tries its next edge, or is left if it has none. -/
def turn (g : FlowGraph) (w : Walk) : Walk :=
  match w.path with
  | [] => w
  | ⟨b, []⟩ :: path => ⟨w.found, w.left ++ [b], path⟩
  | ⟨b, s :: untried⟩ :: path =>
    if s ∈ w.found then ⟨w.found, w.left, ⟨b, untried⟩ :: path⟩
    else ⟨s :: w.found, w.left, ⟨s, g.outgoing s⟩ :: ⟨b, untried⟩ :: path⟩

end Walk

variable {g : FlowGraph} {unfound untried : List BlockId} {stack : List Frame} {a b s t : BlockId}

/-- From any point of the loop, some number of turns leaves the blocks that are still to be left. -/
theorem exists_turns_left (hs : g.Suspended unfound stack) {found : List BlockId}
    (hf : ∀ s ∈ g.ids, s ∈ unfound ↔ s ∉ found) (left : List BlockId) :
    ∃ n found', (Walk.turn g)^[n] ⟨found, left, stack⟩ =
      ⟨found', left ++ g.leave unfound stack, []⟩ := by
  induction unfound, stack using leave.induct g generalizing found left with
  | case1 unfound =>
    refine ⟨0, found, ?_⟩
    rw [leave, List.append_nil]
    rfl
  | case2 unfound b stack ih =>
    obtain ⟨n, found', hn⟩ := ih hs.pop hf (left ++ [b])
    refine ⟨n + 1, found', ?_⟩
    rw [leave_pop, List.append_cons, ← hn]
    rfl
  | case3 unfound b s untried stack hu ih =>
    have hid : s ∈ g.ids := (hs.edges _ List.mem_cons_self s List.mem_cons_self).mem_ids
    have hnew : ∀ t ∈ g.ids, t ∈ others s unfound ↔ t ∉ s :: found := by
      intro t ht
      rw [mem_others, List.mem_cons, not_or, hf t ht, and_comm]
    obtain ⟨n, found', hn⟩ := ih (hs.push hu) hnew left
    refine ⟨n + 1, found', ?_⟩
    rw [leave_push hu, ← hn, Function.iterate_succ_apply]
    simp only [Walk.turn, (hf s hid).1 hu, if_false]
  | case4 unfound b s untried stack hu ih =>
    have hid : s ∈ g.ids := (hs.edges _ List.mem_cons_self s List.mem_cons_self).mem_ids
    have hold : s ∈ found := not_not.1 (mt (hf s hid).2 hu)
    obtain ⟨n, found', hn⟩ := ih hs.skip hf left
    refine ⟨n + 1, found', ?_⟩
    rw [leave_skip hu, ← hn, Function.iterate_succ_apply]
    simp only [Walk.turn, hold, if_true]

theorem exists_turns_postorder (g : FlowGraph) :
    ∃ n found, (Walk.turn g)^[n] (.start g) = ⟨found, g.postorder, []⟩ := by
  refine exists_turns_left (suspended_start g) (fun s hs => ?_) []
  rw [mem_others, List.mem_singleton]
  exact and_iff_right hs

theorem getLast?_leave (g : FlowGraph) (unfound : List BlockId) (stack : List Frame) :
    (g.leave unfound stack).getLast? = (stack.map (·.block)).getLast? := by
  induction unfound, stack using leave.induct g with
  | case1 unfound =>
    rw [leave]
    rfl
  | case2 unfound b stack ih => rw [leave_pop, List.map_cons, List.getLast?_cons, ih,
      List.getLast?_cons]
  | case3 unfound b s untried stack hs ih =>
    rw [leave_push hs, ih]
    rfl
  | case4 unfound b s untried stack hs ih =>
    rw [leave_skip hs, ih]
    rfl

theorem head?_reversePostorder (g : FlowGraph) : g.reversePostorder.head? = some g.entry := by
  rw [reversePostorder, List.head?_reverse, postorder, getLast?_leave]
  rfl

def Descends (g : FlowGraph) (stack : List Frame) : Prop :=
  (stack.map (·.block)).Pairwise fun upper lower => g.Reaches lower upper

theorem Descends.reaches (h : g.Descends (⟨b, untried⟩ :: stack))
    (hs : s ∈ b :: stack.map (·.block)) : g.Reaches s b := by
  rcases List.mem_cons.1 hs with rfl | hs
  · exact .refl
  · exact (List.pairwise_cons.1 h).1 s hs

theorem Descends.push (h : g.Descends (⟨b, s :: untried⟩ :: stack)) (he : g.Edge b s) :
    g.Descends (⟨s, g.outgoing s⟩ :: ⟨b, untried⟩ :: stack) :=
  List.pairwise_cons.2 ⟨fun _ hc => ReflTransGen.tail (h.reaches hc) he, h⟩

/-- An edge that is still to be tried leads to a block left already, to a block that is left before
its source, or back to its source. -/
theorem left_or_reaches (hs : g.Suspended unfound stack) (hd : g.Descends stack)
    (ha : a ∈ g.leave unfound stack) (he : g.Edge a t)
    (hu : ∀ f ∈ stack, f.block = a → t ∈ f.untried) :
    (t ∉ unfound ∧ t ∉ stack.map (·.block)) ∨ [t, a].Sublist (g.leave unfound stack) ∨
      g.Reaches t a := by
  induction unfound, stack using leave.induct g with
  | case1 unfound =>
    rw [leave] at ha
    cases ha
  | case2 unfound b stack ih =>
    rw [leave_pop, List.mem_cons] at ha
    rw [leave_pop]
    have hab : a ≠ b := fun hab =>
      List.not_mem_nil (hu ⟨b, []⟩ List.mem_cons_self hab.symm)
    have ha' := ha.resolve_left hab
    by_cases htb : t = b
    · subst htb
      exact .inr (.inl ((List.singleton_sublist.2 ha').cons_cons t))
    · have hu' : ∀ f ∈ stack, f.block = a → t ∈ f.untried := fun f hf =>
        hu f (List.mem_cons_of_mem _ hf)
      rcases ih hs.pop (List.pairwise_cons.1 hd).2 ha' hu' with ⟨h, hn⟩ | h | h
      · exact .inl ⟨h, fun hm => (List.mem_cons.1 hm).elim htb hn⟩
      · exact .inr (.inl (h.cons b))
      · exact .inr (.inr h)
  | case3 unfound b s untried stack hf ih =>
    rw [leave_push hf] at ha ⊢
    by_cases hnow : a = b ∧ t = s
    · -- the edge is tried now, and its target is put on top of its source
      obtain ⟨rfl, rfl⟩ := hnow
      have hp := blocks_sublist_leave g (others t unfound)
        (⟨t, g.outgoing t⟩ :: ⟨a, untried⟩ :: stack)
      exact .inr (.inl ((((List.nil_sublist _).cons_cons a).cons_cons t).trans hp))
    · have hu' : ∀ f ∈ (⟨s, g.outgoing s⟩ : Frame) :: ⟨b, untried⟩ :: stack, f.block = a →
          t ∈ f.untried := by
        intro f hm hfa
        rcases List.mem_cons.1 hm with rfl | hm
        · obtain rfl : s = a := hfa
          exact he
        · rcases List.mem_cons.1 hm with rfl | hm
          · have ht := hu ⟨b, s :: untried⟩ List.mem_cons_self hfa
            exact (List.mem_cons.1 ht).resolve_left fun hts => hnow ⟨hfa.symm, hts⟩
          · exact hu f (List.mem_cons_of_mem _ hm) hfa
      have hbs : g.Edge b s := hs.edges _ List.mem_cons_self s List.mem_cons_self
      refine (ih (hs.push hf) (hd.push hbs) ha hu').imp_left fun hx => ?_
      obtain ⟨h, hn⟩ := hx
      rw [List.map_cons, List.mem_cons, not_or] at hn
      exact ⟨fun ht => h (mem_others.2 ⟨ht, hn.1⟩), hn.2⟩
  | case4 unfound b s untried stack hf ih =>
    rw [leave_skip hf] at ha ⊢
    by_cases hnow : a = b ∧ t = s
    · -- the edge is tried now, but its target is found already: left, or on the stack
      obtain ⟨rfl, rfl⟩ := hnow
      by_cases ht : t ∈ a :: stack.map (·.block)
      · exact .inr (.inr (hd.reaches ht))
      · exact .inl ⟨hf, ht⟩
    · refine ih hs.skip hd ha fun f hm hfa => ?_
      rcases List.mem_cons.1 hm with rfl | hm
      · have ht := hu ⟨b, s :: untried⟩ List.mem_cons_self hfa
        exact (List.mem_cons.1 ht).resolve_left fun hts => hnow ⟨hfa.symm, hts⟩
      · exact hu f (List.mem_cons_of_mem _ hm) hfa

theorem before_or_reaches (ha : a ∈ g.reversePostorder) (he : g.Edge a b) :
    g.Before a b ∨ g.Reaches b a := by
  have hd : g.Descends [⟨g.entry, g.outgoing g.entry⟩] := List.pairwise_singleton _ _
  have hu : ∀ f ∈ [(⟨g.entry, g.outgoing g.entry⟩ : Frame)], f.block = a → b ∈ f.untried := by
    intro f hf hfa
    rw [List.mem_singleton] at hf
    subst hf
    obtain rfl : g.entry = a := hfa
    exact he
  rcases left_or_reaches (suspended_start g) hd (List.mem_reverse.1 ha) he hu with ⟨h, hn⟩ | h | h
  · -- at the start nothing is left yet
    rw [List.map_singleton, List.mem_singleton] at hn
    exact absurd (mem_others.2 ⟨he.mem_ids, hn⟩) h
  · exact .inl (List.reverse_sublist.2 h)
  · exact .inr h

/-- No block that the entry leads to lies on a cycle. -/
def Acyclic (g : FlowGraph) : Prop := ∀ b, g.Reaches g.entry b → ¬ TransGen g.Edge b b

theorem Acyclic.before (h : g.Acyclic) (ha : a ∈ g.reversePostorder) (he : g.Edge a b) :
    g.Before a b :=
  (before_or_reaches ha he).resolve_right fun hb =>
    h a (mem_reversePostorder_iff.1 ha) (TransGen.head' he hb)

theorem acyclic_of_ascending
    (hb : ∀ block ∈ g.blocks, ∀ s ∈ block.successors, block.id.index < s.index)
    (hr : ∀ r ∈ g.regions, ∀ p ∈ r.protectedBlocks, p.index < r.handler.index) : g.Acyclic := by
  have he : ∀ {a b}, g.Edge a b → a.index < b.index := by
    intro a b he
    obtain ⟨block, hblock, hs | hh⟩ := edge_iff.1 he
    · exact id_of_block? hblock ▸ hb block (mem_of_block? hblock) b hs
    · obtain ⟨r, hm, hp, rfl⟩ := mem_handlers.1 hh
      exact hr r hm a hp
  have ht : ∀ {a b}, TransGen g.Edge a b → a.index < b.index := by
    intro a b h
    induction h with
    | single h => exact he h
    | tail _ h ih => exact UInt64.lt_trans ih (he h)
  exact fun b _ h => UInt64.lt_irrefl _ (ht h)

/-- Whatever the graph, the loop of the traversal ends; its order begins with the entry and lists
the blocks that the entry leads to, each once. An edge that does not go forward in it lies on a
cycle, and without cycles every edge goes forward, so that a handler follows what it protects. -/
theorem traversal_is_depth_first (g : FlowGraph) :
    (∃ n found, (Walk.turn g)^[n] (.start g) = ⟨found, g.postorder, []⟩) ∧
    g.reversePostorder.head? = some g.entry ∧ g.reversePostorder.Nodup ∧
    (∀ b, b ∈ g.reversePostorder ↔ g.Reaches g.entry b) ∧
    (∀ a b, a ∈ g.reversePostorder → g.Edge a b → g.Before a b ∨ g.Reaches b a) ∧
    (g.Acyclic → (∀ a b, a ∈ g.reversePostorder → g.Edge a b → g.Before a b) ∧
      ∀ r ∈ g.regions, ∀ a ∈ r.protectedBlocks, a ∈ g.reversePostorder →
        (∃ block, g.block? a = some block) → g.Before a r.handler) := by
  refine ⟨g.exists_turns_postorder, g.head?_reversePostorder, g.nodup_reversePostorder,
    fun _ => mem_reversePostorder_iff, fun _ _ => before_or_reaches, fun h => ?_⟩
  refine ⟨fun _ _ => h.before, fun r hr a hp ha hblock => h.before ha ?_⟩
  obtain ⟨block, hblock⟩ := hblock
  exact edge_iff.2 ⟨block, hblock, .inr (mem_handlers.2 ⟨r, hr, hp, rfl⟩)⟩

def guardedBranches : FlowGraph where
  blocks :=
    [{ id := ⟨0⟩, successors := [⟨1⟩, ⟨2⟩] }, { id := ⟨1⟩, successors := [⟨4⟩] },
      { id := ⟨2⟩, successors := [⟨4⟩, ⟨4⟩, ⟨9⟩] }, { id := ⟨3⟩, successors := [⟨4⟩] },
      { id := ⟨4⟩ }]
  regions := [⟨.caught, [⟨1⟩], ⟨3⟩⟩]

theorem guardedBranches_ordered :
    guardedBranches.reversePostorder = [⟨0⟩, ⟨2⟩, ⟨9⟩, ⟨1⟩, ⟨3⟩, ⟨4⟩] ∧ guardedBranches.Acyclic ∧
      guardedBranches.Before ⟨1⟩ ⟨3⟩ := by
  have ho : guardedBranches.reversePostorder = [⟨0⟩, ⟨2⟩, ⟨9⟩, ⟨1⟩, ⟨3⟩, ⟨4⟩] := by decide +kernel
  have ha : guardedBranches.Acyclic := acyclic_of_ascending (by decide) (by decide)
  obtain ⟨-, -, -, -, -, h⟩ := guardedBranches.traversal_is_depth_first
  exact ⟨ho, ha, (h ha).2 _ List.mem_cons_self _ List.mem_cons_self (ho ▸ by decide) ⟨_, rfl⟩⟩

end CapabilityFlow.FlowGraph
