import CapabilityFlow.Proofs.TraversalOrder

namespace CapabilityFlow.FlowGraph

/-- What a search comes back with: the blocks that are marked by then, and those that it entered, in
the order in which it was done with them. -/
structure Search (marked : List BlockId) where
  marks : List BlockId
  listed : List BlockId
  marked_subset : marked ⊆ marks

def unmarked (marked blocks : List BlockId) : List BlockId := blocks.filter (· ∉ marked)

variable {g : FlowGraph} {marked marks blocks targets : List BlockId} {stack : List Frame}
  {b s : BlockId}

theorem mem_unmarked : s ∈ unmarked marked blocks ↔ s ∈ blocks ∧ s ∉ marked := by
  simp [unmarked]

theorem unmarked_nil (blocks : List BlockId) : unmarked [] blocks = blocks :=
  List.filter_eq_self.2 fun _ _ => decide_eq_true List.not_mem_nil

theorem others_unmarked (marked blocks : List BlockId) (s : BlockId) :
    others s (unmarked marked blocks) = unmarked (s :: marked) blocks := by
  simp [others, unmarked, List.filter_filter]

theorem unmarked_sublist (h : marked ⊆ marks) (blocks : List BlockId) :
    (unmarked marks blocks).Sublist (unmarked marked blocks) := by
  apply List.monotone_filter_right
  intro s hs
  rw [decide_eq_true_eq] at hs ⊢
  exact fun hm => hs (h hm)

theorem work_le_of_sublist {blocks' : List BlockId} (h : blocks'.Sublist blocks) :
    g.work blocks' ≤ g.work blocks := by
  induction h with
  | slnil => exact Nat.le_refl _
  | cons b _ ih => exact Nat.le_add_left_of_le ih
  | cons_cons b _ ih => exact Nat.add_le_add_left ih _

/-- The work left for a search: the blocks of the graph without a mark are still to be entered. -/
def searchWork (g : FlowGraph) (marked : List BlockId) : Nat :=
  g.work (unmarked marked (g.blocks.map (·.id)))

theorem searchWork_le (h : marked ⊆ marks) : g.searchWork marks ≤ g.searchWork marked :=
  work_le_of_sublist (unmarked_sublist h _)

/-- Entering a block takes its edges out of the work; a number that stands for no block has none. -/
theorem searchWork_cons_le (h : s ∉ marked) :
    g.searchWork (s :: marked) + (g.outgoing s).length ≤ g.searchWork marked := by
  cases hb : g.block? s with
  | some block =>
    have hs : s ∈ unmarked marked (g.blocks.map (·.id)) :=
      mem_unmarked.2 ⟨List.mem_map.2 ⟨block, mem_of_block? hb, id_of_block? hb⟩, h⟩
    have hlt := g.work_others_lt hs
    rw [others_unmarked] at hlt
    exact Nat.le_of_add_right_le hlt
  | none =>
    rw [outgoing_of_no_block hb]
    exact searchWork_le (List.subset_cons_self s marked)

/-- Searches from the targets of edges in their order. A target that has no mark when its turn comes
is marked, the search goes on from its own edges, and it is listed behind what these lead to. -/
def search (g : FlowGraph) (marked : List BlockId) : List BlockId → Search marked
  | [] => ⟨marked, [], List.Subset.refl marked⟩
  | s :: targets =>
    if s ∈ marked then g.search marked targets
    else
      let inner := g.search (s :: marked) (g.outgoing s)
      let rest := g.search inner.marks targets
      ⟨rest.marks, inner.listed ++ s :: rest.listed,
        fun _ h => rest.marked_subset (inner.marked_subset (List.mem_cons_of_mem s h))⟩
termination_by targets => g.searchWork marked + targets.length
decreasing_by
  · exact Nat.lt_succ_self _
  · rename_i h
    exact Nat.lt_succ_of_le (Nat.le_add_right_of_le (searchWork_cons_le h))
  · have hsub : marked ⊆ inner.marks :=
      List.Subset.trans (List.subset_cons_self s marked) inner.marked_subset
    exact Nat.lt_succ_of_le (Nat.add_le_add_right (searchWork_le hsub) _)

/-- The blocks that a search from the entry enters, in the order in which it is done with them. -/
def recursivePostorder (g : FlowGraph) : List BlockId := (g.search [] [g.entry]).listed

theorem search_cons_of_mem (h : s ∈ marked) :
    g.search marked (s :: targets) = g.search marked targets := by
  rw [search, if_pos h]

theorem marks_search_cons (h : s ∉ marked) : (g.search marked (s :: targets)).marks =
    (g.search (g.search (s :: marked) (g.outgoing s)).marks targets).marks := by
  rw [search, if_neg h]

theorem listed_search_cons (h : s ∉ marked) : (g.search marked (s :: targets)).listed =
    (g.search (s :: marked) (g.outgoing s)).listed ++
      s :: (g.search (g.search (s :: marked) (g.outgoing s)).marks targets).listed := by
  rw [search, if_neg h]

/-- What the traversal leaves from the untried edges of the top of its stack on is what a search
from these edges lists. It then leaves the top and goes on below it, where just the blocks that the
search has marked are found. -/
theorem leave_eq_search (ht : ∀ t ∈ targets, t ∈ g.ids) :
    g.leave (unmarked marked g.ids) (⟨b, targets⟩ :: stack) =
      (g.search marked targets).listed ++
        b :: g.leave (unmarked (g.search marked targets).marks g.ids) stack := by
  induction marked, targets using search.induct g generalizing b stack with
  | case1 marked =>
    rw [leave_pop, search]
    rfl
  | case2 marked s targets hs ih =>
    rw [List.forall_mem_cons] at ht
    have hfound : s ∉ unmarked marked g.ids := fun hm => (mem_unmarked.1 hm).2 hs
    rw [leave_skip hfound, search_cons_of_mem hs]
    exact ih ht.2
  | case3 marked s targets hs inner ihInner ihRest =>
    rw [List.forall_mem_cons] at ht
    have hunfound : s ∈ unmarked marked g.ids := mem_unmarked.2 ⟨ht.1, hs⟩
    have hedges : ∀ t ∈ g.outgoing s, t ∈ g.ids := fun t he => Edge.mem_ids (a := s) he
    -- while the search is below the target, the rest of the edges waits one frame further down
    rw [leave_push hunfound, others_unmarked, ihInner hedges, ihRest ht.2,
      listed_search_cons hs, marks_search_cons hs, List.append_assoc, List.cons_append]

theorem postorder_eq_recursivePostorder (g : FlowGraph) : g.postorder = g.recursivePostorder := by
  have hstart : others g.entry g.ids = unmarked [g.entry] g.ids := by
    rw [← others_unmarked, unmarked_nil]
  have hedges : ∀ t ∈ g.outgoing g.entry, t ∈ g.ids := fun t he => Edge.mem_ids (a := g.entry) he
  rw [postorder, hstart, leave_eq_search hedges, leave, recursivePostorder,
    listed_search_cons List.not_mem_nil, search]

/-- Whatever the graph, the traversal leaves the blocks in the order in which the recursive search
from the entry is done with them, and its loop ends with just this list. The edges of a block are
taken in this order: to its successors, then to the handlers of the regions that protect it. -/
theorem traversal_is_recursive (g : FlowGraph) :
    g.postorder = g.recursivePostorder ∧
      (∃ n found, (Walk.turn g)^[n] (.start g) = ⟨found, g.recursivePostorder, []⟩) ∧
      (∀ b block, g.block? b = some block → g.outgoing b =
        block.successors ++ (g.regions.filter (b ∈ ·.protectedBlocks)).map (·.handler)) ∧
      ∀ b, g.block? b = none → g.outgoing b = [] := by
  have he := g.postorder_eq_recursivePostorder
  obtain ⟨n, found, hn⟩ := g.exists_turns_postorder
  exact ⟨he, ⟨n, found, he ▸ hn⟩, fun _ _ => outgoing_of_block?, fun _ => outgoing_of_no_block⟩

/-- A loop whose blocks share a handler, which an edge of the loop leads to as well. -/
example : recursivePostorder
    { blocks := [{ id := ⟨0⟩, successors := [⟨1⟩, ⟨3⟩, ⟨1⟩] },
        { id := ⟨1⟩, successors := [⟨0⟩, ⟨1⟩, ⟨2⟩] }, { id := ⟨2⟩ }, { id := ⟨3⟩ }]
      regions := [⟨.caught, [⟨0⟩, ⟨1⟩], ⟨2⟩⟩] } = [⟨2⟩, ⟨1⟩, ⟨3⟩, ⟨0⟩] := by
  decide +kernel

end CapabilityFlow.FlowGraph
