import CapabilityFlow.Proofs.ExactPass
import CapabilityFlow.Proofs.Lockstep

namespace CapabilityFlow

def BasicBlock.dropEdges (b : BasicBlock) (dropped : BlockId → BlockId → Bool) : BasicBlock :=
  { b with
    predecessors := b.predecessors.filter fun a => !dropped a b.id
    successors := b.successors.filter fun s => !dropped b.id s }

/-- A graph without some edges, which are dropped from the lists of both of their blocks. -/
def FlowGraph.dropEdges (g : FlowGraph) (dropped : BlockId → BlockId → Bool) : FlowGraph :=
  g.mapBlocks (·.dropEdges dropped)

namespace FlowGraph

variable {g : FlowGraph} {dropped : BlockId → BlockId → Bool}

theorem block?_dropEdges (id : BlockId) :
    (g.dropEdges dropped).block? id = (g.block? id).map (·.dropEdges dropped) :=
  block?_mapBlocks (f := (·.dropEdges dropped)) (fun _ => rfl) id

theorem exists_block_dropEdges {id : BlockId} (h : ∃ b, g.block? id = some b) :
    ∃ b, (g.dropEdges dropped).block? id = some b := by
  obtain ⟨b, hb⟩ := h
  exact ⟨b.dropEdges dropped, by rw [block?_dropEdges, hb, Option.map_some]⟩

theorem WellFormed.dropEdges (h : g.WellFormed) (dropped : BlockId → BlockId → Bool) :
    (g.dropEdges dropped).WellFormed where
  entry := exists_block_dropEdges h.entry
  ids := by
    intro b' hb'
    obtain ⟨b, hb, rfl⟩ := List.mem_map.1 hb'
    exact exists_block_dropEdges (h.ids b hb)
  successors := by
    intro b' hb' s hs
    obtain ⟨b, hb, rfl⟩ := List.mem_map.1 hb'
    obtain ⟨hs, hkept⟩ := List.mem_filter.1 hs
    obtain ⟨c, hc, hp⟩ := h.successors b hb s hs
    refine ⟨c.dropEdges dropped, by rw [block?_dropEdges, hc, Option.map_some], ?_⟩
    exact List.mem_filter.2 ⟨hp, (id_of_block? hc).symm ▸ hkept⟩
  predecessors := by
    intro b' hb' p hp
    obtain ⟨b, hb, rfl⟩ := List.mem_map.1 hb'
    obtain ⟨hp, hkept⟩ := List.mem_filter.1 hp
    obtain ⟨c, hc, hs⟩ := h.predecessors b hb p hp
    refine ⟨c.dropEdges dropped, by rw [block?_dropEdges, hc, Option.map_some], ?_⟩
    exact List.mem_filter.2 ⟨hs, (id_of_block? hc).symm ▸ hkept⟩
  handlers r hr := exists_block_dropEdges (h.handlers r hr)
  nonempty := h.nonempty
  protects r hr p hp := exists_block_dropEdges (h.protects r hr p hp)

end FlowGraph

namespace MethodBody

variable {m : MethodBody} {host : Host} {dropped : BlockId → BlockId → Bool}

theorem lockstep_dropEdges (hd : ∀ a b, dropped a b = true → ¬ m.graph.Before a b) :
    m.Lockstep host (m.graph.dropEdges dropped) where
  entry_eq := rfl
  handlers_eq _ := rfl
  absent id hb := by rw [FlowGraph.block?_dropEdges, hb, Option.map_none]
  present id block hb := by
    have hid : block.id = id := FlowGraph.id_of_block? hb
    have hb' : (m.graph.dropEdges dropped).block? id = some (block.dropEdges dropped) := by
      rw [FlowGraph.block?_dropEdges, hb, Option.map_some]
    refine ⟨_, hb', .filter (fun s hs => ?_) _, .filter (fun a ha => ?_) _, fun _ _ => rfl⟩
    · exact hid ▸ hd block.id s (by simpa using hs)
    · exact hid ▸ hd a block.id (by simpa using ha)

/-- Edges that do not go forward in the order, an edge of a block to itself among them, have no
part in a pass: without any of them the graph is still well formed, its order is the same, and the
pass gives the same states or the same violation, with the same reports and marks on the way. -/
theorem pass_dropEdges (hv : m.graph.validate = .ok ())
    (hd : ∀ a b, dropped a b = true → ¬ m.graph.Before a b) :
    (m.graph.dropEdges dropped).validate = .ok () ∧
    (m.graph.dropEdges dropped).reversePostorder = m.graph.reversePostorder ∧
    (m.withGraph (m.graph.dropEdges dropped)).pass host = m.pass host := by
  have hw : m.graph.WellFormed := FlowGraph.validate_eq_ok.1 hv
  have hv' : (m.graph.dropEdges dropped).validate = .ok () :=
    FlowGraph.validate_eq_ok.2 (hw.dropEdges dropped)
  have hl : m.Lockstep host (m.graph.dropEdges dropped) := lockstep_dropEdges hd
  exact ⟨hv', hl.reversePostorder_eq, hl.pass_eq (hv'.trans hv.symm)⟩

def polling : MethodBody where
  method := "Poll()"
  graph :=
    { blocks :=
        [{ id := ⟨0⟩, successors := [⟨1⟩]
           statements := [⟨.assign (.localVar 0) (.typeOf "Widget"), {}⟩] },
          { id := ⟨1⟩, predecessors := [⟨2⟩, ⟨0⟩, ⟨3⟩], successors := [⟨2⟩, ⟨3⟩]
            statements := [⟨.evaluate (.invoke "Sink(Type)" none [.read (.localVar 0)] []), {}⟩] },
          { id := ⟨2⟩, predecessors := [⟨1⟩, ⟨2⟩], successors := [⟨2⟩, ⟨1⟩, ⟨3⟩]
            statements := [⟨.assign (.localVar 0) (.invoke "Source()" none [] []), {}⟩] },
          { id := ⟨3⟩, predecessors := [⟨2⟩, ⟨1⟩], successors := [⟨1⟩]
            statements := [⟨.evaluate (.invoke "Sink(Type)" none [.read (.localVar 0)] []), {}⟩] }]
      regions := [⟨.caught, [⟨2⟩], ⟨1⟩⟩] }

def pollingBack (a b : BlockId) : Bool := (a, b) ∈ [(⟨2⟩, ⟨1⟩), (⟨2⟩, ⟨2⟩), (⟨3⟩, ⟨1⟩)]

theorem pass_polling_dropEdges : polling.graph.validate = .ok () ∧
    (∀ a b, pollingBack a b = true → ¬ polling.graph.Before a b) ∧
    (polling.graph.dropEdges pollingBack).reversePostorder = [⟨0⟩, ⟨1⟩, ⟨2⟩, ⟨3⟩] ∧
    (polling.withGraph (polling.graph.dropEdges pollingBack)).pass sinkTable.host =
      polling.pass sinkTable.host := by
  have hv : polling.graph.validate = .ok () := by decide +kernel
  have ho : polling.graph.reversePostorder = [⟨0⟩, ⟨1⟩, ⟨2⟩, ⟨3⟩] := by decide +kernel
  have hd : ∀ a b, pollingBack a b = true → ¬ polling.graph.Before a b := by
    intro a b h
    rw [FlowGraph.Before, ho]
    simp only [pollingBack, decide_eq_true_eq, List.mem_cons, List.not_mem_nil, or_false,
      Prod.mk.injEq] at h
    rcases h with ⟨rfl, rfl⟩ | ⟨rfl, rfl⟩ | ⟨rfl, rfl⟩ <;> decide
  obtain ⟨-, hr, hp⟩ := pass_dropEdges hv hd
  exact ⟨hv, hd, hr.trans ho, hp⟩

end MethodBody

end CapabilityFlow
