import CapabilityFlow.Proofs.ExactPass

namespace CapabilityFlow

namespace FlowGraph

variable {g : FlowGraph}

theorem block?_eq_some_iff {id : BlockId} {b : BasicBlock} :
    g.block? id = some b ↔ g.blocks[id.index.toNat]? = some b ∧ b.id = id := by
  simp [block?, Option.filter_eq_some_iff]

/-- The number of each block is its position, so that the number stands for this very block. -/
def Unshadowed (g : FlowGraph) : Prop :=
  ∀ (i : Nat) (b : BasicBlock), g.blocks[i]? = some b → b.id.index.toNat = i

theorem Unshadowed.block?_eq (h : g.Unshadowed) {i : Nat} {b : BasicBlock}
    (hb : g.blocks[i]? = some b) : g.block? b.id = some b := by
  rw [block?_eq_some_iff, h i b hb]
  exact ⟨hb, rfl⟩

theorem Unshadowed.nodup (h : g.Unshadowed) : (g.blocks.map (·.id)).Nodup := by
  rw [List.nodup_iff_injective_getElem]
  rintro ⟨i, hi⟩ ⟨j, hj⟩ he
  rw [List.length_map] at hi hj
  have hb := h i _ (List.getElem?_eq_getElem hi)
  have hc := h j _ (List.getElem?_eq_getElem hj)
  simp only [List.getElem_map] at he
  rw [he] at hb
  exact Fin.ext (hb.symm.trans hc)

theorem WellFormed.exists_at (h : g.WellFormed) {b : BasicBlock} (hb : b ∈ g.blocks) :
    ∃ c, g.blocks[b.id.index.toNat]? = some c ∧ c.id = b.id := by
  obtain ⟨c, hc⟩ := h.ids b hb
  exact ⟨c, block?_eq_some_iff.1 hc⟩

theorem WellFormed.unshadowed (h : g.WellFormed) (hd : (g.blocks.map (·.id)).Nodup) :
    g.Unshadowed := by
  intro i b hb
  obtain ⟨c, hc, he⟩ := h.exists_at (List.mem_of_getElem? hb)
  have hi : (g.blocks.map (·.id))[i]? = some b.id := by
    rw [List.getElem?_map, hb, Option.map_some]
  have hn : (g.blocks.map (·.id))[b.id.index.toNat]? = some b.id := by
    rw [List.getElem?_map, hc, Option.map_some, he]
  exact (List.getElem?_inj (List.getElem?_eq_some_iff.1 hn).1 hd).1 (hn.trans hi.symm)

/-- Of a graph that is accepted, the number of each block leads to a block that bears it, and it is
this very block for all of them exactly if no two blocks bear one number. -/
theorem accepted_unshadowed_iff_nodup (h : g.validate = .ok ()) :
    (∀ b ∈ g.blocks, ∃ c, g.blocks[b.id.index.toNat]? = some c ∧ c.id = b.id) ∧
    (g.Unshadowed ↔ (g.blocks.map (·.id)).Nodup) ∧
    (g.Unshadowed → ∀ b ∈ g.blocks, g.block? b.id = some b) := by
  have hw := validate_eq_ok.1 h
  refine ⟨fun b hb => hw.exists_at hb, ⟨Unshadowed.nodup, hw.unshadowed⟩, ?_⟩
  intro hu b hb
  obtain ⟨i, hi⟩ := List.mem_iff_getElem?.1 hb
  exact hu.block?_eq hi

theorem accepted_retry_unshadowed : MethodBody.retry.graph.validate = .ok () ∧
    (MethodBody.retry.graph.blocks.map (·.id)).Nodup ∧ MethodBody.retry.graph.Unshadowed := by
  have h : MethodBody.retry.graph.validate = .ok () := by decide +kernel
  have hd : (MethodBody.retry.graph.blocks.map (·.id)).Nodup := by decide
  exact ⟨h, hd, (accepted_unshadowed_iff_nodup h).2.1.2 hd⟩

end FlowGraph

namespace MethodBody

def repeated (before : List BasicBlock) : MethodBody where
  method := "Repeated()"
  graph :=
    { blocks := before ++ [{ id := ⟨0⟩
                             statements := [⟨.evaluate (.invoke "Sink(Type)" none
                               [.load "Type"] []), {}⟩] }] }

/-- A block that bears the number of an earlier one is accepted and left out: what is reported of
its statement when it stands alone is not reported any more. -/
theorem shadowed_block_accepted : (repeated [{ id := ⟨0⟩ }]).graph.validate = .ok () ∧
    ¬ ((repeated [{ id := ⟨0⟩ }]).graph.blocks.map (·.id)).Nodup ∧
    ¬ (repeated [{ id := ⟨0⟩ }]).graph.Unshadowed ∧
    ((repeated [{ id := ⟨0⟩ }]).analyze sinkTable.host {}).result = .ok [] ∧
    ((repeated []).analyze sinkTable.host {}).result ≠ .ok [] := by
  have hd : ¬ ((repeated [{ id := ⟨0⟩ }]).graph.blocks.map (·.id)).Nodup := by decide
  exact ⟨by decide +kernel, hd, fun hu => hd hu.nodup, by decide +kernel, by decide +kernel⟩

end MethodBody

end CapabilityFlow
