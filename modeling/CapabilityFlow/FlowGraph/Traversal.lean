import CapabilityFlow.FlowGraph

namespace CapabilityFlow.FlowGraph

/-- A block on the path of the traversal and its edges that are still untried. -/
structure Frame where
  block : BlockId
  untried : List BlockId

def Frame.work : List Frame → Nat
  | [] => 0
  | frame :: stack => frame.untried.length + 1 + Frame.work stack

def work (g : FlowGraph) : List BlockId → Nat
  | [] => 0
  | id :: blocks => (g.outgoing id).length + 2 + g.work blocks

def others (id : BlockId) (blocks : List BlockId) : List BlockId := blocks.filter (· ≠ id)

@[simp] theorem mem_others {id b : BlockId} {blocks : List BlockId} :
    b ∈ others id blocks ↔ b ∈ blocks ∧ b ≠ id := by
  simp [others]

@[simp] theorem others_cons_self (id : BlockId) (blocks : List BlockId) :
    others id (id :: blocks) = others id blocks := by
  simp [others]

theorem others_cons_of_ne {id b : BlockId} (h : b ≠ id) (blocks : List BlockId) :
    others id (b :: blocks) = b :: others id blocks := by
  simp [others, h]

@[simp] theorem work_cons (g : FlowGraph) (id : BlockId) (blocks : List BlockId) :
    g.work (id :: blocks) = (g.outgoing id).length + 2 + g.work blocks := rfl

theorem work_others_le (g : FlowGraph) (id : BlockId) (blocks : List BlockId) :
    g.work (others id blocks) ≤ g.work blocks := by
  induction blocks with
  | nil => exact Nat.le_refl _
  | cons b blocks ih =>
    by_cases hb : b = id
    · subst hb
      simp only [others_cons_self, work_cons]
      omega
    · simp only [others_cons_of_ne hb, work_cons]
      omega

theorem work_others_lt (g : FlowGraph) {id : BlockId} {blocks : List BlockId} (h : id ∈ blocks) :
    g.work (others id blocks) + (g.outgoing id).length + 2 ≤ g.work blocks := by
  induction blocks with
  | nil => cases h
  | cons b blocks ih =>
    by_cases hb : b = id
    · subst hb
      have := g.work_others_le b blocks
      simp only [others_cons_self, work_cons]
      omega
    · have := ih (by simpa [Ne.symm hb] using h)
      simp only [others_cons_of_ne hb, work_cons]
      omega

def ids (g : FlowGraph) : List BlockId :=
  g.entry :: g.blocks.flatMap (·.successors) ++ g.regions.map (·.handler)

/--
Runs the traversal from a stack, given the blocks that are still to be found, and lists the blocks
in the order in which they are left.
-/
def leave (g : FlowGraph) (unfound : List BlockId) (stack : List Frame) : List BlockId :=
  match stack with
  | [] => []
  | ⟨b, []⟩ :: stack => b :: leave g unfound stack
  | ⟨b, s :: untried⟩ :: stack =>
    if s ∈ unfound then
      leave g (others s unfound) (⟨s, g.outgoing s⟩ :: ⟨b, untried⟩ :: stack)
    else leave g unfound (⟨b, untried⟩ :: stack)
termination_by g.work unfound + Frame.work stack
decreasing_by
  · simp [Frame.work]
  · rename_i h
    have := g.work_others_lt h
    simp only [Frame.work, List.length_cons]
    omega
  · simp [Frame.work]

/-- The blocks that the entry leads to, each after the blocks that were first found from it. -/
def postorder (g : FlowGraph) : List BlockId :=
  g.leave (others g.entry g.ids) [⟨g.entry, g.outgoing g.entry⟩]

def reversePostorder (g : FlowGraph) : List BlockId := g.postorder.reverse

end CapabilityFlow.FlowGraph
