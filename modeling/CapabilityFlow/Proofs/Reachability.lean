import CapabilityFlow.FlowGraph.Traversal
import Mathlib.Logic.Relation
import Mathlib.Data.List.Induction
import Mathlib.Data.List.Nodup

namespace CapabilityFlow.FlowGraph

open Relation

/-- Control can go from one block to the other. -/
def Edge (g : FlowGraph) (a b : BlockId) : Prop := b ∈ g.outgoing a

/-- Control can go from one block to the other in any number of steps. -/
def Reaches (g : FlowGraph) : BlockId → BlockId → Prop := ReflTransGen g.Edge

/-- The traversal visits one block and then, at some later time, the other. -/
def Before (g : FlowGraph) (a b : BlockId) : Prop := [a, b].Sublist g.reversePostorder

variable {g : FlowGraph} {unfound untried : List BlockId} {stack : List Frame} {b s x : BlockId}

theorem outgoing_of_block? {block : BasicBlock} (h : g.block? b = some block) :
    g.outgoing b = block.successors ++ g.handlers b := by
  rw [outgoing, h]

theorem outgoing_of_no_block (h : g.block? b = none) : g.outgoing b = [] := by
  rw [outgoing, h]

theorem edge_iff {a : BlockId} : g.Edge a b ↔
    ∃ block, g.block? a = some block ∧ (b ∈ block.successors ∨ b ∈ g.handlers a) := by
  unfold Edge outgoing
  cases g.block? a <;> simp

theorem mem_handlers {a : BlockId} :
    b ∈ g.handlers a ↔ ∃ r ∈ g.regions, a ∈ r.protectedBlocks ∧ r.handler = b := by
  simp [handlers, and_assoc]

theorem leave_pop : g.leave unfound (⟨b, []⟩ :: stack) = b :: g.leave unfound stack := by
  rw [leave]

theorem leave_push (h : s ∈ unfound) : g.leave unfound (⟨b, s :: untried⟩ :: stack) =
    g.leave (others s unfound) (⟨s, g.outgoing s⟩ :: ⟨b, untried⟩ :: stack) := by
  rw [leave, if_pos h]

theorem leave_skip (h : s ∉ unfound) :
    g.leave unfound (⟨b, s :: untried⟩ :: stack) = g.leave unfound (⟨b, untried⟩ :: stack) := by
  rw [leave, if_neg h]

/-- What holds of the stack at each step: blocks on it are found and differ, and what is untried at
a block is an edge of it. -/
structure Suspended (g : FlowGraph) (unfound : List BlockId) (stack : List Frame) : Prop where
  nodup : (stack.map (·.block)).Nodup
  found : ∀ b ∈ stack.map (·.block), b ∉ unfound
  edges : ∀ f ∈ stack, ∀ s ∈ f.untried, g.Edge f.block s

theorem Suspended.pop {f : Frame} (h : g.Suspended unfound (f :: stack)) :
    g.Suspended unfound stack where
  nodup := (List.nodup_cons.1 h.nodup).2
  found b hb := h.found b (List.mem_cons_of_mem _ hb)
  edges f hf := h.edges f (List.mem_cons_of_mem _ hf)

theorem Suspended.skip (h : g.Suspended unfound (⟨b, s :: untried⟩ :: stack)) :
    g.Suspended unfound (⟨b, untried⟩ :: stack) where
  nodup := h.nodup
  found := h.found
  edges := by
    intro f hf t ht
    rcases List.mem_cons.1 hf with rfl | hf
    · exact h.edges ⟨b, s :: untried⟩ List.mem_cons_self t (List.mem_cons_of_mem s ht)
    · exact h.edges f (List.mem_cons_of_mem _ hf) t ht

theorem Suspended.push (h : g.Suspended unfound (⟨b, s :: untried⟩ :: stack))
    (hs : s ∈ unfound) :
    g.Suspended (others s unfound) (⟨s, g.outgoing s⟩ :: ⟨b, untried⟩ :: stack) where
  nodup := List.nodup_cons.2 ⟨fun hm => h.found s hm hs, h.nodup⟩
  found := by
    intro c hc hu
    obtain ⟨hu, hne⟩ := mem_others.1 hu
    rcases List.mem_cons.1 hc with he | hc
    · exact hne he
    · exact h.found c hc hu
  edges := by
    intro f hf t ht
    rcases List.mem_cons.1 hf with rfl | hf
    · exact ht
    · exact h.skip.edges f hf t ht

theorem suspended_start (g : FlowGraph) :
    g.Suspended (others g.entry g.ids) [⟨g.entry, g.outgoing g.entry⟩] where
  nodup := by simp
  found := by
    intro b hb hu
    rw [List.map_singleton, List.mem_singleton] at hb
    exact (mem_others.1 hu).2 hb
  edges := by
    intro f hf t ht
    rw [List.mem_singleton] at hf
    subst f
    exact ht

theorem blocks_sublist_leave (g : FlowGraph) (unfound : List BlockId) (stack : List Frame) :
    (stack.map (·.block)).Sublist (g.leave unfound stack) := by
  induction unfound, stack using leave.induct g with
  | case1 unfound => exact List.nil_sublist _
  | case2 unfound b stack ih =>
    rw [leave_pop]
    exact ih.cons_cons b
  | case3 unfound b s untried stack hs ih =>
    rw [leave_push hs]
    exact (List.sublist_cons_self _ _).trans ih
  | case4 unfound b s untried stack hs ih =>
    rw [leave_skip hs]
    exact ih

theorem mem_leave_of_mem_stack (h : x ∈ stack.map (·.block)) : x ∈ g.leave unfound stack :=
  (blocks_sublist_leave g unfound stack).subset h

theorem mem_leave (h : x ∈ g.leave unfound stack) : x ∈ stack.map (·.block) ∨ x ∈ unfound := by
  induction unfound, stack using leave.induct g with
  | case1 unfound =>
    rw [leave] at h
    cases h
  | case2 unfound b stack ih =>
    rw [leave_pop, List.mem_cons] at h
    rw [List.map_cons, List.mem_cons]
    rcases h with he | h
    · exact .inl (.inl he)
    · exact (ih h).imp_left .inr
  | case3 unfound b s untried stack hs ih =>
    rw [leave_push hs] at h
    rcases ih h with h | h
    · rcases List.mem_cons.1 h with he | h
      · exact .inr (he ▸ hs)
      · exact .inl h
    · exact .inr (mem_others.1 h).1
  | case4 unfound b s untried stack hs ih =>
    rw [leave_skip hs] at h
    exact ih h

theorem nodup_leave (h : g.Suspended unfound stack) : (g.leave unfound stack).Nodup := by
  induction unfound, stack using leave.induct g with
  | case1 unfound =>
    rw [leave]
    exact List.nodup_nil
  | case2 unfound b stack ih =>
    rw [leave_pop, List.nodup_cons]
    refine ⟨fun hb => ?_, ih h.pop⟩
    rcases mem_leave hb with hb | hb
    · exact (List.nodup_cons.1 h.nodup).1 hb
    · exact h.found b List.mem_cons_self hb
  | case3 unfound b s untried stack hs ih =>
    rw [leave_push hs]
    exact ih (h.push hs)
  | case4 unfound b s untried stack hs ih =>
    rw [leave_skip hs]
    exact ih h.skip

/-- A block that is found on the way is left before some block with an edge to it. -/
theorem edge_leave (h : g.Suspended unfound stack) (hx : x ∈ g.leave unfound stack)
    (hn : x ∉ stack.map (·.block)) :
    ∃ a, g.Edge a x ∧ [x, a].Sublist (g.leave unfound stack) := by
  induction unfound, stack using leave.induct g with
  | case1 unfound =>
    rw [leave] at hx
    cases hx
  | case2 unfound b stack ih =>
    rw [leave_pop] at hx ⊢
    rw [List.map_cons, List.mem_cons, not_or] at hn
    obtain ⟨a, ha, hs⟩ := ih h.pop ((List.mem_cons.1 hx).resolve_left hn.1) hn.2
    exact ⟨a, ha, hs.cons b⟩
  | case3 unfound b s untried stack hs ih =>
    rw [leave_push hs] at hx ⊢
    by_cases he : x = s
    · -- the block that the edge is tried from lies right below the one just found
      subst he
      refine ⟨b, h.edges _ List.mem_cons_self x List.mem_cons_self, ?_⟩
      have hp := blocks_sublist_leave g (others x unfound)
        (⟨x, g.outgoing x⟩ :: ⟨b, untried⟩ :: stack)
      exact (((List.nil_sublist _).cons_cons b).cons_cons x).trans hp
    · refine ih (h.push hs) hx fun hm => ?_
      rcases List.mem_cons.1 hm with hm | hm
      · exact he hm
      · exact hn hm
  | case4 unfound b s untried stack hs ih =>
    rw [leave_skip hs] at hx ⊢
    exact ih h.skip hx hn

/-- An edge to a block that is still to be found is not forgotten, whether it is untried yet or
belongs to a block that is found on the way. -/
theorem closed_leave (g : FlowGraph) (stack : List Frame) {t : BlockId} (ht : t ∈ unfound) :
    (∀ f ∈ stack, t ∈ f.untried → t ∈ g.leave unfound stack) ∧
      ∀ x ∈ g.leave unfound stack, x ∉ stack.map (·.block) → g.Edge x t →
        t ∈ g.leave unfound stack := by
  induction unfound, stack using leave.induct g with
  | case1 unfound =>
    rw [leave]
    exact ⟨fun f hf => absurd hf List.not_mem_nil, fun x hx => absurd hx List.not_mem_nil⟩
  | case2 unfound b stack ih =>
    rw [leave_pop]
    obtain ⟨hu, hx⟩ := ih ht
    constructor
    · intro f hf hm
      rcases List.mem_cons.1 hf with rfl | hf
      · cases hm
      · exact List.mem_cons_of_mem _ (hu f hf hm)
    · intro x hm hn he
      rw [List.map_cons, List.mem_cons, not_or] at hn
      exact List.mem_cons_of_mem _ (hx x ((List.mem_cons.1 hm).resolve_left hn.1) hn.2 he)
  | case3 unfound b s untried stack hs ih =>
    rw [leave_push hs]
    by_cases he : t = s
    · have hm : t ∈ g.leave (others s unfound) (⟨s, g.outgoing s⟩ :: ⟨b, untried⟩ :: stack) :=
        mem_leave_of_mem_stack (he ▸ List.mem_cons_self)
      exact ⟨fun _ _ _ => hm, fun _ _ _ _ => hm⟩
    · obtain ⟨hu, hx⟩ := ih (mem_others.2 ⟨ht, he⟩)
      constructor
      · intro f hf hm
        rcases List.mem_cons.1 hf with rfl | hf
        · exact hu ⟨b, untried⟩ (by simp) ((List.mem_cons.1 hm).resolve_left he)
        · exact hu f (by simp [hf]) hm
      · intro x hm hn hxt
        by_cases hxs : x = s
        · exact hu ⟨s, g.outgoing s⟩ List.mem_cons_self (hxs ▸ hxt)
        · refine hx x hm (fun hk => ?_) hxt
          rcases List.mem_cons.1 hk with hk | hk
          · exact hxs hk
          · exact hn hk
  | case4 unfound b s untried stack hs ih =>
    rw [leave_skip hs]
    obtain ⟨hu, hx⟩ := ih ht
    refine ⟨fun f hf hm => ?_, hx⟩
    rcases List.mem_cons.1 hf with rfl | hf
    · have hne : t ≠ s := fun he => hs (he ▸ ht)
      exact hu ⟨b, untried⟩ List.mem_cons_self ((List.mem_cons.1 hm).resolve_left hne)
    · exact hu f (List.mem_cons_of_mem _ hf) hm

theorem Edge.mem_ids {a : BlockId} (h : g.Edge a b) : b ∈ g.ids := by
  obtain ⟨block, hb, hs | hh⟩ := edge_iff.1 h
  · simp only [ids, List.mem_append, List.mem_cons, List.mem_flatMap]
    exact .inl (.inr ⟨block, mem_of_block? hb, hs⟩)
  · obtain ⟨r, hr, -, he⟩ := mem_handlers.1 hh
    rw [ids, List.mem_append]
    exact .inr (List.mem_map.2 ⟨r, hr, he⟩)

theorem nodup_reversePostorder (g : FlowGraph) : g.reversePostorder.Nodup :=
  List.nodup_reverse.2 (nodup_leave (suspended_start g))

theorem entry_mem_reversePostorder (g : FlowGraph) : g.entry ∈ g.reversePostorder :=
  List.mem_reverse.2 (mem_leave_of_mem_stack List.mem_cons_self)

theorem mem_reversePostorder_of_edge {a : BlockId} (ha : a ∈ g.reversePostorder)
    (h : g.Edge a b) : b ∈ g.reversePostorder := by
  by_cases hb : b = g.entry
  · exact hb ▸ entry_mem_reversePostorder g
  · have hu : b ∈ others g.entry g.ids := mem_others.2 ⟨h.mem_ids, hb⟩
    rw [reversePostorder, List.mem_reverse] at ha ⊢
    obtain ⟨hs, hl⟩ := g.closed_leave [⟨g.entry, g.outgoing g.entry⟩] hu
    by_cases he : a = g.entry
    · exact hs _ List.mem_cons_self (he ▸ h)
    · exact hl a ha (by simpa using he) h

theorem exists_before_edge (hb : b ∈ g.reversePostorder) (hn : b ≠ g.entry) :
    ∃ a, g.Before a b ∧ g.Edge a b := by
  obtain ⟨a, ha, hs⟩ := edge_leave (suspended_start g) (List.mem_reverse.1 hb) (by simpa using hn)
  exact ⟨a, List.reverse_sublist.2 hs, ha⟩

theorem Before.right_mem {a : BlockId} (h : g.Before a b) : b ∈ g.reversePostorder :=
  h.subset (by simp)

theorem not_mem_visited {visited rest : List BlockId}
    (h : g.reversePostorder = visited ++ b :: rest) : b ∉ visited := by
  have hn := g.nodup_reversePostorder
  rw [h, List.nodup_middle, List.nodup_cons, List.mem_append, not_or] at hn
  exact hn.1.1

theorem before_iff_mem {visited rest : List BlockId} {a : BlockId}
    (h : g.reversePostorder = visited ++ b :: rest) : g.Before a b ↔ a ∈ visited := by
  have hn := g.nodup_reversePostorder
  rw [Before, h]
  rw [h, List.nodup_middle, List.nodup_cons, List.mem_append, not_or] at hn
  constructor
  · intro hs
    obtain ⟨l₁, l₂, he, h₁, h₂⟩ := List.sublist_append_iff.1 hs
    match l₁, he with
    | [], he =>
      subst he
      rcases List.cons_sublist_cons'.1 h₂ with h₂ | ⟨rfl, h₂⟩
      · exact absurd (h₂.subset (by simp)) hn.1.2
      · exact absurd (h₂.subset (by simp)) hn.1.2
    | [_], he =>
      cases he
      exact h₁.subset List.mem_cons_self
    | [_, _], he =>
      cases he
      exact h₁.subset List.mem_cons_self
  · intro ha
    exact (List.singleton_sublist.2 ha).append (List.singleton_sublist.2 List.mem_cons_self)

/-- What holds of the entry and goes over from earlier blocks along edges holds of every visited
block. -/
theorem reversePostorder_induction {P : BlockId → Prop} (entry : P g.entry)
    (step : ∀ a b, g.Before a b → g.Edge a b → P a → P b) : ∀ b ∈ g.reversePostorder, P b := by
  have key (visited : List BlockId) :
      ∀ rest, g.reversePostorder = visited ++ rest → ∀ b ∈ visited, P b := by
    induction visited using List.reverseRecOn with
    | nil => exact fun _ _ b hb => absurd hb List.not_mem_nil
    | append_singleton visited c ih =>
      intro rest h b hb
      rw [List.append_assoc, List.singleton_append] at h
      rcases List.mem_append.1 hb with hb | hb
      · exact ih _ h b hb
      · rw [List.mem_singleton] at hb
        subst b
        by_cases he : c = g.entry
        · exact he ▸ entry
        · obtain ⟨a, ha, hac⟩ := exists_before_edge (h ▸ by simp) he
          exact step a c ha hac (ih _ h a ((before_iff_mem h).1 ha))
  exact key g.reversePostorder [] (by simp)

/-- The traversal visits exactly the blocks that the entry leads to. -/
theorem mem_reversePostorder_iff : b ∈ g.reversePostorder ↔ g.Reaches g.entry b := by
  constructor
  · exact reversePostorder_induction .refl (fun a b _ h ih => ReflTransGen.tail ih h) b
  · intro h
    induction h with
    | refl => exact entry_mem_reversePostorder g
    | tail _ h ih => exact mem_reversePostorder_of_edge ih h

end CapabilityFlow.FlowGraph
