import CapabilityFlow.FlowGraph
import CapabilityFlow.Proofs.ShadowedBlocks

namespace CapabilityFlow

def FlowGraph.Has (g : FlowGraph) (id : BlockId) : Prop := ∃ b, g.block? id = some b

instance (g : FlowGraph) (id : BlockId) : Decidable (g.Has id) :=
  decidable_of_iff (g.block? id).isSome Option.isSome_iff_exists

def Region.FitsIn (r : Region) (g : FlowGraph) : Prop :=
  g.Has r.handler ∧ r.protectedBlocks ≠ [] ∧ ∀ p ∈ r.protectedBlocks, g.Has p

instance (r : Region) (g : FlowGraph) : Decidable (r.FitsIn g) :=
  inferInstanceAs (Decidable
    (g.Has r.handler ∧ r.protectedBlocks ≠ [] ∧ ∀ p ∈ r.protectedBlocks, g.Has p))

namespace FlowGraph

def successorsOf (g : FlowGraph) (id : BlockId) : List BlockId :=
  (g.block? id).elim [] (·.successors)

def predecessorsOf (g : FlowGraph) (id : BlockId) : List BlockId :=
  (g.block? id).elim [] (·.predecessors)

/-- One call of a builder. -/
inductive Edit where
  | newBlock
  | addEdge (source target : BlockId)
  | push (id : BlockId) (statement : Statement)
  | addRegion (region : Region)

namespace Edit

def isNewBlock : Edit → Bool
  | newBlock => true
  | _ => false

/-- Whether an edit is made for blocks that are there; only edges are asked for it. -/
def Allowed (b : Builder) : Edit → Prop
  | addEdge source target => b.graph.Has source ∧ b.graph.Has target
  | _ => True

instance (b : Builder) : (e : Edit) → Decidable (e.Allowed b)
  | addEdge source target => inferInstanceAs (Decidable (b.graph.Has source ∧ b.graph.Has target))
  | newBlock => .isTrue trivial
  | push _ _ => .isTrue trivial
  | addRegion _ => .isTrue trivial

end Edit

namespace Builder

variable {b : Builder} {edits : List Edit} {e : Edit} {i : Nat} {block : BasicBlock}

def edit (b : Builder) : Edit → Builder
  | .newBlock => b.newBlock.2
  | .addEdge source target => b.addEdge source target
  | .push id statement => b.push id statement
  | .addRegion region => b.addRegion region

def editAll (b : Builder) (edits : List Edit) : Builder := edits.foldl edit b

/-- Every edge joins two blocks that are there when it is added. -/
def Admits (b : Builder) : List Edit → Prop
  | [] => True
  | e :: edits => e.Allowed b ∧ (b.edit e).Admits edits

instance decidableAdmits (b : Builder) : (edits : List Edit) → Decidable (b.Admits edits)
  | [] => .isTrue trivial
  | e :: edits =>
    have := decidableAdmits (b.edit e) edits
    inferInstanceAs (Decidable (e.Allowed b ∧ (b.edit e).Admits edits))

def enterIf (p : Prop) [Decidable p] (id : BlockId) (ids : List BlockId) : List BlockId :=
  if p then enter id ids else ids

theorem mem_enterIf {p : Prop} [Decidable p] {id x : BlockId} {ids : List BlockId} :
    x ∈ enterIf p id ids ↔ x ∈ ids ∨ p ∧ x = id := by
  unfold enterIf enter
  split_ifs with hp hid
  · exact ⟨.inl, fun hx => hx.elim (fun hx => hx) fun hx => hx.2 ▸ hid⟩
  · simp [hp]
  · simp [hp]

theorem nodup_enterIf {p : Prop} [Decidable p] {id : BlockId} {ids : List BlockId}
    (h : ids.Nodup) : (enterIf p id ids).Nodup := by
  unfold enterIf enter
  split_ifs with hp hid
  · exact h
  · exact List.concat_eq_append ▸ h.concat hid
  · exact h

theorem length_change (id : BlockId) (f : BasicBlock → BasicBlock) :
    (b.change id f).graph.blocks.length = b.graph.blocks.length :=
  List.length_modify ..

theorem getElem?_change (id : BlockId) (f : BasicBlock → BasicBlock) :
    (b.change id f).graph.blocks[i]? =
      b.graph.blocks[i]?.map fun block => if id.index.toNat = i then f block else block :=
  List.getElem?_modify ..

/-- What some edits make of the block at a position. -/
structure Entered (edits : List Edit) (i : Nat) (block : BasicBlock) : Prop where
  id : block.id = ⟨UInt64.ofNat i⟩
  successors_nodup : block.successors.Nodup
  predecessors_nodup : block.predecessors.Nodup
  successors : ∀ t, t ∈ block.successors ↔ ∃ s, s.index.toNat = i ∧ .addEdge s t ∈ edits
  predecessors : ∀ s, s ∈ block.predecessors ↔ ∃ t, t.index.toNat = i ∧ .addEdge s t ∈ edits

theorem Entered.snoc (h : Entered edits i block) (he : ∀ s t, .addEdge s t ≠ e)
    (statements : List Statement) : Entered (edits ++ [e]) i { block with statements } := by
  refine ⟨h.id, h.successors_nodup, h.predecessors_nodup, ?_, ?_⟩
  · intro t
    simp only [h.successors, List.mem_append, List.mem_singleton, he, or_false]
  · intro s
    simp only [h.predecessors, List.mem_append, List.mem_singleton, he, or_false]

def joined (source target : BlockId) (i : Nat) (block : BasicBlock) : BasicBlock :=
  { block with
    successors := enterIf (source.index.toNat = i) target block.successors
    predecessors := enterIf (target.index.toNat = i) source block.predecessors }

theorem getElem?_addEdge (s t : BlockId) :
    (b.addEdge s t).graph.blocks[i]? = b.graph.blocks[i]?.map (joined s t i) := by
  rw [addEdge, getElem?_change, getElem?_change, Option.map_map]
  congr 1
  funext block
  by_cases hs : s.index.toNat = i <;> by_cases ht : t.index.toNat = i <;>
    simp [joined, enterIf, hs, ht]

theorem Entered.joined (h : Entered edits i block) (s t : BlockId) :
    Entered (edits ++ [.addEdge s t]) i (joined s t i block) := by
  have hmem (s' t' : BlockId) : Edit.addEdge s' t' ∈ edits ++ [Edit.addEdge s t] ↔
      .addEdge s' t' ∈ edits ∨ s' = s ∧ t' = t := by
    rw [List.mem_append, List.mem_singleton, Edit.addEdge.injEq]
  refine ⟨h.id, nodup_enterIf h.successors_nodup, nodup_enterIf h.predecessors_nodup, ?_, ?_⟩
  · intro x
    simp [Builder.joined, mem_enterIf, hmem, and_or_left, exists_or, h.successors]
  · intro x
    simp [Builder.joined, mem_enterIf, hmem, and_or_left, exists_or, h.predecessors]

/-- What some edits make of a builder that starts with one block. -/
structure Tracks (b : Builder) (edits : List Edit) : Prop where
  entry : b.graph.entry = ⟨0⟩
  length : b.graph.blocks.length = edits.countP Edit.isNewBlock + 1
  blocks : ∀ i block, b.graph.blocks[i]? = some block → Entered edits i block
  ends : ∀ s t, .addEdge s t ∈ edits →
    s.index.toNat < b.graph.blocks.length ∧ t.index.toNat < b.graph.blocks.length
  regions : ∀ r, r ∈ b.graph.regions ↔ .addRegion r ∈ edits

theorem tracks_start : start.Tracks [] := by
  refine ⟨rfl, rfl, ?_, nofun, by simp [start]⟩
  intro i block hblock
  cases i with
  | zero =>
    cases hblock
    exact ⟨rfl, .nil, .nil, by simp, by simp⟩
  | succ i => cases hblock

theorem Tracks.entered_next (h : b.Tracks edits) :
    Entered edits b.graph.blocks.length { id := ⟨UInt64.ofNat b.graph.blocks.length⟩ } := by
  refine ⟨rfl, .nil, .nil, fun t => ⟨nofun, ?_⟩, fun s => ⟨nofun, ?_⟩⟩
  · rintro ⟨s, hs, hmem⟩
    exact absurd hs (h.ends s t hmem).1.ne
  · rintro ⟨t, ht, hmem⟩
    exact absurd ht (h.ends s t hmem).2.ne

theorem lt_of_has {g : FlowGraph} {id : BlockId} (h : g.Has id) :
    id.index.toNat < g.blocks.length := by
  obtain ⟨block, hblock⟩ := h
  exact (List.getElem?_eq_some_iff.1 (block?_eq_some_iff.1 hblock).1).1

theorem Tracks.newBlock (h : b.Tracks edits) : b.newBlock.2.Tracks (edits ++ [.newBlock]) := by
  have hlength : b.newBlock.2.graph.blocks.length = b.graph.blocks.length + 1 :=
    List.length_append
  refine ⟨h.entry, ?_, ?_, ?_, ?_⟩
  · rw [hlength, h.length, List.countP_append]
    rfl
  · intro i block hblock
    have hnext : Entered (edits ++ [.newBlock]) b.graph.blocks.length _ :=
      h.entered_next.snoc (by simp) []
    simp only [Builder.newBlock, List.getElem?_append, List.getElem?_singleton] at hblock
    split_ifs at hblock with hi hlast
    · exact (h.blocks i block hblock).snoc (by simp) block.statements
    · cases hblock
      rwa [show i = b.graph.blocks.length by omega]
  · intro s t hmem
    obtain ⟨hs, ht⟩ := h.ends s t (by simpa using hmem)
    rw [hlength]
    exact ⟨hs.trans (Nat.lt_succ_self _), ht.trans (Nat.lt_succ_self _)⟩
  · intro r
    simp [← h.regions r, Builder.newBlock]

theorem Tracks.addEdge (h : b.Tracks edits) {s t : BlockId} (hs : b.graph.Has s)
    (ht : b.graph.Has t) : (b.addEdge s t).Tracks (edits ++ [.addEdge s t]) := by
  have hlength : (b.addEdge s t).graph.blocks.length = b.graph.blocks.length := by
    rw [Builder.addEdge, length_change, length_change]
  refine ⟨h.entry, ?_, ?_, ?_, ?_⟩
  · rw [hlength, h.length, List.countP_append]
    rfl
  · intro i block hblock
    rw [getElem?_addEdge, Option.map_eq_some_iff] at hblock
    obtain ⟨old, hold, rfl⟩ := hblock
    exact (h.blocks i old hold).joined s t
  · intro s' t' hmem
    rw [hlength]
    rw [List.mem_append, List.mem_singleton] at hmem
    obtain hmem | hnew := hmem
    · exact h.ends s' t' hmem
    · cases hnew
      exact ⟨lt_of_has hs, lt_of_has ht⟩
  · intro r
    simp [← h.regions r, Builder.addEdge, change]

theorem Tracks.push (h : b.Tracks edits) (id : BlockId) (statement : Statement) :
    (b.push id statement).Tracks (edits ++ [.push id statement]) := by
  have hlength : (b.push id statement).graph.blocks.length = b.graph.blocks.length :=
    length_change ..
  refine ⟨h.entry, ?_, ?_, ?_, ?_⟩
  · rw [hlength, h.length, List.countP_append]
    rfl
  · intro i block hblock
    rw [Builder.push, getElem?_change, Option.map_eq_some_iff] at hblock
    obtain ⟨old, hold, rfl⟩ := hblock
    split
    · exact (h.blocks i old hold).snoc (by simp) _
    · exact (h.blocks i old hold).snoc (by simp) old.statements
  · intro s t hmem
    rw [hlength]
    exact h.ends s t (by simpa using hmem)
  · intro r
    simp [← h.regions r, Builder.push, change]

theorem Tracks.addRegion (h : b.Tracks edits) (r : Region) :
    (b.addRegion r).Tracks (edits ++ [.addRegion r]) := by
  refine ⟨h.entry, ?_, ?_, ?_, ?_⟩
  · rw [List.countP_append]
    exact h.length
  · intro i block hblock
    exact (h.blocks i block hblock).snoc (by simp) block.statements
  · intro s t hmem
    exact h.ends s t (by simpa using hmem)
  · intro r'
    simp only [Builder.addRegion, List.mem_append, List.mem_singleton, h.regions,
      Edit.addRegion.injEq]

/-- What one edit preserves. -/
theorem Tracks.edit (h : b.Tracks edits) (he : e.Allowed b) :
    (b.edit e).Tracks (edits ++ [e]) := by
  cases e with
  | newBlock => exact h.newBlock
  | addEdge s t => exact h.addEdge he.1 he.2
  | push id statement => exact h.push id statement
  | addRegion r => exact h.addRegion r

theorem Tracks.editAll {later : List Edit} (h : b.Tracks edits) (hl : b.Admits later) :
    (b.editAll later).Tracks (edits ++ later) := by
  induction later generalizing b edits with
  | nil => rwa [List.append_nil]
  | cons e later ih =>
    have hrest := ih (h.edit hl.1) hl.2
    rwa [List.append_assoc, List.singleton_append] at hrest

theorem Tracks.block?_iff (h : b.Tracks edits) {id : BlockId} :
    b.graph.block? id = some block ↔ b.graph.blocks[id.index.toNat]? = some block := by
  rw [block?_eq_some_iff, and_iff_left_iff_imp]
  intro hblock
  rw [(h.blocks _ _ hblock).id, UInt64.ofNat_toNat]

theorem Tracks.entered (h : b.Tracks edits) {id : BlockId} (hb : b.graph.block? id = some block) :
    Entered edits id.index.toNat block :=
  h.blocks _ block (h.block?_iff.1 hb)

theorem Tracks.has_iff (h : b.Tracks edits) {id : BlockId} :
    b.graph.Has id ↔ id.index.toNat < b.graph.blocks.length := by
  refine ⟨lt_of_has, fun hlt => ?_⟩
  exact ⟨_, h.block?_iff.2 (List.getElem?_eq_getElem hlt)⟩

theorem Entered.addEdge_of_successor (h : Entered edits i block) {t : BlockId}
    (ht : t ∈ block.successors) : .addEdge block.id t ∈ edits := by
  obtain ⟨s, rfl, hmem⟩ := (h.successors t).1 ht
  rwa [h.id, UInt64.ofNat_toNat]

theorem Entered.addEdge_of_predecessor (h : Entered edits i block) {s : BlockId}
    (hs : s ∈ block.predecessors) : .addEdge s block.id ∈ edits := by
  obtain ⟨t, rfl, hmem⟩ := (h.predecessors s).1 hs
  rwa [h.id, UInt64.ofNat_toNat]

theorem Tracks.exists_successors (h : b.Tracks edits) {s t : BlockId}
    (hmem : .addEdge s t ∈ edits) : ∃ c, b.graph.block? s = some c ∧ t ∈ c.successors := by
  obtain ⟨c, hc⟩ := h.has_iff.2 (h.ends s t hmem).1
  exact ⟨c, hc, ((h.entered hc).successors t).2 ⟨s, rfl, hmem⟩⟩

theorem Tracks.exists_predecessors (h : b.Tracks edits) {s t : BlockId}
    (hmem : .addEdge s t ∈ edits) : ∃ c, b.graph.block? t = some c ∧ s ∈ c.predecessors := by
  obtain ⟨c, hc⟩ := h.has_iff.2 (h.ends s t hmem).2
  exact ⟨c, hc, ((h.entered hc).predecessors s).2 ⟨t, rfl, hmem⟩⟩

theorem Tracks.mem_successorsOf (h : b.Tracks edits) {s t : BlockId} :
    t ∈ b.graph.successorsOf s ↔ .addEdge s t ∈ edits := by
  unfold successorsOf
  refine ⟨fun ht => ?_, fun hmem => ?_⟩
  · cases hc : b.graph.block? s with
    | none => simp [hc] at ht
    | some c =>
      rw [hc] at ht
      exact id_of_block? hc ▸ (h.entered hc).addEdge_of_successor ht
  · obtain ⟨c, hc, ht⟩ := h.exists_successors hmem
    rwa [hc]

theorem Tracks.mem_predecessorsOf (h : b.Tracks edits) {s t : BlockId} :
    s ∈ b.graph.predecessorsOf t ↔ .addEdge s t ∈ edits := by
  unfold predecessorsOf
  refine ⟨fun hs => ?_, fun hmem => ?_⟩
  · cases hc : b.graph.block? t with
    | none => simp [hc] at hs
    | some c =>
      rw [hc] at hs
      exact id_of_block? hc ▸ (h.entered hc).addEdge_of_predecessor hs
  · obtain ⟨c, hc, hs⟩ := h.exists_predecessors hmem
    rwa [hc]

/-- Edges that join blocks never make a graph ill formed, only regions do. -/
theorem Tracks.wellFormed_iff (h : b.Tracks edits) :
    b.graph.WellFormed ↔ ∀ r, .addRegion r ∈ edits → r.FitsIn b.graph := by
  refine ⟨fun hw r hr => ?_, fun hr => ?_⟩
  · rw [← h.regions] at hr
    exact ⟨hw.handlers r hr, hw.nonempty r hr, hw.protects r hr⟩
  · have hat (block) (hblock : block ∈ b.graph.blocks) : ∃ i, Entered edits i block := by
      obtain ⟨i, hi⟩ := List.mem_iff_getElem?.1 hblock
      exact ⟨i, h.blocks i block hi⟩
    refine ⟨?_, ?_, ?_, ?_, ?_, ?_, ?_⟩
    · rw [h.entry]
      exact h.has_iff.2 (h.length ▸ Nat.succ_pos _)
    · intro block hblock
      obtain ⟨i, hi⟩ := List.mem_iff_getElem?.1 hblock
      have hlt : i < b.graph.blocks.length := (List.getElem?_eq_some_iff.1 hi).1
      rw [(h.blocks i block hi).id]
      refine h.has_iff.2 (lt_of_le_of_lt ?_ hlt)
      rw [UInt64.toNat_ofNat']
      exact Nat.mod_le _ _
    · intro block hblock t ht
      obtain ⟨i, hi⟩ := hat block hblock
      exact h.exists_predecessors (hi.addEdge_of_successor ht)
    · intro block hblock s hs
      obtain ⟨i, hi⟩ := hat block hblock
      exact h.exists_successors (hi.addEdge_of_predecessor hs)
    · exact fun r hmem => (hr r ((h.regions r).1 hmem)).1
    · exact fun r hmem => (hr r ((h.regions r).1 hmem)).2.1
    · exact fun r hmem => (hr r ((h.regions r).1 hmem)).2.2

theorem build_eq_ok {g : FlowGraph} : b.build = .ok g ↔ b.graph = g ∧ b.graph.WellFormed := by
  rw [← validate_eq_ok, build, Except.bind_eq_ok]
  refine ⟨?_, ?_⟩
  · rintro ⟨_, hvalid, hg⟩
    exact ⟨Except.ok.inj hg, hvalid⟩
  · rintro ⟨rfl, hvalid⟩
    exact ⟨(), hvalid, rfl⟩

/-- After any edits that join blocks only, each block bears the number of its position, both ends of
an edge list each other, once, exactly if the edge was added, and the graph can be built exactly if
each region protects some blocks and names only blocks that are there in the end. -/
theorem build_after_edits (edits : List Edit) (h : start.Admits edits) :
    let b := start.editAll edits
    (∀ (i : Nat) (block : BasicBlock), b.graph.blocks[i]? = some block →
      block.id = ⟨UInt64.ofNat i⟩ ∧ block.successors.Nodup ∧ block.predecessors.Nodup) ∧
    (∀ id, b.graph.block? id = b.graph.blocks[id.index.toNat]?) ∧
    (∀ id, b.graph.Has id ↔ id.index.toNat ≤ edits.countP Edit.isNewBlock) ∧
    (∀ s t, (t ∈ b.graph.successorsOf s ↔ s ∈ b.graph.predecessorsOf t) ∧
      (s ∈ b.graph.predecessorsOf t ↔ .addEdge s t ∈ edits)) ∧
    ∀ g, b.build = .ok g ↔ b.graph = g ∧ ∀ r, .addRegion r ∈ edits → r.FitsIn b.graph := by
  intro b
  have ht : b.Tracks edits := tracks_start.editAll h
  refine ⟨?_, ?_, ?_, ?_, ?_⟩
  · intro i block hblock
    have hi := ht.blocks i block hblock
    exact ⟨hi.id, hi.successors_nodup, hi.predecessors_nodup⟩
  · exact fun id => Option.ext fun block => ht.block?_iff
  · intro id
    rw [ht.has_iff, ht.length, Nat.lt_succ_iff]
  · intro s t
    rw [ht.mem_successorsOf, ht.mem_predecessorsOf]
    exact ⟨.rfl, .rfl⟩
  · intro g
    rw [build_eq_ok, ht.wellFormed_iff]

def guardedLoop : List Edit :=
  [.newBlock, .addEdge ⟨0⟩ ⟨1⟩, .addEdge ⟨0⟩ ⟨1⟩, .addEdge ⟨1⟩ ⟨1⟩,
    .addRegion ⟨.caught, [⟨1⟩], ⟨2⟩⟩,
    .newBlock, .push ⟨1⟩ ⟨.nop, {}⟩]

theorem build_after_guardedLoop :
    let b := start.editAll guardedLoop
    start.Admits guardedLoop ∧ b.graph.predecessorsOf ⟨1⟩ = [⟨0⟩, ⟨1⟩] ∧
      ⟨1⟩ ∈ b.graph.successorsOf ⟨1⟩ ∧ b.build = .ok b.graph := by
  intro b
  have h : start.Admits guardedLoop := by decide
  obtain ⟨-, -, -, hedges, hbuild⟩ := build_after_edits guardedLoop h
  have hloop : Edit.addEdge ⟨1⟩ ⟨1⟩ ∈ guardedLoop := by simp [guardedLoop]
  have hregions : ∀ r, .addRegion r ∈ guardedLoop → r.FitsIn b.graph := by
    intro r hr
    obtain rfl : r = ⟨.caught, [⟨1⟩], ⟨2⟩⟩ := by simpa [guardedLoop] using hr
    decide
  refine ⟨h, by decide, ?_, (hbuild b.graph).2 ⟨rfl, hregions⟩⟩
  exact (hedges ⟨1⟩ ⟨1⟩).1.2 ((hedges ⟨1⟩ ⟨1⟩).2.2 hloop)

end Builder

end FlowGraph

end CapabilityFlow
