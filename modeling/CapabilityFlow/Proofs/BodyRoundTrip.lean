import CapabilityFlow.Analysis
import CapabilityFlow.Codec.MethodBody
import CapabilityFlow.Proofs.RoundTrip

namespace CapabilityFlow

open Decoder Fields Variant

theorem Location.reads (l : Location) : decode.Reads l.encode l := by
  have hline := reads_required "line" (reads_word32 l.line)
  have hcolumn := reads_required "column" (reads_word32 l.column)
  exact (hline.cons hcolumn rfl).decodeAs rfl

theorem GenericParameter.reads (p : GenericParameter) : decode.Reads p.encode p := by
  have howner := reads_required "owner" (reads_text p.owner)
  have hname := reads_required "name" (reads_text p.name)
  exact (howner.cons hname rfl).decodeAs rfl

theorem Slot.reads (s : Slot) : decode.Reads s.encode s := by
  cases s with
  | localVar index => exact reads_of rfl (reads_word32 index) rfl
  | parameter index => exact reads_of rfl (reads_word32 index) rfl
  | this => exact reads_unit rfl

namespace TypeArgument

mutual

theorem reads_within : ∀ (a : TypeArgument) (n : Nat), a.encode.depth < n →
    (decodeWithin n).Reads a.encode a
  | .named name, n + 1, _ => reads_of rfl (reads_text name) rfl
  | .array element, n + 1, h => by
    simp only [encode, Json.depth, Json.depthOfEntries] at h
    have helement := reads_within element n (by omega)
    exact reads_of rfl helement rfl
  | .parameter p, n + 1, _ => reads_of rfl p.reads rfl
  | .constructed definition arguments, n + 1, h => by
    simp only [encode, Json.depth, Json.depthOfEntries] at h
    have hdefinition := reads_required "definition" (reads_text definition)
    have harguments := reads_required "arguments"
      (reads_list_of_mapM (reads_all_within arguments n (by omega)))
    exact reads_of rfl (hdefinition.cons harguments rfl).decode rfl
  | .missing, n + 1, _ => reads_unit rfl

theorem reads_all_within : ∀ (as : List TypeArgument) (n : Nat),
    Json.depthOfItems (encodeAll as) < n → (encodeAll as).mapM (decodeWithin n) = .ok as
  | [], _, _ => rfl
  | a :: as, n, h => by
    simp only [encodeAll, Json.depthOfItems] at h
    have ha := reads_within a n (by omega)
    exact mapM_eq_ok_cons ha.eq_ok (reads_all_within as n (by omega))

end

theorem encodeAll_eq_map (as : List TypeArgument) : encodeAll as = as.map encode := by
  induction as with
  | nil => rfl
  | cons a as ih => rw [encodeAll, ih, List.map_cons]

theorem reads (a : TypeArgument) : decode.Reads a.encode a := by
  have h := reads_within a _ (Nat.lt_succ_self a.encode.depth)
  exact ⟨h.eq_ok, h.ne_flawed⟩

theorem reads_all (as : List TypeArgument) : (list decode).Reads (.arr (encodeAll as)) as := by
  rw [encodeAll_eq_map]
  exact reads_list fun a _ => a.reads

end TypeArgument

theorem Instantiation.reads (i : Instantiation) : decode.Reads i.encode i := by
  have hdefinition := reads_required "definition" (reads_text i.definition)
  have harguments := reads_required "arguments" (TypeArgument.reads_all i.arguments)
  exact (hdefinition.cons harguments rfl).decodeAs rfl

namespace Operand

theorem encode_ne_null (o : Operand) : o.encode ≠ .null := by
  cases o <;> nofun

mutual

theorem reads_within : ∀ (o : Operand) (n : Nat), o.encode.depth < n →
    (decodeWithin n).Reads o.encode o
  | .typeOf name, n + 1, _ => reads_of rfl (reads_text name) rfl
  | .genericParameter p, n + 1, _ => reads_of rfl p.reads rfl
  | .literal text, n + 1, _ => reads_of rfl (reads_text text) rfl
  | .null, n + 1, _ => reads_unit rfl
  | .read slot, n + 1, _ => reads_of rfl slot.reads rfl
  | .load field, n + 1, _ => reads_of rfl (reads_text field) rfl
  | .invoke method receiver arguments typeArguments, n + 1, h => by
    simp only [encode, Json.depth, Json.depthOfEntries] at h
    have hmethod := reads_required "method" (reads_text method)
    have hreceiver := reads_optional "instance" none (reads_option_within receiver n (by omega))
    have harguments := reads_optional "arguments" []
      (reads_list_of_mapM (reads_all_within arguments n (by omega)))
    have htypes := reads_optional "type_arguments" [] (TypeArgument.reads_all typeArguments)
    have hfields := hmethod.cons (hreceiver.cons (harguments.cons htypes rfl) rfl) rfl
    exact reads_of rfl hfields.decode rfl
  | .baseTypeOf operand, n + 1, h => by
    simp only [encode, Json.depth, Json.depthOfEntries] at h
    exact reads_of rfl (reads_within operand n (by omega)) rfl
  | .element array, n + 1, h => by
    simp only [encode, Json.depth, Json.depthOfEntries] at h
    exact reads_of rfl (reads_within array n (by omega)) rfl
  | .nameOf text operand, n + 1, h => by
    simp only [encode, Json.depth, Json.depthOfEntries] at h
    have htext := reads_required "text" (reads_text text)
    have hoperand := reads_required "operand" (reads_within operand n (by omega))
    exact reads_of rfl (htext.cons hoperand rfl).decode rfl
  | .unmodelled description operands, n + 1, h => by
    simp only [encode, Json.depth, Json.depthOfEntries] at h
    have hdescription := reads_required "description" (reads_text description)
    have hoperands := reads_optional "operands" []
      (reads_list_of_mapM (reads_all_within operands n (by omega)))
    exact reads_of rfl (hdescription.cons hoperands rfl).decode rfl

theorem reads_option_within : ∀ (o : Option Operand) (n : Nat), (encodeOption o).depth < n →
    (option (decodeWithin n)).Reads (encodeOption o) o
  | none, _, _ => reads_none _
  | some operand, n, h => (reads_within operand n h).some operand.encode_ne_null

theorem reads_all_within : ∀ (os : List Operand) (n : Nat),
    Json.depthOfItems (encodeAll os) < n → (encodeAll os).mapM (decodeWithin n) = .ok os
  | [], _, _ => rfl
  | operand :: operands, n, h => by
    simp only [encodeAll, Json.depthOfItems] at h
    have hoperand := reads_within operand n (by omega)
    exact mapM_eq_ok_cons hoperand.eq_ok (reads_all_within operands n (by omega))

end

theorem reads (o : Operand) : decode.Reads o.encode o := by
  have h := reads_within o _ (Nat.lt_succ_self o.encode.depth)
  exact ⟨h.eq_ok, h.ne_flawed⟩

theorem reads_encodeOption (o : Option Operand) : (option decode).Reads (encodeOption o) o := by
  cases o with
  | none => exact reads_none _
  | some operand => exact operand.reads.some operand.encode_ne_null

end Operand

theorem Operation.reads (operation : Operation) : decode.Reads operation.encode operation := by
  cases operation with
  | assign slot value =>
    have hslot := reads_required "slot" slot.reads
    have hvalue := reads_required "value" value.reads
    exact reads_of rfl (hslot.cons hvalue rfl).decode rfl
  | evaluate operand => exact reads_of rfl operand.reads rfl
  | store field value =>
    have hfield := reads_required "field" (reads_text field)
    have hvalue := reads_required "value" value.reads
    exact reads_of rfl (hfield.cons hvalue rfl).decode rfl
  | ret value => exact reads_of rfl (Operand.reads_encodeOption value) rfl
  | instantiate i => exact reads_of rfl i.reads rfl
  | throw exception => exact reads_of rfl (Operand.reads_encodeOption exception) rfl
  | defineLambda | defineLocalFunction | nop => exact reads_unit rfl
  | yield value => exact reads_of rfl (Operand.reads_encodeOption value) rfl

theorem Statement.reads (s : Statement) : decode.Reads s.encode s := by
  have hoperation := reads_required "operation" s.operation.reads
  have hlocation := reads_optional "location" {} s.location.reads
  exact (hoperation.cons hlocation rfl).decodeAs rfl

theorem BlockId.reads (b : BlockId) : decode.Reads b.encode b :=
  (reads_word64 b.index).map BlockId.mk

theorem BlockId.reads_all (ids : List BlockId) : (list decode).Reads (.arr (ids.map encode)) ids :=
  reads_list fun b _ => b.reads

theorem BasicBlock.reads (b : BasicBlock) : decode.Reads b.encode b := by
  have hid := reads_required "id" b.id.reads
  have hstatements := reads_optional "statements" []
    (reads_list fun s (_ : s ∈ b.statements) => s.reads)
  have hpredecessors := reads_optional "predecessors" [] (BlockId.reads_all b.predecessors)
  have hsuccessors := reads_optional "successors" [] (BlockId.reads_all b.successors)
  exact (hid.cons (hstatements.cons (hpredecessors.cons hsuccessors rfl) rfl) rfl).decodeAs rfl

theorem RegionKind.reads (kind : RegionKind) : decode.Reads kind.encode kind := by
  cases kind <;> exact reads_unit rfl

theorem Region.reads (r : Region) : decode.Reads r.encode r := by
  have hkind := reads_required "kind" r.kind.reads
  have hprotected := reads_required "protected" (BlockId.reads_all r.protectedBlocks)
  have hhandler := reads_required "handler" r.handler.reads
  exact (hkind.cons (hprotected.cons hhandler rfl) rfl).decodeAs rfl

theorem FlowGraph.reads (g : FlowGraph) : decode.Reads g.encode g := by
  have hblocks := reads_required "blocks" (reads_list fun b (_ : b ∈ g.blocks) => b.reads)
  have hregions := reads_optional "regions" [] (reads_list fun r (_ : r ∈ g.regions) => r.reads)
  have hentry := reads_optional "entry" ⟨0⟩ g.entry.reads
  exact (hblocks.cons (hregions.cons hentry rfl) rfl).decodeAs rfl

namespace MethodBody

theorem reads (m : MethodBody) : decode.Reads m.encode m := by
  have hmethod := reads_required "method" (reads_text m.method)
  have hparameters := reads_optional "parameter_count" 0 (reads_word32 m.parameterCount)
  have hthis := reads_optional "has_this" false (reads_bool m.hasThis)
  have hasync := reads_optional "is_async" false (reads_bool m.isAsync)
  have hbody := reads_required "body" m.graph.reads
  have hfields := hmethod.cons (hparameters.cons (hthis.cons (hasync.cons hbody rfl) rfl) rfl) rfl
  exact hfields.decodeAs rfl

/-- A body that is written as JSON is read back as it was, with the same results of its analysis.
Different bodies are written in different ways, and so are different operations, and an operand that
is absent and one that stands for null. -/
theorem body_restored (m : MethodBody) : decode m.encode = .ok m ∧
    (Function.Injective encode ∧ Function.Injective Operation.encode ∧
      Function.Injective Operand.encodeOption) ∧
    ∀ host options, (·.analyze host options) <$> decode m.encode =
      .ok (m.analyze host options) := by
  have hm : decode m.encode = .ok m := m.reads.eq_ok
  refine ⟨hm, ⟨?_, ?_, ?_⟩, ?_⟩
  · exact injective_of_reads reads
  · exact injective_of_reads Operation.reads
  · exact injective_of_reads Operand.reads_encodeOption
  · intro host options
    rw [hm]
    rfl

end MethodBody

end CapabilityFlow
