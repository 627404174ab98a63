import CapabilityFlow.Codec.Diagnostic
import CapabilityFlow.Evaluation
import CapabilityFlow.FlowGraph

namespace CapabilityFlow

namespace Slot

def encode : Slot → Json
  | .localVar index => .obj [("Local", .nat index.toNat)]
  | .parameter index => .obj [("Parameter", .nat index.toNat)]
  | .this => .str "This"

def decode : Decoder Slot := Variant.decode [
  .of "Local" .localVar .word32,
  .of "Parameter" .parameter .word32,
  .unit "This" .this]

end Slot

namespace TypeArgument

mutual

def encode : TypeArgument → Json
  | .named name => .obj [("Named", .str name)]
  | .array element => .obj [("Array", element.encode)]
  | .parameter p => .obj [("GenericParameter", p.encode)]
  | .constructed definition arguments =>
    .obj [("Constructed", .obj
      [("definition", .str definition), ("arguments", .arr (encodeAll arguments))])]
  | .missing => .str "Error"

def encodeAll : List TypeArgument → List Json
  | [] => []
  | argument :: arguments => argument.encode :: encodeAll arguments

end

def instantiationFields (decode : Decoder TypeArgument) :
    Fields (Option String × Option (List TypeArgument)) (String × List TypeArgument) :=
  (Fields.required "definition" .text).and (.required "arguments" (.list decode))

def decodeWithin : Nat → Decoder TypeArgument
  | 0, _ => .error .malformed
  | depth + 1, j => Variant.decode [
    .of "Named" .named .text,
    .of "Array" .array (decodeWithin depth),
    .of "GenericParameter" .parameter GenericParameter.decode,
    .of "Constructed" (fun (definition, arguments) => .constructed definition arguments)
      ((instantiationFields (decodeWithin depth)).decode),
    .unit "Error" .missing] j

def decode : Decoder TypeArgument := fun j => decodeWithin (j.depth + 1) j

end TypeArgument

namespace Instantiation

def encode (i : Instantiation) : Json :=
  .obj [("definition", .str i.definition), ("arguments", .arr (TypeArgument.encodeAll i.arguments))]

def decode : Decoder Instantiation :=
  (TypeArgument.instantiationFields TypeArgument.decode).decodeAs
    fun (definition, arguments) => ⟨definition, arguments⟩

end Instantiation

namespace Operand

mutual

def encode : Operand → Json
  | .typeOf name => .obj [("TypeOf", .str name)]
  | .genericParameter p => .obj [("GenericParameter", p.encode)]
  | .literal text => .obj [("StringLiteral", .str text)]
  | .null => .str "Null"
  | .read slot => .obj [("Read", slot.encode)]
  | .load field => .obj [("LoadField", .str field)]
  | .invoke method receiver arguments typeArguments =>
    .obj [("Invoke", .obj
      [("method", .str method), ("instance", encodeOption receiver),
        ("arguments", .arr (encodeAll arguments)),
        ("type_arguments", .arr (TypeArgument.encodeAll typeArguments))])]
  | .baseTypeOf operand => .obj [("BaseTypeOf", operand.encode)]
  | .element array => .obj [("ArrayElement", array.encode)]
  | .nameOf text operand =>
    .obj [("NameOf", .obj [("text", .str text), ("operand", operand.encode)])]
  | .unmodelled description operands =>
    .obj [("Opaque", .obj
      [("description", .str description), ("operands", .arr (encodeAll operands))])]

def encodeOption : Option Operand → Json
  | none => .null
  | some operand => operand.encode

def encodeAll : List Operand → List Json
  | [] => []
  | operand :: operands => operand.encode :: encodeAll operands

end

def decodeWithin : Nat → Decoder Operand
  | 0, _ => .error .malformed
  | depth + 1, j => Variant.decode [
    .of "TypeOf" .typeOf .text,
    .of "GenericParameter" .genericParameter GenericParameter.decode,
    .of "StringLiteral" .literal .text,
    .unit "Null" .null,
    .of "Read" .read Slot.decode,
    .of "LoadField" .load .text,
    .of "Invoke"
      (fun (method, receiver, arguments, typeArguments) =>
        .invoke method receiver arguments typeArguments)
      (((Fields.required "method" .text).and
        ((Fields.optional "instance" none (.option (decodeWithin depth))).and
          ((Fields.optional "arguments" [] (.list (decodeWithin depth))).and
            (.optional "type_arguments" [] (.list TypeArgument.decode))))).decode),
    .of "BaseTypeOf" .baseTypeOf (decodeWithin depth),
    .of "ArrayElement" .element (decodeWithin depth),
    .of "NameOf" (fun (text, operand) => .nameOf text operand)
      (((Fields.required "text" .text).and (.required "operand" (decodeWithin depth))).decode),
    .of "Opaque" (fun (description, operands) => .unmodelled description operands)
      (((Fields.required "description" .text).and
        (.optional "operands" [] (.list (decodeWithin depth)))).decode)] j

def decode : Decoder Operand := fun j => decodeWithin (j.depth + 1) j

end Operand

namespace Operation

def encode : Operation → Json
  | .assign slot value =>
    .obj [("Assign", .obj [("slot", slot.encode), ("value", value.encode)])]
  | .evaluate operand => .obj [("Evaluate", operand.encode)]
  | .store field value =>
    .obj [("StoreField", .obj [("field", .str field), ("value", value.encode)])]
  | .ret value => .obj [("Return", Operand.encodeOption value)]
  | .instantiate i => .obj [("Instantiate", i.encode)]
  | .throw exception => .obj [("Throw", Operand.encodeOption exception)]
  | .defineLambda => .str "DefineLambda"
  | .defineLocalFunction => .str "DefineLocalFunction"
  | .yield value => .obj [("Yield", Operand.encodeOption value)]
  | .nop => .str "Nop"

def decode : Decoder Operation := Variant.decode [
  .of "Assign" (fun (slot, value) => .assign slot value)
    (((Fields.required "slot" Slot.decode).and (.required "value" Operand.decode)).decode),
  .of "Evaluate" .evaluate Operand.decode,
  .of "StoreField" (fun (field, value) => .store field value)
    (((Fields.required "field" .text).and (.required "value" Operand.decode)).decode),
  .of "Return" .ret (.option Operand.decode),
  .of "Instantiate" .instantiate Instantiation.decode,
  .of "Throw" .throw (.option Operand.decode),
  .unit "DefineLambda" .defineLambda,
  .unit "DefineLocalFunction" .defineLocalFunction,
  .of "Yield" .yield (.option Operand.decode),
  .unit "Nop" .nop]

end Operation

namespace Statement

def encode (s : Statement) : Json :=
  .obj [("operation", s.operation.encode), ("location", s.location.encode)]

def decode : Decoder Statement :=
  ((Fields.required "operation" Operation.decode).and
    (.optional "location" {} Location.decode)).decodeAs
    fun (operation, location) => ⟨operation, location⟩

end Statement

namespace BlockId

def encode (b : BlockId) : Json := .nat b.index.toNat

def decode : Decoder BlockId := fun j => BlockId.mk <$> Decoder.word64 j

end BlockId

namespace BasicBlock

def encode (b : BasicBlock) : Json :=
  .obj [("id", b.id.encode), ("statements", .arr (b.statements.map Statement.encode)),
    ("predecessors", .arr (b.predecessors.map BlockId.encode)),
    ("successors", .arr (b.successors.map BlockId.encode))]

def decode : Decoder BasicBlock :=
  ((Fields.required "id" BlockId.decode).and
    ((Fields.optional "statements" [] (.list Statement.decode)).and
      ((Fields.optional "predecessors" [] (.list BlockId.decode)).and
        (.optional "successors" [] (.list BlockId.decode))))).decodeAs
    fun (id, statements, predecessors, successors) => ⟨id, statements, predecessors, successors⟩

end BasicBlock

namespace RegionKind

def encode : RegionKind → Json
  | .caught => .str "Catch"
  | .ensured => .str "Finally"

def decode : Decoder RegionKind := Variant.decode [.unit "Catch" .caught, .unit "Finally" .ensured]

end RegionKind

namespace Region

def encode (r : Region) : Json :=
  .obj [("kind", r.kind.encode), ("protected", .arr (r.protectedBlocks.map BlockId.encode)),
    ("handler", r.handler.encode)]

def decode : Decoder Region :=
  ((Fields.required "kind" RegionKind.decode).and
    ((Fields.required "protected" (.list BlockId.decode)).and
      (.required "handler" BlockId.decode))).decodeAs
    fun (kind, protectedBlocks, handler) => ⟨kind, protectedBlocks, handler⟩

end Region

namespace FlowGraph

def encode (g : FlowGraph) : Json :=
  .obj [("blocks", .arr (g.blocks.map BasicBlock.encode)),
    ("regions", .arr (g.regions.map Region.encode)), ("entry", g.entry.encode)]

def decode : Decoder FlowGraph :=
  ((Fields.required "blocks" (.list BasicBlock.decode)).and
    ((Fields.optional "regions" [] (.list Region.decode)).and
      (.optional "entry" ⟨0⟩ BlockId.decode))).decodeAs
    fun (blocks, regions, entry) => ⟨blocks, regions, entry⟩

end FlowGraph

namespace MethodBody

def encode (m : MethodBody) : Json :=
  .obj [("method", .str m.method), ("parameter_count", .nat m.parameterCount.toNat),
    ("has_this", .bool m.hasThis), ("is_async", .bool m.isAsync), ("body", m.graph.encode)]

def decode : Decoder MethodBody :=
  ((Fields.required "method" .text).and
    ((Fields.optional "parameter_count" 0 .word32).and
      ((Fields.optional "has_this" false .bool).and
        ((Fields.optional "is_async" false .bool).and
          (.required "body" FlowGraph.decode))))).decodeAs
    fun (method, parameterCount, hasThis, isAsync, graph) =>
      ⟨method, parameterCount, hasThis, isAsync, graph⟩

end MethodBody

end CapabilityFlow
