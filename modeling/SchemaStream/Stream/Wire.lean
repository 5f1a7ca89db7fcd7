import SchemaStream.Json.Record
import SchemaStream.Json.Printer
import SchemaStream.Stream.Delta

/-!
# Chunks and states as JSON

Every part of a chunk may be left out or null; a state must be complete but for its key
mapping.  Each reader takes the number of brackets, `room`, that may be open at once in what
it reads; only the values of flat maps can be nested so deep that it matters.
-/

namespace SchemaStream

namespace FinishReason

def ofName : String → FinishReason
  | "stop" => .stop
  | "length" => .length
  | "content_filter" => .contentFilter
  | _ => .other

def name : FinishReason → String
  | .stop => "stop"
  | .length => "length"
  | .contentFilter => "content_filter"
  | .other => "other"

/-- A name, or an object whose only member has that name and is null. -/
def ofWritten? : Written → Option FinishReason
  | .leaf (some (.string name)) => some (ofName name)
  | .object [(some name, tree)] => if tree.null? then some (ofName name) else none
  | _ => none

def ofJson? (value : Json) : Option FinishReason := ofWritten? (Written.ofJson value)

end FinishReason

namespace KeyMapping

def ofWritten? (tree : Written) : Option KeyMapping :=
  tree.map? (Written.optional? Written.string?)

def ofJson? (value : Json) : Option KeyMapping := ofWritten? (Written.ofJson value)

def toJson (mapping : KeyMapping) : Json :=
  .object (Members.mapValues (fun target => (target.map Json.string).getD .null) mapping)

end KeyMapping

namespace Delta

def names : List String :=
  ["content", "flat_parsed", "flat_likelihoods", "flat_deleted_keys", "is_valid_json",
    "key_mapping"]

def flat? (room : Nat) : Written → Option FlatMap := Written.map? (Written.value? (room - 1))

def ofWritten? (room : Nat) (tree : Written) : Option Delta := do
  match ← tree.fields? names with
  | [content, parsed, likelihoods, deleted, validJson, keyMapping] =>
      let flatOr := Written.fieldOr [] (Written.orNull? [] (flat? (room - 1)))
      return {
        content := ← Written.fieldOr "" (Written.orNull? "" Written.string?) content
        parsed := ← flatOr parsed
        likelihoods := ← flatOr likelihoods
        deleted :=
          ← Written.fieldOr [] (Written.orNull? [] (Written.list? Written.string?)) deleted
        validJson := ← Written.fieldOr false (Written.orNull? false Written.bool?) validJson
        keyMapping := ← Written.fieldOr none (Written.optional? KeyMapping.ofWritten?) keyMapping }
  | _ => none

def ofJson? (value : Json) : Option Delta :=
  let tree := Written.ofJson value
  ofWritten? tree.depth tree

def toJson (delta : Delta) : Json :=
  .object ([("content", .string delta.content), ("flat_parsed", .object delta.parsed),
    ("flat_likelihoods", .object delta.likelihoods),
    ("flat_deleted_keys", .strings delta.deleted), ("is_valid_json", .bool delta.validJson)] ++
    (delta.keyMapping.map fun mapping => ("key_mapping", mapping.toJson)).toList)

end Delta

namespace Choice

def ofWritten? (room : Nat) (tree : Written) : Option Choice := do
  match ← tree.fields? ["delta", "finish_reason"] with
  | [delta, finish] =>
      return {
        delta := ← Written.fieldOr {} (Written.orNull? {} (Delta.ofWritten? (room - 1))) delta
        finish := ← Written.fieldOr none (Written.optional? FinishReason.ofWritten?) finish }
  | _ => none

def toJson (choice : Choice) : Json :=
  .object (("delta", choice.delta.toJson) ::
    (choice.finish.map fun reason => ("finish_reason", .string reason.name)).toList)

end Choice

namespace Chunk

def ofWritten? (room : Nat) (tree : Written) : Option Chunk := do
  match ← tree.fields? ["choices"] with
  | [choices] =>
      let choice? := Choice.ofWritten? (room - 2)
      return {
        choices := ← Written.fieldOr [] (Written.orNull? [] (Written.list? choice?)) choices }
  | _ => none

def ofJson? (value : Json) : Option Chunk :=
  let tree := Written.ofJson value
  ofWritten? tree.depth tree

def ofText? (text : String) : Option Chunk :=
  Written.ofText? text >>= ofWritten? Written.nestingLimit

def toJson (chunk : Chunk) : Json :=
  .object [("choices", .array (chunk.choices.map Choice.toJson))]

def text (chunk : Chunk) : String := chunk.toJson.text

end Chunk

namespace ChoiceState

def names : List String :=
  ["flat_parsed", "flat_likelihoods", "content", "is_valid_json", "key_mapping"]

def ofWritten? (room : Nat) (tree : Written) : Option ChoiceState := do
  match ← tree.fields? names with
  | [parsed, likelihoods, content, validJson, keyMapping] =>
      let keyMapping := match tree with
        | .array _ => keyMapping
        | _ => some (keyMapping.getD (.leaf (some .null)))
      return {
        parsed := ← parsed >>= Delta.flat? (room - 1)
        likelihoods := ← likelihoods >>= Delta.flat? (room - 1)
        content := ← content >>= Written.string?
        validJson := ← validJson >>= Written.bool?
        keyMapping := ← keyMapping >>= Written.optional? KeyMapping.ofWritten? }
  | _ => none

def ofJson? (value : Json) : Option ChoiceState :=
  let tree := Written.ofJson value
  ofWritten? tree.depth tree

def toJson (state : ChoiceState) : Json :=
  .object [("flat_parsed", .object state.parsed), ("flat_likelihoods", .object state.likelihoods),
    ("content", .string state.content), ("is_valid_json", .bool state.validJson),
    ("key_mapping", (state.keyMapping.map KeyMapping.toJson).getD .null)]

end ChoiceState

end SchemaStream
