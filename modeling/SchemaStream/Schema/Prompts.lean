import SchemaStream.Flat.Key
import SchemaStream.Schema.Document

/-!
# Prompts

The root may carry a system prompt and every node below it a field prompt, filed under the
flat key of the values that the node describes.  The items of an array share one key, and
the members of a combinator have that of their node.
-/

namespace SchemaStream

structure Prompts where
  system : Option String
  fields : Members String
  deriving DecidableEq, Repr

namespace Prompts

def isEmpty (prompts : Prompts) : Bool := prompts.system.isNone && prompts.fields.isEmpty

def itemsSegment : String := "*"

end Prompts

namespace Schema

/-- The field prompt of a node, unless it stands at the root. -/
def ownFieldPrompt (key : String) (extensions : Members Json) : List (String × String) :=
  if key = "" then []
  else
    match Members.get? extensions Marker.fieldPrompt.name >>= Json.string? with
    | some prompt => [(key, prompt)]
    | none => []

mutual

/-- The field prompts at and below a node; keys may repeat. -/
def fieldPrompts (key : String) (schema : Schema) : List (String × String) :=
  match schema with
  | { properties, items, anyOf, oneOf, allOf, extensions, .. } =>
      ownFieldPrompt key extensions ++ propertyPrompts key properties ++ itemPrompts key items ++
        memberPrompts key anyOf ++ memberPrompts key oneOf ++ memberPrompts key allOf

def propertyPrompts (key : String) : List (String × Schema) → List (String × String)
  | [] => []
  | (name, schema) :: rest =>
      fieldPrompts (FlatKey.join key name) schema ++ propertyPrompts key rest

def itemPrompts (key : String) : Option Schema → List (String × String)
  | none => []
  | some schema => fieldPrompts (FlatKey.join key Prompts.itemsSegment) schema

def memberPrompts (key : String) : List Schema → List (String × String)
  | [] => []
  | schema :: rest => fieldPrompts key schema ++ memberPrompts key rest

end

theorem memberPrompts_eq_flatMap (key : String) (members : List Schema) :
    memberPrompts key members = members.flatMap (fieldPrompts key) := by
  induction members with
  | nil => rfl
  | cons member rest ih => rw [memberPrompts, ih, List.flatMap_cons]

theorem propertyPrompts_eq_flatMap (key : String) (properties : List (String × Schema)) :
    propertyPrompts key properties = properties.flatMap fun property =>
      fieldPrompts (FlatKey.join key property.1) property.2 := by
  induction properties with
  | nil => rfl
  | cons property rest ih => rw [propertyPrompts, ih, List.flatMap_cons]

end Schema

/-- Of several prompts for one key, the last counts. -/
def Document.prompts (document : Document) : Prompts :=
  { system := document.schema.prompt? .systemPrompt
    fields := Members.ofList (document.schema.fieldPrompts "") }

end SchemaStream
