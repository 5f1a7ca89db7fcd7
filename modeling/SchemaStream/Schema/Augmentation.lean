import SchemaStream.Schema.Auxiliary
import SchemaStream.Schema.Document

/-!
# Augmentation

Properties that ask for it get auxiliary siblings: a reasoning field right before them, a
source quote right after them.  An object that asks for reasoning about itself gets it as
its first property, if it fills a slot: the root, or the item of an array.  A union hands
its slot on to its members only if exactly one of them is an object.

Quote markers are used up on the way.  References are not followed.
-/

namespace SchemaStream

namespace Schema

def rootSlot : String := "root"

def itemSlot : String := "item"

def textField (description : String) : Schema :=
  { ofType .string with description := some description }

def quoteDescription (name : String) : String :=
  "Verbatim quote from the source document that supports the value of `" ++ name ++ "`."

/-- The prompt of the node itself, else that of the first union member that has one. -/
def reasoningPrompt? (schema : Schema) : Option String :=
  (schema.prompt? .reasoningPrompt).or
    (schema.unionMembers.findSome? fun member => member.prompt? .reasoningPrompt)

/-- The reasoning field that a property gets, unless there is a property of its name. -/
def reasoningSibling? (existing : List String) (name : String) (schema : Schema) :
    Option (String × Schema) :=
  let field := Auxiliary.reasoningField name
  if existing.contains field then none
  else schema.reasoningPrompt?.map fun prompt => (field, textField prompt)

/-- The quote that a property gets; only a leaf can be quoted. -/
def sourceSibling? (existing : List String) (name : String) (schema : Schema) :
    Option (String × Schema) :=
  let field := Auxiliary.sourceField name
  if schema.wantsSourceQuote && schema.isLeaf && !existing.contains field then
    some (field, textField (quoteDescription name))
  else none

/-- The list with a name put before the first `anchor`, or at its end. -/
def insertBefore (anchor name : String) : List String → List String
  | [] => [name]
  | first :: rest =>
      if first = anchor then name :: first :: rest else first :: insertBefore anchor name rest

def insertAfter (anchor name : String) : List String → List String
  | [] => [name]
  | first :: rest =>
      if first = anchor then first :: name :: rest else first :: insertAfter anchor name rest

/-- The siblings of a required property are required with it. -/
def requireSiblings (existing : List String) (required : List String)
    (property : String × Schema) : List String :=
  let (name, schema) := property
  if Auxiliary.isAuxiliary name || !required.contains name then required
  else
    let required := match reasoningSibling? existing name schema with
      | some sibling => insertBefore name sibling.1 required
      | none => required
    match sourceSibling? existing name schema with
    | some sibling => insertAfter name sibling.1 required
    | none => required

/-- The reasoning field of the object itself. -/
def selfReasoning? (slot : Option String) (schema : Schema) : Option (String × Schema) := do
  let field := Auxiliary.reasoningField (← slot)
  let prompt ← schema.prompt? .reasoningPrompt
  if Members.has schema.properties field then none else some (field, textField prompt)

mutual

def augmentNode (slot : Option String) (schema : Schema) : Schema :=
  match schema with
  | { types, typesListed, properties, required, items, anyOf, oneOf, allOf, enumeration,
      reference, description, extensions, keywords } =>
    let node : Schema :=
      { types, typesListed, properties, required, items, anyOf, oneOf, allOf, enumeration,
        reference, description, extensions, keywords }
    let objectMembers := node.unionMembers.countP describesObject
    let memberSlot := if node.describesObject || objectMembers != 1 then none else slot
    let augmented : Schema :=
      { node with
        items := augmentItems items
        anyOf := augmentMembers memberSlot anyOf
        oneOf := augmentMembers memberSlot oneOf }
    if node.describesObject then
      let self := (node.selfReasoning? slot).toList
      let existing := Members.keys (self ++ properties)
      { augmented with
        properties := self ++ augmentProperties existing properties
        required :=
          properties.foldl (requireSiblings existing) (Members.keys self ++ required) }
    else augmented

/-- Each property between its siblings. -/
def augmentProperties (existing : List String) :
    List (String × Schema) → List (String × Schema)
  | [] => []
  | (name, schema) :: rest =>
      let child := augmentNode none schema
      let property :=
        if Auxiliary.isAuxiliary name then [(name, child)]
        else
          (reasoningSibling? existing name schema).toList ++
            [(name, child.withoutMarker .sourceQuote)] ++
            (sourceSibling? existing name schema).toList
      property ++ augmentProperties existing rest

/-- A leaf item has no siblings, so its marker goes without a quote. -/
def augmentItems : Option Schema → Option Schema
  | none => none
  | some schema =>
      let item := augmentNode (some itemSlot) schema
      some (if schema.isLeaf then item.withoutMarker .sourceQuote else item)

def augmentMembers (slot : Option String) : List Schema → List Schema
  | [] => []
  | schema :: rest => augmentNode slot schema :: augmentMembers slot rest

end

theorem augmentItems_eq_map (items : Option Schema) :
    augmentItems items = items.map fun schema =>
      let item := augmentNode (some itemSlot) schema
      if schema.isLeaf then item.withoutMarker .sourceQuote else item := by
  cases items <;> rfl

theorem augmentMembers_eq_map (slot : Option String) (members : List Schema) :
    augmentMembers slot members = members.map (augmentNode slot) := by
  induction members with
  | nil => rfl
  | cons member rest ih => rw [augmentMembers, ih, List.map_cons]

end Schema

def Document.augment (document : Document) : Document :=
  document.modifySchema fun schema => schema.augmentNode (some Schema.rootSlot)

end SchemaStream
