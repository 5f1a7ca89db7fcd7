import SchemaStream.Schema.Expansion

/-!
# Schemas in an arena

The nodes of a document may also be kept side by side in an arena, each naming its children
by their places.  A node can then be changed where it stands, and nothing keeps two nodes
from naming one child.  Expansion in an arena overwrites a node that refers to a definition by
a copy of that definition, and a node that holds a single `allOf` member takes over the
children of the member, which nobody names any more.

A place may be empty, and children may lead back to their parent.  What follows places then has
no result, nor has what goes deeper than it is allowed to.
-/

namespace SchemaStream

/-! ## Nodes, whatever stands for their children -/

structure Shape (α : Type) where
  types : List JsonType := []
  typesListed : Bool := false
  properties : List (String × α) := []
  required : List String := []
  items : Option α := none
  anyOf : List α := []
  oneOf : List α := []
  allOf : List α := []
  enumeration : Option (List Json) := none
  reference : Option String := none
  description : Option String := none
  extensions : Members Json := []
  keywords : Members Json := []

namespace Shape

variable {α β : Type}

/-- Children in the order of `Schema.children`. -/
def children (shape : Shape α) : List α :=
  shape.properties.map Prod.snd ++ shape.items.toList ++ shape.anyOf ++ shape.oneOf ++ shape.allOf

/-- The node with others in the place of its children, in their order. -/
def withChildren (shape : Shape α) (children : List β) : Shape β :=
  let afterProperties := children.drop shape.properties.length
  let afterItems := afterProperties.drop shape.items.toList.length
  let afterAnyOf := afterItems.drop shape.anyOf.length
  { types := shape.types
    typesListed := shape.typesListed
    properties := (Members.keys shape.properties).zip children
    required := shape.required
    items := shape.items.bind fun _ => afterProperties.head?
    anyOf := afterItems.take shape.anyOf.length
    oneOf := afterAnyOf.take shape.oneOf.length
    allOf := afterAnyOf.drop shape.oneOf.length
    enumeration := shape.enumeration
    reference := shape.reference
    description := shape.description
    extensions := shape.extensions
    keywords := shape.keywords }

/-- The definition of one node under the metadata of another, as in `Schema.overlaid`. -/
def overlaid (definition : Shape α) (site : Shape β) : Shape α :=
  { definition with
    reference := none
    description := site.description.or definition.description
    extensions := Members.insertAll definition.extensions site.extensions
    keywords := Members.insertAll definition.keywords site.keywords }

/-- The member of an `allOf` folded into its node, as in `Schema.folded`. -/
def folded (shape member : Shape α) : Shape α :=
  { shape with
    types := if shape.types.isEmpty then member.types else shape.types
    typesListed := if shape.types.isEmpty then member.typesListed else shape.typesListed
    properties := Members.insertAllNew shape.properties member.properties
    required := member.required.foldl Schema.addRequired shape.required
    items := shape.items.or member.items
    anyOf := if shape.anyOf.isEmpty then member.anyOf else shape.anyOf
    oneOf := if shape.oneOf.isEmpty then member.oneOf else shape.oneOf
    allOf := []
    enumeration := shape.enumeration.or member.enumeration
    description := shape.description.or member.description
    extensions := Members.insertAllNew shape.extensions member.extensions
    keywords := Members.insertAllNew shape.keywords member.keywords }

/-- The schema whose root has this shape. -/
def schema (shape : Shape Schema) : Schema :=
  { types := shape.types
    typesListed := shape.typesListed
    properties := shape.properties
    required := shape.required
    items := shape.items
    anyOf := shape.anyOf
    oneOf := shape.oneOf
    allOf := shape.allOf
    enumeration := shape.enumeration
    reference := shape.reference
    description := shape.description
    extensions := shape.extensions
    keywords := shape.keywords }

/-- The node with empty schemas for its children. -/
def blank (shape : Shape α) : Schema :=
  (shape.withChildren (shape.children.map fun _ => ({} : Schema))).schema

end Shape

/-- The shape of the root of a schema. -/
def Schema.shape (schema : Schema) : Shape Schema :=
  { types := schema.types
    typesListed := schema.typesListed
    properties := schema.properties
    required := schema.required
    items := schema.items
    anyOf := schema.anyOf
    oneOf := schema.oneOf
    allOf := schema.allOf
    enumeration := schema.enumeration
    reference := schema.reference
    description := schema.description
    extensions := schema.extensions
    keywords := schema.keywords }

/-! ## Arenas -/

/-- Nodes by their places; a new node goes to the end. -/
abbrev Nodes := Array (Shape Nat)

/-- Copies what stands at a place to new places, each node after its children. -/
def Nodes.deepCopy : Nat → Nat → StateT Nodes Option Nat
  | 0, _ => failure
  | depth + 1, place => do
      match (← get)[place]? with
      | none => failure
      | some node => do
          let children ← node.children.mapM (deepCopy depth)
          modifyGet fun nodes => (nodes.size, nodes.push (node.withChildren children))

structure Arena where
  nodes : Nodes
  root : Nat
  definitions : Members Nat := []
  table : TableKeyword := .definitions

namespace Arena

def nodeAt (arena : Arena) (place : Nat) : ExceptT SchemaError Option (Shape Nat) :=
  ExceptT.lift arena.nodes[place]?

def setNode (arena : Arena) (place : Nat) (node : Shape Nat) : Arena :=
  { arena with nodes := arena.nodes.setIfInBounds place node }

def resolve (arena : Arena) (reference : String) : Except SchemaError Nat :=
  match Reference.name? reference with
  | none => .error (.unsupportedReference reference)
  | some name =>
      match Members.get? arena.definitions name with
      | none => .error (.unresolvedReference reference)
      | some place => .ok place

/-- The place of the definition to put in for a node, unless the node stays. -/
def target? (arena : Arena) (kept : List String) (node : Shape Nat) :
    Except SchemaError (Option Nat) :=
  match node.reference with
  | none => .ok none
  | some reference => do
      let place ← arena.resolve reference
      match Reference.name? reference with
      | some name => return if kept.contains name then none else some place
      | none => return none

/-- Expands the node at a place, and all below it, where they stand. -/
def expandNode (kept : List String) : Nat → Arena → Nat → ExceptT SchemaError Option Arena
  | 0, _, _ => ExceptT.lift none
  | depth + 1, arena, place => do
      let node ← arena.nodeAt place
      match arena.target? kept node with
      | .error fault => throw fault
      | .ok (some target) =>
          let (copy, nodes) ← ExceptT.lift (Nodes.deepCopy depth target arena.nodes)
          let arena := { arena with nodes }
          let definition ← arena.nodeAt copy
          expandNode kept depth (arena.setNode place (definition.overlaid node)) place
      | .ok none =>
          match node.allOf with
          | [] => node.children.foldlM (expandNode kept depth) arena
          | [member] =>
              let arena ← expandNode kept depth arena member
              let parent ← arena.nodeAt place
              let node ← arena.nodeAt member
              expandNode kept depth (arena.setNode place (parent.folded node)) place
          | members => throw (.allOfArity members.length)

/-- Expands the root.  Without kept definitions the table is dropped, otherwise the definitions
that are not kept are expanded as well. -/
def expand (kept : List String) (depth : Nat) (arena : Arena) :
    ExceptT SchemaError Option Arena := do
  let arena ← expandNode kept depth arena arena.root
  if kept.isEmpty then return { arena with definitions := [] }
  else
    let others := arena.definitions.filter fun entry => !kept.contains entry.1
    (others.map Prod.snd).foldlM (expandNode kept depth) arena

end Arena

end SchemaStream
