import SchemaStream.Schema.Arena
import SchemaStream.Schema.Augmentation

/-!
# Operations on an arena

The document in an arena is read off by following its places from the root and from the table.
Augmentation changes nodes where they stand: the fields it adds are new nodes, to which their
object leads, and a quote marker is used up before its node is visited.  It only looks at nodes
and their children, so it reads a node with no more than the nodes of its children below it.
-/

namespace SchemaStream

/-! ## Reading off -/

namespace Nodes

/-- The schema that stands at a place. -/
def schemaAt (nodes : Nodes) : Nat → Nat → Option Schema
  | 0, _ => none
  | depth + 1, place => do
      let node ← nodes[place]?
      let children ← node.children.mapM (schemaAt nodes depth)
      return (node.withChildren children).schema

def render (nodes : Nodes) (depth place : Nat) : Option Json :=
  (nodes.schemaAt depth place).map Schema.toJson

/-- The node at a place, its children without anything below them. -/
def outline? (nodes : Nodes) (place : Nat) : Option Schema := do
  let node ← nodes[place]?
  let children ← node.children.mapM fun child => nodes[child]?.map Shape.blank
  return (node.withChildren children).schema

end Nodes

def Arena.document? (arena : Arena) (depth : Nat) : Option Document := do
  let root ← arena.nodes.schemaAt depth arena.root
  let bodies ← (arena.definitions.map Prod.snd).mapM (arena.nodes.schemaAt depth)
  return {
    root := .apart root
    definitions := (Members.keys arena.definitions).zip bodies
    table := arena.table }

def Arena.render (arena : Arena) (depth : Nat) : Option Json :=
  (arena.document? depth).map Document.toJson

/-! ## Augmentation -/

namespace Shape

variable {α : Type}

def withoutMarker (shape : Shape α) (marker : Marker) : Shape α :=
  { shape with extensions := Members.erase shape.extensions marker.name }

def withProperties (shape : Shape α) (properties : List (String × α)) (required : List String) :
    Shape α :=
  { shape with properties, required }

end Shape

/-- Changes of nodes, which have no result if they follow a place that is empty. -/
abbrev NodeEditor := StateT Nodes Option

namespace Nodes

def nodeAt (place : Nat) : NodeEditor (Shape Nat) := do
  StateT.lift (← get)[place]?

def outlineAt (place : Nat) : NodeEditor Schema := do
  StateT.lift ((← get).outline? place)

def put (place : Nat) (node : Shape Nat) : NodeEditor Unit :=
  modify fun nodes => nodes.setIfInBounds place node

/-- Puts a field without children at the end of the arena. -/
def addField (field : String × Schema) : NodeEditor (String × Nat) :=
  modifyGet fun nodes => ((field.1, nodes.size), nodes.push (field.2.shape.withChildren []))

def addFieldIfAny : Option (String × Schema) → NodeEditor (List (String × Nat))
  | none => pure []
  | some field => return [← addField field]

def removeMarker (place : Nat) : NodeEditor Unit := do
  let node ← nodeAt place
  put place (node.withoutMarker .sourceQuote)

/-- The reasoning field of an object itself becomes its first property. -/
def insertSelf (slot : Option String) (place : Nat) : NodeEditor Unit := do
  let self ← addFieldIfAny ((← outlineAt place).selfReasoning? slot)
  let node ← nodeAt place
  put place (node.withProperties (self ++ node.properties) (Members.keys self ++ node.required))

/-- A property with its siblings; a quote marker that it has is used up. -/
def placeProperty (existing : List String) (name : String) (place : Nat) :
    NodeEditor (List (String × Nat)) :=
  if Auxiliary.isAuxiliary name then pure [(name, place)]
  else do
    let schema ← outlineAt place
    let reasoning ← addFieldIfAny (Schema.reasoningSibling? existing name schema)
    removeMarker place
    let quote ← addFieldIfAny (Schema.sourceSibling? existing name schema)
    return reasoning ++ [(name, place)] ++ quote

def placeProperties (existing required : List String) :
    List (String × Nat) → NodeEditor (List (String × Nat) × List String)
  | [] => pure ([], required)
  | (name, place) :: rest => do
      let schema ← outlineAt place
      let block ← placeProperty existing name place
      let required := Schema.requireSiblings existing required (name, schema)
      let (others, required) ← placeProperties existing required rest
      return (block ++ others, required)

def augmentProperties (place : Nat) : NodeEditor Unit := do
  let node ← nodeAt place
  let (properties, required) ←
    placeProperties (Members.keys node.properties) node.required node.properties
  let node ← nodeAt place
  put place (node.withProperties properties required)

/-- The properties of an object are visited once they all stand, the added ones among them. -/
def augmentObject (visit : Option String → Nat → NodeEditor Unit) (slot : Option String)
    (place : Nat) : NodeEditor Unit := do
  insertSelf slot place
  augmentProperties place
  let node ← nodeAt place
  (node.properties.map Prod.snd).forM (visit none)

/-- A leaf item has no siblings, so its marker goes without a quote. -/
def augmentItem (visit : Option String → Nat → NodeEditor Unit) (place : Nat) :
    NodeEditor Unit := do
  let schema ← outlineAt place
  (if schema.isLeaf then removeMarker place else pure ())
  visit (some Schema.itemSlot) place

/-- Augments the node at a place, and what is below it, where they stand. -/
def augment : Nat → Option String → Nat → NodeEditor Unit
  | 0, _, _ => failure
  | depth + 1, slot, place => do
      let schema ← outlineAt place
      let node ← nodeAt place
      let objectMembers := schema.unionMembers.countP Schema.describesObject
      let memberSlot := if schema.describesObject || objectMembers != 1 then none else slot
      (if schema.describesObject then augmentObject (augment depth) slot place else pure ())
      node.items.toList.forM (augmentItem (augment depth))
      (node.anyOf ++ node.oneOf).forM (augment depth memberSlot)

end Nodes

/-! ## Operations on documents -/

inductive Operation where
  | expand
  | augment
  /-- A copy of what stands at the place becomes the root. -/
  | rerootCopy (place : Nat)

def Arena.apply (arena : Arena) (depth : Nat) : Operation → ExceptT SchemaError Option Arena
  | .expand => do
      let document ← ExceptT.lift (arena.document? depth)
      arena.expand document.cyclicDefinitions depth
  | .augment => do
      let (_, nodes) ← ExceptT.lift
        ((Nodes.augment depth (some Schema.rootSlot) arena.root).run arena.nodes)
      return { arena with nodes }
  | .rerootCopy place => do
      let (root, nodes) ← ExceptT.lift ((Nodes.deepCopy depth place).run arena.nodes)
      return { arena with nodes, root }

end SchemaStream
