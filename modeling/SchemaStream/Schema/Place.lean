import SchemaStream.Schema.Basic

/-!
# Places in a schema

A node is found from the root of its tree by a path of slots.  Changing the node at a
path leaves the nodes at all other slots as they are.
-/

namespace SchemaStream

inductive Slot where
  | property (name : String)
  | items
  | anyOf (index : Nat)
  | oneOf (index : Nat)
  | allOf (index : Nat)
  deriving DecidableEq, Repr

namespace Schema

/-- The slots that hold children, in the order of `children`. -/
def slots (schema : Schema) : List Slot :=
  schema.properties.map (fun property => .property property.1) ++
    (schema.items.toList.map fun _ => .items) ++
    (List.range schema.anyOf.length).map .anyOf ++ (List.range schema.oneOf.length).map .oneOf ++
    (List.range schema.allOf.length).map .allOf

def child? (schema : Schema) : Slot → Option Schema
  | .property name => Members.get? schema.properties name
  | .items => schema.items
  | .anyOf index => schema.anyOf[index]?
  | .oneOf index => schema.oneOf[index]?
  | .allOf index => schema.allOf[index]?

def modifyChild (schema : Schema) (slot : Slot) (change : Schema → Schema) : Schema :=
  match slot with
  | .property name =>
      { schema with
        properties := schema.properties.map fun property =>
          if property.1 = name then (property.1, change property.2) else property }
  | .items => { schema with items := schema.items.map change }
  | .anyOf index => { schema with anyOf := schema.anyOf.modify index change }
  | .oneOf index => { schema with oneOf := schema.oneOf.modify index change }
  | .allOf index => { schema with allOf := schema.allOf.modify index change }

/-- A node with its children at some slots taken from another node. -/
def withChildrenOf (schema source : Schema) (slots : List Slot) : Schema :=
  slots.foldl (fun schema slot =>
    match source.child? slot with
    | some child => schema.modifyChild slot fun _ => child
    | none => schema) schema

def at? (schema : Schema) : List Slot → Option Schema
  | [] => some schema
  | slot :: path => (schema.child? slot).bind fun child => child.at? path

def modify (schema : Schema) (path : List Slot) (change : Schema → Schema) : Schema :=
  match path with
  | [] => change schema
  | slot :: path => schema.modifyChild slot fun child => child.modify path change

/-- The path whose steps are positions among the children. -/
def path? (schema : Schema) : List Nat → Option (List Slot)
  | [] => some []
  | index :: rest => do
      let slot ← schema.slots[index]?
      let child ← schema.child? slot
      let path ← child.path? rest
      return slot :: path

end Schema

end SchemaStream
