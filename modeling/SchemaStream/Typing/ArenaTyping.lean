import SchemaStream.Schema.Guard
import SchemaStream.Typing.Synthesis

/-!
# Structural types in an arena

The record type of a document is put together from the nodes that stand in an arena.  A reference
to a settled definition is read through to the place of the definition, as often as that takes.
What goes deeper than it is allowed to has no result, nor has a reference that is refused.
-/

namespace SchemaStream

namespace Arena

/-- The definition that a reference is read through to, with its place. -/
def readThrough? (arena : Arena) (cyclic : List String) (node : Shape Nat) :
    Option (String × Nat) := do
  let name ← node.reference >>= Reference.name?
  if cyclic.contains name then none
  else
    let place ← Members.get? arena.definitions name
    return (name, place)

/-- The type of what a node refers to, read on as part of that definition. -/
def typeReferred (arena : Arena) (guard : Guard) (cyclic : List String)
    (below : Option String → Nat → ExceptT SchemaError Option FieldType) (within : Option String)
    (node : Shape Nat) : ExceptT SchemaError Option FieldType :=
  match arena.readThrough? cyclic node with
  | none => return .union
  | some (name, place) => if guard within name then below (some name) place else ExceptT.lift none

section

variable (arena : Arena) (below : String → Nat → ExceptT SchemaError Option FieldType)

def recordFields (node : Shape Nat) : ExceptT SchemaError Option (List (Field FieldType)) :=
  node.properties.mapM fun (name, place) => do
    let type ← below (TypeName.ofField name) place
    let child ← arena.nodeAt place
    return {
      name, type
      optional := !node.required.contains name
      description := child.description }

/-- Fields and items are only typed where they belong to the type. -/
def singleType (name : String) (node : Shape Nat) (type : JsonType) :
    ExceptT SchemaError Option FieldType :=
  match type with
  | .object => do
      let fields ← arena.recordFields below node
      return .record (node.blank.title?.getD name) fields
  | .array =>
      match node.items with
      | none => return .list (.scalar .any)
      | some item => do
          let element ← below (TypeName.ofItem name) item
          return .list element
  | scalar => return ((ScalarKind.ofType? scalar).map .scalar).getD .union

def unionType (name : String) (node : Shape Nat) : ExceptT SchemaError Option FieldType :=
  match node.types.filter (· ≠ .null) with
  | [type] => do
      let single ← arena.singleType below name node type
      return if node.types.contains .null then single.orNull else single
  | _ => return .union

def membersType (name : String) (members : List Nat) : ExceptT SchemaError Option FieldType :=
  match members with
  | [first, second] => do
      let firstNode ← arena.nodeAt first
      let secondNode ← arena.nodeAt second
      match firstNode.blank.isNull, secondNode.blank.isNull with
      | true, false => do
          let type ← below name second
          return type.orNull
      | false, true => do
          let type ← below name first
          return type.orNull
      | _, _ => return .union
  | _ => return .union

/-- The type of a node, where `referred` types what the node refers to. -/
def typeNode (referred : ExceptT SchemaError Option FieldType) (name : String)
    (node : Shape Nat) : ExceptT SchemaError Option FieldType :=
  match node.blank.kind with
  | .reference => referred
  | .enumeration => return .literal (node.enumeration.getD [])
  | .any => return .scalar .any
  | .ofType type => arena.singleType below name node type
  | .typeUnion => arena.unionType below name node
  | .anyOf => arena.membersType below name node.anyOf
  | .oneOf => arena.membersType below name node.oneOf
  | .allOf =>
      match node.allOf with
      | [member] => below name member
      | _ => return .union

end

def fieldType (arena : Arena) (guard : Guard) (cyclic : List String) :
    Nat → Option String → String → Nat → ExceptT SchemaError Option FieldType
  | 0, _, _, _ => ExceptT.lift none
  | depth + 1, within, name, place => do
      let node ← arena.nodeAt place
      let referred := arena.typeReferred guard cyclic
        (fun definition => fieldType arena guard cyclic depth definition name) within node
      arena.typeNode (fieldType arena guard cyclic depth within) referred name node

/-- The record type of the node at a place, which must describe an object. -/
def recordTypeAt (arena : Arena) (guard : Guard) (cyclic : List String) (rootName : String)
    (depth : Nat) (within : Option String) (place : Nat) :
    ExceptT SchemaError Option RecordType := do
  let root ← arena.nodeAt place
  if root.blank.describesObject then
    let fields ← arena.recordFields (fieldType arena guard cyclic depth within) root
    return { name := root.blank.title?.getD rootName, fields }
  else throw (.invalid .rootDescribesNoObject)

/-- The record type of the root.  A reference that the root is itself is followed once, whatever
it leads to. -/
def recordType (arena : Arena) (guard : Guard) (cyclic : List String) (rootName : String)
    (depth : Nat) : ExceptT SchemaError Option RecordType := do
  let start ← arena.nodeAt arena.root
  match start.reference with
  | none => arena.recordTypeAt guard cyclic rootName depth none arena.root
  | some reference => do
      let place ← ExceptT.mk (some (arena.resolve reference))
      arena.recordTypeAt guard cyclic rootName depth (Reference.name? reference) place

end Arena

end SchemaStream
