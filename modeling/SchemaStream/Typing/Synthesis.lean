import SchemaStream.Schema.Cycle
import SchemaStream.Text.Blank
import SchemaStream.Text.Uppercase
import SchemaStream.Typing.FieldType

/-!
# Structural types of schemas

The record type that a schema document describes.  References to settled definitions are
read through; those into a cycle, and those that point nowhere, accept any value.  As no
settled definition leads back to itself, a chain of references is no longer than the table.
-/

namespace SchemaStream

namespace TypeName

def separates (c : Char) : Bool := c = '_' || c = '-' || Text.isBlank c

/-- The words of a name, joined with their first letters in upper case. -/
def capitalized : Bool → List Char → List Char
  | _, [] => []
  | initial, c :: rest =>
      if separates c then capitalized true rest
      else (if initial then Text.uppercase c else [c]) ++ capitalized false rest

def ofField (name : String) : String := String.ofList (capitalized true name.toList)

def ofItem (name : String) : String := name ++ "Item"

end TypeName

def ScalarKind.ofType? : JsonType → Option ScalarKind
  | .string => some .string
  | .number => some .number
  | .integer => some .integer
  | .boolean => some .boolean
  | .null => some .null
  | .object | .array => none

/-- What references mean to the synthesis of types. -/
structure TypeContext where
  definitions : Members Schema
  cyclic : List String

namespace TypeContext

def target? (context : TypeContext) (reference : String) : Option Schema := do
  let name ← Reference.name? reference
  if context.cyclic.contains name then none else Members.get? context.definitions name

end TypeContext

namespace Schema

def title? (schema : Schema) : Option String :=
  Members.get? schema.keywords "title" >>= Json.string?

def isNull (schema : Schema) : Bool := schema.kind = .ofType .null

/-- The type of a node whose single type other than null is given. -/
def singleType (type : JsonType) (record list : FieldType) : FieldType :=
  match type with
  | .object => record
  | .array => list
  | scalar => ((ScalarKind.ofType? scalar).map .scalar).getD .union

def unionType (types : List JsonType) (record list : FieldType) : FieldType :=
  match types.filter (· ≠ .null) with
  | [type] =>
      let single := singleType type record list
      if types.contains .null then single.orNull else single
  | _ => .union

mutual

/-- The type of a node, by the name that it has for want of a title, where `below` types
what a reference points at. -/
def fieldType (context : TypeContext) (below : String → Schema → FieldType) (name : String)
    (schema : Schema) : FieldType :=
  match schema with
  | { types, typesListed, properties, required, items, anyOf, oneOf, allOf, enumeration,
      reference, description, extensions, keywords } =>
    let node : Schema :=
      { types, typesListed, properties, required, items, anyOf, oneOf, allOf, enumeration,
        reference, description, extensions, keywords }
    let record := FieldType.record (node.title?.getD name)
      (recordFields context below required properties)
    let list := FieldType.list (itemsType context below (TypeName.ofItem name) items)
    match node.kind with
    | .reference =>
        match reference >>= context.target? with
        | some target => below name target
        | none => .union
    | .enumeration => .literal (enumeration.getD [])
    | .any => .scalar .any
    | .ofType type => singleType type record list
    | .typeUnion => unionType types record list
    | .anyOf => membersType context below name anyOf
    | .oneOf => membersType context below name oneOf
    | .allOf =>
        match allOf with
        | [member] => fieldType context below name member
        | _ => .union

def recordFields (context : TypeContext) (below : String → Schema → FieldType)
    (required : List String) : List (String × Schema) → List (Field FieldType)
  | [] => []
  | (name, schema) :: rest =>
      { name
        type := fieldType context below (TypeName.ofField name) schema
        optional := !required.contains name
        description := schema.description } :: recordFields context below required rest

def itemsType (context : TypeContext) (below : String → Schema → FieldType) (name : String) :
    Option Schema → FieldType
  | none => .scalar .any
  | some schema => fieldType context below name schema

/-- Of the unions, only a type or null is taken apart. -/
def membersType (context : TypeContext) (below : String → Schema → FieldType) (name : String) :
    List Schema → FieldType
  | [first, second] =>
      match first.isNull, second.isNull with
      | true, false => (fieldType context below name second).orNull
      | false, true => (fieldType context below name first).orNull
      | _, _ => .union
  | _ => .union

end

theorem recordFields_eq_map (context : TypeContext) (below : String → Schema → FieldType)
    (required : List String) (properties : List (String × Schema)) :
    recordFields context below required properties = properties.map fun property =>
      { name := property.1
        type := fieldType context below (TypeName.ofField property.1) property.2
        optional := !required.contains property.1
        description := property.2.description } := by
  induction properties with
  | nil => rfl
  | cons property rest ih => rw [recordFields, ih, List.map_cons]

end Schema

namespace TypeContext

/-- The type of a node, read through at most `depth` references in a row. -/
def typeWithin (context : TypeContext) : Nat → String → Schema → FieldType
  | 0 => Schema.fieldType context fun _ _ => .union
  | depth + 1 => Schema.fieldType context (typeWithin context depth)

def recordType (context : TypeContext) (name : String) (schema : Schema) : RecordType :=
  { name := schema.title?.getD name
    fields := Schema.recordFields context (typeWithin context context.definitions.length)
      schema.required schema.properties }

end TypeContext

/-- The record type of the root, which may be a reference to the record, followed once. -/
def Document.recordType (document : Document) (rootName : String) :
    Except SchemaError RecordType := do
  let root ← match document.schema.reference with
    | some reference => document.resolve reference
    | none => .ok document.schema
  if root.describesObject then
    let context : TypeContext := ⟨document.definitions, document.cyclicDefinitions⟩
    return context.recordType rootName root
  else throw (.invalid .rootDescribesNoObject)

end SchemaStream
