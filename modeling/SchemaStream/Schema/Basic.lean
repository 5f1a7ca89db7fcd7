import SchemaStream.Json.Basic
import SchemaStream.Text.Affix

/-!
# Schemas

A schema is a tree.  Each node holds the keywords that describe a value, its children
under `properties`, `items` and the three combinators, and apart from them the keywords
that are carried along unread: `extensions`, whose names begin with `X-`, and the rest.
A reference is kept as text and never followed here.
-/

namespace SchemaStream

inductive JsonType where
  | object | array | string | number | integer | boolean | null
  deriving DecidableEq, Repr

namespace JsonType

def name : JsonType → String
  | .object => "object"
  | .array => "array"
  | .string => "string"
  | .number => "number"
  | .integer => "integer"
  | .boolean => "boolean"
  | .null => "null"

def all : List JsonType := [.object, .array, .string, .number, .integer, .boolean, .null]

def ofName? (name : String) : Option JsonType := all.find? fun type => type.name = name

end JsonType

structure Schema where
  types : List JsonType := []
  /-- Whether the types were written as a list. -/
  typesListed : Bool := false
  properties : List (String × Schema) := []
  required : List String := []
  items : Option Schema := none
  anyOf : List Schema := []
  oneOf : List Schema := []
  allOf : List Schema := []
  enumeration : Option (List Json) := none
  reference : Option String := none
  description : Option String := none
  extensions : List (String × Json) := []
  keywords : List (String × Json) := []

inductive SchemaKind where
  | ofType (type : JsonType)
  | reference
  | anyOf
  | oneOf
  | allOf
  | enumeration
  | typeUnion
  | any
  deriving DecidableEq, Repr

/-- The extensions that have a meaning. -/
inductive Marker where
  | reasoningPrompt
  | sourceQuote
  | fieldPrompt
  | systemPrompt
  deriving DecidableEq, Repr

def Marker.name : Marker → String
  | .reasoningPrompt => "X-ReasoningPrompt"
  | .sourceQuote => "X-SourceQuote"
  | .fieldPrompt => "X-FieldPrompt"
  | .systemPrompt => "X-SystemPrompt"

namespace Schema

def ofType (type : JsonType) : Schema := { types := [type] }

/-- Of several keywords that classify a node, the first in this order counts. -/
def kind (schema : Schema) : SchemaKind :=
  if schema.reference.isSome then .reference
  else if schema.enumeration.isSome then .enumeration
  else if !schema.allOf.isEmpty then .allOf
  else if !schema.anyOf.isEmpty then .anyOf
  else if !schema.oneOf.isEmpty then .oneOf
  else match schema.types with
    | [] => if schema.properties.isEmpty then .any else .ofType .object
    | [type] => .ofType type
    | _ => .typeUnion

def isObject (schema : Schema) : Bool := schema.kind = .ofType .object

/-- An object, or a union of types with the object type among them. -/
def describesObject (schema : Schema) : Bool :=
  schema.isObject || (schema.kind = .typeUnion && schema.types.contains .object)

def isRequired (schema : Schema) (name : String) : Bool := schema.required.contains name

def isLeaf (schema : Schema) : Bool :=
  schema.properties.isEmpty && schema.items.isNone && schema.anyOf.isEmpty &&
    schema.oneOf.isEmpty && schema.allOf.isEmpty && schema.reference.isNone &&
    !schema.types.contains .object && !schema.types.contains .array

def marker? (schema : Schema) (marker : Marker) : Option Json :=
  Members.get? schema.extensions marker.name

def prompt? (schema : Schema) (marker : Marker) : Option String :=
  schema.marker? marker >>= Json.string?

def wantsSourceQuote (schema : Schema) : Bool :=
  (schema.marker? .sourceQuote >>= Json.bool?).getD false

def withoutMarker (schema : Schema) (marker : Marker) : Schema :=
  { schema with extensions := Members.erase schema.extensions marker.name }

/-- The members of both union combinators. -/
def unionMembers (schema : Schema) : List Schema := schema.anyOf ++ schema.oneOf

def children (schema : Schema) : List Schema :=
  schema.properties.map Prod.snd ++ schema.items.toList ++ schema.anyOf ++ schema.oneOf ++
    schema.allOf

theorem mem_children_iff {schema child : Schema} :
    child ∈ schema.children ↔
      child ∈ schema.properties.map Prod.snd ∨ schema.items = some child ∨
        child ∈ schema.anyOf ∨ child ∈ schema.oneOf ∨ child ∈ schema.allOf := by
  simp [children]

section

variable {schema child : Schema}

theorem mem_children_of_properties {property : String × Schema}
    (mem : property ∈ schema.properties) : property.2 ∈ schema.children :=
  mem_children_iff.2 (.inl (List.mem_map.2 ⟨property, mem, rfl⟩))

theorem mem_children_of_items (item : schema.items = some child) : child ∈ schema.children :=
  mem_children_iff.2 (.inr (.inl item))

theorem mem_children_of_anyOf (mem : child ∈ schema.anyOf) : child ∈ schema.children :=
  mem_children_iff.2 (.inr (.inr (.inl mem)))

theorem mem_children_of_oneOf (mem : child ∈ schema.oneOf) : child ∈ schema.children :=
  mem_children_iff.2 (.inr (.inr (.inr (.inl mem))))

theorem mem_children_of_allOf (mem : child ∈ schema.allOf) : child ∈ schema.children :=
  mem_children_iff.2 (.inr (.inr (.inr (.inr mem))))

end

/-- To show something of every schema, show it of a node from its children. -/
@[elab_as_elim]
theorem induct {motive : Schema → Prop}
    (node : ∀ schema, (∀ child ∈ schema.children, motive child) → motive schema)
    (schema : Schema) : motive schema :=
  @Schema.rec motive (fun properties => ∀ property ∈ properties, motive property.2)
    (fun items => ∀ schema ∈ items, motive schema)
    (fun members => ∀ member ∈ members, motive member)
    (fun property => motive property.2)
    (fun types typesListed properties required items anyOf oneOf allOf enumeration reference
        description extensions keywords ihProperties ihItems ihAnyOf ihOneOf ihAllOf =>
      node _ (by
        intro child h
        rcases mem_children_iff.1 h with h | h | h | h | h
        · obtain ⟨property, hp, rfl⟩ := List.mem_map.1 h
          exact ihProperties property hp
        · exact ihItems child h
        · exact ihAnyOf child h
        · exact ihOneOf child h
        · exact ihAllOf child h))
    nofun (fun _ _ first rest => List.forall_mem_cons.2 ⟨first, rest⟩)
    nofun (fun _ schema _ h => Option.some.inj h ▸ schema)
    nofun (fun _ _ first rest => List.forall_mem_cons.2 ⟨first, rest⟩)
    (fun _ _ schema => schema) schema

mutual

/-- A node and all below it, each before its children. -/
def preorder (schema : Schema) : List Schema :=
  schema :: match schema with
    | { properties, items, anyOf, oneOf, allOf, .. } =>
        preorderProperties properties ++ preorderItems items ++ preorderMembers anyOf ++
          preorderMembers oneOf ++ preorderMembers allOf

def preorderProperties : List (String × Schema) → List Schema
  | [] => []
  | (_, schema) :: rest => preorder schema ++ preorderProperties rest

def preorderItems : Option Schema → List Schema
  | none => []
  | some schema => preorder schema

def preorderMembers : List Schema → List Schema
  | [] => []
  | schema :: rest => preorder schema ++ preorderMembers rest

end

theorem preorderProperties_eq_flatMap (properties : List (String × Schema)) :
    preorderProperties properties = properties.flatMap fun property => preorder property.2 := by
  induction properties with
  | nil => rfl
  | cons property rest ih => rw [preorderProperties, ih, List.flatMap_cons]

theorem preorderItems_eq_flatMap (items : Option Schema) :
    preorderItems items = items.toList.flatMap preorder := by
  cases items <;> simp [preorderItems]

theorem preorderMembers_eq_flatMap (members : List Schema) :
    preorderMembers members = members.flatMap preorder := by
  induction members with
  | nil => rfl
  | cons member rest ih => rw [preorderMembers, ih, List.flatMap_cons]

theorem preorder_eq_cons_flatMap (schema : Schema) :
    schema.preorder = schema :: schema.children.flatMap preorder := by
  obtain ⟨⟩ := schema
  rw [preorder, preorderProperties_eq_flatMap, preorderItems_eq_flatMap,
    preorderMembers_eq_flatMap, preorderMembers_eq_flatMap, preorderMembers_eq_flatMap, children]
  simp only [List.flatMap_append, List.flatMap_map]

theorem mem_preorder_iff {schema node : Schema} :
    node ∈ schema.preorder ↔ node = schema ∨ ∃ child ∈ schema.children, node ∈ child.preorder := by
  rw [preorder_eq_cons_flatMap, List.mem_cons, List.mem_flatMap]

end Schema

end SchemaStream
