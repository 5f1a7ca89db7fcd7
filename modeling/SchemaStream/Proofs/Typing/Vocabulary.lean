import SchemaStream.Proofs.Schema.Vocabulary
import SchemaStream.Proofs.Typing.Acceptance

/-!
# The vocabulary of a type

The names of fields within a type and the members of its enumerations.  The type of a schema
has the vocabulary of the schema and of the definitions that its references are read through.
-/

namespace SchemaStream

namespace FieldType

inductive Uses (names : String → Prop) (members : Json → Prop) : FieldType → Prop
  | scalar (kind : ScalarKind) : Uses names members (.scalar kind)
  | literal {values : List Json} (each : ∀ member ∈ values, members member) :
      Uses names members (.literal values)
  | record {name : String} {fields : List (Field FieldType)}
      (own : ∀ field ∈ fields, names field.name)
      (inside : ∀ field ∈ fields, Uses names members field.type) :
      Uses names members (.record name fields)
  | list {element : FieldType} (inside : Uses names members element) :
      Uses names members (.list element)
  | nullable {inner : FieldType} (inside : Uses names members inner) :
      Uses names members (.nullable inner)
  | union : Uses names members .union

variable {names : String → Prop} {members : Json → Prop} {type : FieldType}

theorem Uses.orNull (uses : type.Uses names members) : type.orNull.Uses names members := by
  rw [FieldType.orNull]
  split
  · exact uses
  · exact .nullable uses

end FieldType

namespace Schema

open FieldType (Uses)

variable {names : String → Prop} {members : Json → Prop} {schema : Schema} {name : String}
  {context : TypeContext} {below : String → Schema → FieldType}

theorem uses_singleType {record list : FieldType} (type : JsonType)
    (isRecord : record.Uses names members) (isList : list.Uses names members) :
    (singleType type record list).Uses names members := by
  cases type with
  | object => exact isRecord
  | array => exact isList
  | _ => exact .scalar _

theorem uses_unionType {record list : FieldType} (types : List JsonType)
    (isRecord : record.Uses names members) (isList : list.Uses names members) :
    (unionType types record list).Uses names members := by
  rw [unionType]
  split
  · split
    · exact (uses_singleType _ isRecord isList).orNull
    · exact uses_singleType _ isRecord isList
  · exact .union

theorem uses_membersType {schemas : List Schema}
    (each : ∀ schema ∈ schemas, (schema.fieldType context below name).Uses names members) :
    (membersType context below name schemas).Uses names members := by
  unfold membersType
  split
  · split
    · exact (each _ (by simp)).orNull
    · exact (each _ (by simp)).orNull
    · exact .union
  · exact .union

theorem uses_record {title : String} (own : schema.Uses names members)
    (each : ∀ property ∈ schema.properties, ∀ name,
      (property.2.fieldType context below name).Uses names members) :
    (FieldType.record title
      (recordFields context below schema.required schema.properties)).Uses names members := by
  rw [recordFields_eq_map]
  constructor
  · intro field mem
    obtain ⟨property, within, rfl⟩ := List.mem_map.1 mem
    exact own.names _ (List.mem_map.2 ⟨property, within, rfl⟩)
  · intro field mem
    obtain ⟨property, within, rfl⟩ := List.mem_map.1 mem
    exact each property within _

theorem uses_fieldType
    (targets : ∀ reference target name, context.target? reference = some target →
      (below name target).Uses names members)
    (everywhere : schema.Everywhere (Schema.Uses names members)) :
    (schema.fieldType context below name).Uses names members := by
  induction schema using Schema.induct generalizing name with
  | node schema ih =>
      obtain ⟨own, children⟩ := everywhere_iff.1 everywhere
      have each {child : Schema} (mem : child ∈ schema.children) (name : String) :
          (child.fieldType context below name).Uses names members :=
        ih child mem (children child mem)
      have isRecord (title : String) : (FieldType.record title
          (recordFields context below schema.required schema.properties)).Uses names members :=
        uses_record own fun property mem => each (mem_children_of_properties mem)
      have isList : (FieldType.list (itemsType context below (TypeName.ofItem name)
          schema.items)).Uses names members := by
        refine .list ?_
        cases h : schema.items with
        | none => exact .scalar .any
        | some item => exact each (mem_children_of_items h) _
      rw [fieldType_eq]
      dsimp only
      split
      · split
        · next target found =>
            obtain ⟨reference, -, found⟩ := Option.bind_eq_some_iff.1 found
            exact targets reference target name found
        · exact .union
      · exact .literal own.members
      · exact .scalar .any
      · exact uses_singleType _ (isRecord _) isList
      · exact uses_unionType _ (isRecord _) isList
      · exact uses_membersType fun member mem => each (mem_children_of_anyOf mem) name
      · exact uses_membersType fun member mem => each (mem_children_of_oneOf mem) name
      · split
        · next member sole => exact each (mem_children_of_allOf (by simp [sole])) name
        · exact .union

end Schema

namespace TypeContext

variable {names : String → Prop} {members : Json → Prop} {schema : Schema} {context : TypeContext}

theorem everywhere_of_target? {P : Schema → Prop}
    (definitions : ∀ definition ∈ context.definitions, definition.2.Everywhere P)
    {reference : String} {target : Schema} (found : context.target? reference = some target) :
    target.Everywhere P := by
  rw [target?, Option.bind_eq_bind, Option.bind_eq_some_iff] at found
  obtain ⟨defined, -, found⟩ := found
  split at found
  · cases found
  · exact definitions _ (Members.mem_of_get?_eq_some found)

theorem uses_typeWithin
    (definitions : ∀ definition ∈ context.definitions,
      definition.2.Everywhere (Schema.Uses names members))
    (depth : Nat) (name : String) (everywhere : schema.Everywhere (Schema.Uses names members)) :
    (context.typeWithin depth name schema).Uses names members := by
  induction depth generalizing name schema with
  | zero => exact Schema.uses_fieldType (fun _ _ _ _ => .union) everywhere
  | succ depth ih =>
      exact Schema.uses_fieldType
        (fun reference target name found => ih name (everywhere_of_target? definitions found))
        everywhere

end TypeContext

namespace RecordType

/-- A record type as the type of a field. -/
def asField (record : RecordType) : FieldType := .record record.name record.fields

end RecordType

namespace Document

variable {names : String → Prop} {members : Json → Prop} {document : Document}
  {rootName : String} {record : RecordType}

/-- The node that describes the record: the root, or what it refers to. -/
def recordNode (document : Document) : Except SchemaError Schema :=
  match document.schema.reference with
  | some reference => document.resolve reference
  | none => .ok document.schema

theorem recordNode_of_reference {reference : String}
    (refers : document.schema.reference = some reference) :
    document.recordNode = document.resolve reference := by
  rw [recordNode, refers]

theorem recordNode_of_no_reference (refers : document.schema.reference = none) :
    document.recordNode = .ok document.schema := by
  rw [recordNode, refers]

theorem recordType_eq_ok_iff :
    document.recordType rootName = .ok record ↔
      ∃ root, document.recordNode = .ok root ∧ root.describesObject = true ∧
        record = TypeContext.recordType ⟨document.definitions, document.cyclicDefinitions⟩
          rootName root := by
  rw [recordType, recordNode]
  cases document.schema.reference <;>
  · rw [Outcome.bind_eq_ok_iff]
    refine exists_congr fun root => and_congr_right fun _ => ?_
    dsimp only
    split
    · next describes =>
        exact ⟨fun made => ⟨describes, (Except.ok.inj made).symm⟩, fun made => made.2 ▸ rfl⟩
    · next other => exact ⟨nofun, fun made => absurd made.1 other⟩

theorem everywhere_recordNode {P : Schema → Prop} {root : Schema}
    (everywhere : document.Everywhere P) (found : document.recordNode = .ok root) :
    root.Everywhere P := by
  rw [recordNode] at found
  split at found
  · obtain ⟨_, -, found⟩ := Expansion.resolve_eq_ok_iff.1 found
    exact everywhere.definitions _ (Members.mem_of_get?_eq_some found)
  · cases found
    exact everywhere.schema

theorem uses_recordType (everywhere : document.Everywhere (Schema.Uses names members))
    (typed : document.recordType rootName = .ok record) :
    record.asField.Uses names members := by
  obtain ⟨root, found, -, rfl⟩ := recordType_eq_ok_iff.1 typed
  obtain ⟨own, children⟩ := Schema.everywhere_iff.1 (everywhere_recordNode everywhere found)
  have context : ∀ definition ∈ TypeContext.definitions
      ⟨document.definitions, document.cyclicDefinitions⟩,
      definition.2.Everywhere (Schema.Uses names members) := everywhere.definitions
  refine Schema.uses_record own fun property mem name => ?_
  exact TypeContext.uses_typeWithin context (document.definitions.length + 1) name
    (children _ (Schema.mem_children_of_properties mem))

end Document

end SchemaStream
