import SchemaStream.Proofs.Preparation
import SchemaStream.Proofs.Schema.Filter
import SchemaStream.Proofs.Typing.Admission
import SchemaStream.Proofs.Typing.Vocabulary

/-!
# Filtering undoes augmentation

The type of an augmented node has the fields of the type of the node, each as optional as it
was, and auxiliary ones besides.  So what is left of an accepted value once its auxiliary members
are taken out is accepted by the type of the schema as it was written.
-/

namespace SchemaStream

open Auxiliary (isAuxiliary filter filterMembers)

/-- A member of an enumeration that filtering leaves alone. -/
structure Json.Untouched (member : Json) : Prop where
  distinct : member.distinct = true
  plain : ∀ name ∈ member.names, isAuxiliary name = false

theorem Json.Untouched.filter_eq_self {member value : Json} (untouched : member.Untouched)
    (same : member.same value = true) : filter value = value :=
  Auxiliary.filter_eq_self fun name mem =>
    untouched.plain name (Json.mem_names_of_same untouched.distinct same mem)

namespace FieldType

/-- A type without auxiliary names. -/
abbrev Plain (type : FieldType) : Prop :=
  type.Uses (fun name => isAuxiliary name = false) Json.Untouched

/-- What one type admits is admitted by the other once it is filtered. -/
def Hands (type other : FieldType) : Prop :=
  ∀ value, type.Admits value → other.Admits (filter value)

variable {type other : FieldType}

theorem hands_scalar (kind : ScalarKind) : Hands (.scalar kind) (.scalar kind) := by
  intro value admits
  rw [admits_scalar_iff] at admits ⊢
  cases kind <;> cases value <;> simp_all [ScalarKind.accepts, filter]

theorem hands_literal {values : List Json} (untouched : ∀ member ∈ values, member.Untouched) :
    Hands (.literal values) (.literal values) := by
  intro value admits
  obtain ⟨member, mem, same⟩ := admits_literal_iff.1 admits
  rw [(untouched member mem).filter_eq_self same]
  exact admits

theorem hands_union : Hands type .union := fun _ _ => admits_union

theorem hands_nullable (inside : Hands type other) : Hands (.nullable type) (.nullable other) := by
  intro value admits
  rw [admits_nullable_iff] at admits ⊢
  rw [Auxiliary.filter_eq_null_iff]
  exact admits.imp_right (inside value)

theorem hands_orNull (inside : Hands type other) : Hands type.orNull other.orNull := by
  intro value admits
  rw [admits_orNull_iff, ← admits_nullable_iff] at admits ⊢
  exact hands_nullable inside value admits

theorem hands_list (inside : Hands type other) : Hands (.list type) (.list other) := by
  intro value admits
  obtain ⟨items, rfl, each⟩ := admits_list_iff.1 admits
  refine admits_list_iff.2 ⟨items.map filter, ?_, fun item mem => ?_⟩
  · rw [filter, Auxiliary.filterItems_eq_map]
  · obtain ⟨whole, below, rfl⟩ := List.mem_map.1 mem
    exact inside whole (each whole below)

/-- A field that stands for another one in the type of a value that is not filtered yet. -/
structure Stands (field other : Field FieldType) : Prop where
  name : field.name = other.name
  optional : field.optional = other.optional
  type : Hands field.type other.type

theorem admitsAt_filter {field field' : Field FieldType} (stands : Stands field field')
    {found : Option Json} (admits : AdmitsAt field found) : AdmitsAt field' (found.map filter) := by
  cases found with
  | none => exact stands.optional.symm.trans admits
  | some value =>
      refine Or.imp ?_ (stands.type value) admits
      rintro ⟨optional, rfl⟩
      exact ⟨stands.optional.symm.trans optional, rfl⟩

/-- Fields besides those that stand for the fields of the other record do not matter. -/
theorem hands_record {name name' : String} {fields others : List (Field FieldType)}
    (each : ∀ other ∈ others, isAuxiliary other.name = false ∧
      ∃ field ∈ fields, Stands field other) :
    Hands (.record name fields) (.record name' others) := by
  intro value admits
  obtain ⟨members, rfl, own⟩ := admits_record_iff.1 admits
  refine admits_record_iff.2 ⟨filterMembers members, rfl, fun other mem => ?_⟩
  obtain ⟨plain, field, below, stands⟩ := each other mem
  rw [Auxiliary.get?_filterMembers members plain]
  have admitted := own field below
  rw [stands.name] at admitted
  exact admitsAt_filter stands admitted

theorem hands_self (plain : type.Plain) : Hands type type := by
  induction plain with
  | scalar kind => exact hands_scalar kind
  | literal untouched => exact hands_literal untouched
  | record own inside ih =>
      exact hands_record fun field mem => ⟨own field mem, field, mem, rfl, rfl, ih field mem⟩
  | list inside ih => exact hands_list ih
  | nullable inside ih => exact hands_nullable ih
  | union => exact hands_union

end FieldType

namespace Schema

open FieldType (Hands)

/-- A node without auxiliary names. -/
abbrev Plain (schema : Schema) : Prop :=
  schema.Uses (fun name => isAuxiliary name = false) Json.Untouched

variable {schema result : Schema} {context : TypeContext} {below : String → Schema → FieldType}
  {name : String} {slot : Option String}

theorem hands_singleType {record list record' list' : FieldType} (type : JsonType)
    (records : Hands record record') (lists : Hands list list') :
    Hands (singleType type record list) (singleType type record' list') := by
  cases type with
  | object => exact records
  | array => exact lists
  | _ => exact FieldType.hands_scalar _

theorem hands_unionType {record list record' list' : FieldType} (types : List JsonType)
    (records : Hands record record') (lists : Hands list list') :
    Hands (unionType types record list) (unionType types record' list') := by
  rw [unionType, unionType]
  split
  · dsimp only
    split
    · exact FieldType.hands_orNull (hands_singleType _ records lists)
    · exact hands_singleType _ records lists
  · exact FieldType.hands_union

theorem fieldType_withoutMarker (schema : Schema) (marker : Marker) :
    (schema.withoutMarker marker).fieldType context below name =
      schema.fieldType context below name := by
  rw [fieldType_eq, fieldType_eq]
  rfl

theorem fieldType_of_augments (placed : Augments slot schema result) :
    result.fieldType context below name =
      (schema.augmentNode slot).fieldType context below name := by
  rcases placed with rfl | rfl
  · rfl
  · exact fieldType_withoutMarker _ _

theorem isNull_augmentNode (slot : Option String) (schema : Schema) :
    (schema.augmentNode slot).isNull = schema.isNull := by
  rw [isNull, isNull, kind_augmentNode]

/-- Of two unions of augmented members, the one that is taken apart is so for the same member. -/
theorem hands_membersType {members : List Schema}
    (each : ∀ member ∈ members, Hands ((member.augmentNode slot).fieldType context below name)
      (member.fieldType context below name)) :
    Hands (membersType context below name (members.map (augmentNode slot)))
      (membersType context below name members) := by
  match members with
  | [] | [_] | _ :: _ :: _ :: _ => exact FieldType.hands_union
  | [first, second] =>
      simp only [List.map_cons, List.map_nil, membersType, isNull_augmentNode]
      split
      · exact FieldType.hands_orNull (each second (by simp))
      · exact FieldType.hands_orNull (each first (by simp))
      · exact FieldType.hands_union

theorem hands_record {title title' : String} (plain : schema.Plain)
    (own : ∀ property ∈ schema.properties, ∀ name,
      (property.2.fieldType context below name).Plain)
    (each : ∀ property ∈ schema.properties, ∀ name,
      Hands ((property.2.augmentNode none).fieldType context below name)
        (property.2.fieldType context below name)) :
    Hands
      (.record title (recordFields context below (schema.augmentedRequired slot)
        (schema.augmentedProperties slot)))
      (.record title' (recordFields context below schema.required schema.properties)) := by
  refine FieldType.hands_record fun other mem => ?_
  rw [recordFields_eq_map, List.mem_map] at mem
  obtain ⟨property, mem, rfl⟩ := mem
  have unaugmented := plain.names property.1 (List.mem_map.2 ⟨property, mem, rfl⟩)
  refine ⟨unaugmented, ?_⟩
  have optional : (!(schema.augmentedRequired slot).contains property.1) =
      !schema.required.contains property.1 := by
    rw [Bool.eq_iff_iff]
    simp [mem_augmentedRequired_iff unaugmented]
  have placed : ∃ child, (property.1, child) ∈ schema.augmentedProperties slot ∧
      Hands (child.fieldType context below (TypeName.ofField property.1))
        (property.2.fieldType context below (TypeName.ofField property.1)) := by
    by_cases describes : schema.describesObject = true
    · have within := augmentedProperty_mem_augmentedProperties slot describes mem
      refine ⟨(augmentedProperty property).2, within, ?_⟩
      rw [fieldType_of_augments (augments_augmentedProperty property)]
      exact each property mem _
    · refine ⟨property.2, ?_, FieldType.hands_self (own property mem _)⟩
      rw [augmentedProperties, if_neg describes]
      exact mem
  obtain ⟨child, within, hands⟩ := placed
  rw [recordFields_eq_map]
  exact ⟨_, List.mem_map.2 ⟨_, within, rfl⟩, rfl, optional, hands⟩

section

variable (targets : ∀ reference target name, context.target? reference = some target →
  (below name target).Plain)
include targets

theorem hands_augmentNode (everywhere : schema.Everywhere Plain) (slot : Option String)
    (name : String) :
    Hands ((schema.augmentNode slot).fieldType context below name)
      (schema.fieldType context below name) := by
  induction schema using Schema.induct generalizing slot name with
  | node schema ih =>
      obtain ⟨plain, children⟩ := everywhere_iff.1 everywhere
      have each {child : Schema} (mem : child ∈ schema.children) (slot : Option String)
          (name : String) := ih child mem (children child mem) slot name
      have own {child : Schema} (mem : child ∈ schema.children) (name : String) :
          (child.fieldType context below name).Plain :=
        uses_fieldType targets (children child mem)
      have records (title : String) : Hands
          (.record title (recordFields context below (schema.augmentedRequired slot)
            (schema.augmentedProperties slot)))
          (.record title (recordFields context below schema.required schema.properties)) :=
        hands_record plain (fun property mem => own (mem_children_of_properties mem))
          fun property mem => each (mem_children_of_properties mem) none
      have lists : Hands
          (.list (itemsType context below (TypeName.ofItem name) (augmentItems schema.items)))
          (.list (itemsType context below (TypeName.ofItem name) schema.items)) := by
        refine FieldType.hands_list ?_
        cases h : schema.items with
        | none => exact FieldType.hands_scalar .any
        | some item =>
            obtain ⟨result, augmented⟩ : ∃ result, augmentItems (some item) = some result :=
              ⟨_, rfl⟩
            obtain ⟨_, same, augments⟩ := exists_of_augmentItems augmented
            cases same
            rw [augmented, itemsType, itemsType, fieldType_of_augments augments]
            exact each (mem_children_of_items h) _ _
      rw [fieldType_eq, fieldType_eq context below name schema, kind_augmentNode]
      rw [augmentNode_eq]
      dsimp only
      -- Both nodes are of one kind, so a single split covers the two types.
      split
      · split
        · next target found =>
            obtain ⟨reference, -, found⟩ := Option.bind_eq_some_iff.1 found
            exact FieldType.hands_self (targets reference target name found)
        · exact FieldType.hands_union
      · exact FieldType.hands_literal plain.members
      · exact FieldType.hands_scalar .any
      · exact hands_singleType _ (records _) lists
      · exact hands_unionType _ (records _) lists
      · exact hands_membersType fun member mem => each (mem_children_of_anyOf mem) _ name
      · exact hands_membersType fun member mem => each (mem_children_of_oneOf mem) _ name
      · split
        · next member sole =>
            exact FieldType.hands_self (own (mem_children_of_allOf (by simp [sole])) name)
        · exact FieldType.hands_union

end

end Schema

theorem TypeContext.hands_recordType {context : TypeContext} {schema : Schema}
    (definitions : ∀ definition ∈ context.definitions, definition.2.Everywhere Schema.Plain)
    (everywhere : schema.Everywhere Schema.Plain) (slot : Option String) (name : String) :
    FieldType.Hands (context.recordType name (schema.augmentNode slot)).asField
      (context.recordType name schema).asField := by
  obtain ⟨plain, children⟩ := Schema.everywhere_iff.1 everywhere
  have targets (reference : String) (target : Schema) (name : String)
      (found : context.target? reference = some target) :
      (context.typeWithin context.definitions.length name target).Plain :=
    uses_typeWithin definitions _ name (everywhere_of_target? definitions found)
  have below {property : String × Schema} (mem : property ∈ schema.properties) :
      property.2.Everywhere Schema.Plain := children _ (Schema.mem_children_of_properties mem)
  rw [Schema.augmentNode_eq]
  exact Schema.hands_record plain
    (fun property mem name => Schema.uses_fieldType targets (below mem))
    fun property mem name => Schema.hands_augmentNode targets (below mem) none name

namespace Document

open FieldType (Hands)

variable {document : Document} {rootName : String} {record : RecordType}

/-- What is handed on by the record of an augmented document is of the record of the document. -/
theorem exists_recordType_of_augment (root : document.root = .apart document.schema)
    (everywhere : document.Everywhere Schema.Plain)
    (typed : document.augment.recordType rootName = .ok record) :
    ∃ plain, document.recordType rootName = .ok plain ∧ Hands record.asField plain.asField := by
  rw [augment_of_apart root] at typed
  obtain ⟨node, found, describes, rfl⟩ := recordType_eq_ok_iff.1 typed
  have same : Schema.reference (schema { document with
      root := .apart (document.schema.augmentNode (some Schema.rootSlot)) }) =
      document.schema.reference := by
    rw [schema_of_apart rfl, Schema.augmentNode_eq]
  cases refers : document.schema.reference with
  | some reference =>
      -- The root points into a cycle, where nothing was augmented.
      rw [recordNode_of_reference (same.trans refers)] at found
      have own : document.recordType rootName = .ok (TypeContext.recordType
          ⟨document.definitions, document.cyclicDefinitions⟩ rootName node) :=
        recordType_eq_ok_iff.2
          ⟨node, (recordNode_of_reference refers).trans found, describes, rfl⟩
      exact ⟨_, own, FieldType.hands_self (uses_recordType everywhere own)⟩
  | none =>
      rw [recordNode_of_no_reference (same.trans refers), Except.ok.injEq] at found
      subst found
      replace describes : document.schema.describesObject = true :=
        (Schema.describesObject_augmentNode _ _).symm.trans describes
      have own : document.recordType rootName = .ok (TypeContext.recordType
          ⟨document.definitions, document.cyclicDefinitions⟩ rootName document.schema) :=
        recordType_eq_ok_iff.2
          ⟨document.schema, recordNode_of_no_reference refers, describes, rfl⟩
      have definitions : ∀ definition ∈ TypeContext.definitions
          ⟨document.definitions, document.cyclicDefinitions⟩,
          definition.2.Everywhere Schema.Plain := everywhere.definitions
      exact ⟨_, own, TypeContext.hands_recordType definitions everywhere.schema _ _⟩

end Document

namespace Prepared

variable {raw value : Json} {config : Config} {document : Document} {augmented : Prepared}
  {record : RecordType}

/-- What is accepted with augmentation is accepted without it, once auxiliary members are taken
out, if the schema as written has no auxiliary names. -/
theorem filtered_value_is_valid (distinct : raw.distinct = true)
    (read : Document.ofJson raw = .ok document)
    (names : document.Everywhere fun node =>
      ∀ name ∈ Members.keys node.properties, isAuxiliary name = false)
    (members : document.Everywhere fun node =>
      ∀ member ∈ node.enumeration.getD [], ∀ name ∈ member.names, isAuxiliary name = false)
    (parsed : ofJson raw { config with augment := true } = .ok augmented)
    (typed : augmented.recordType = .ok record) (valid : record.validate value = .ok ()) :
    ∃ plain plainRecord, ofJson raw { config with augment := false } = .ok plain ∧
      plain.recordType = .ok plainRecord ∧ plainRecord.validate (filter value) = .ok () := by
  obtain ⟨document', expanded, read', expands, rfl⟩ := ofJson_eq_ok_iff.1 parsed
  cases read.symm.trans read'
  have root := Document.root_eq_apart read
  have written : document.Everywhere Schema.Plain := by
    have untouched := Document.everywhere_of_ofJson Schema.preserved_distinct_members distinct read
    refine ((names.and members).and untouched).imp fun node own => ⟨own.1.1, ?_⟩
    exact fun member mem => ⟨own.2 member mem, own.1.2 member mem⟩
  obtain ⟨plainRecord, plainTyped, hands⟩ := Document.exists_recordType_of_augment
    (Document.root_eq_apart_of_expand root expands)
    (Document.everywhere_of_expand root written expands) typed
  refine ⟨_, plainRecord, ofJson_eq_ok_iff.2 ⟨document, expanded, read, expands, rfl⟩,
    plainTyped, ?_⟩
  exact RecordType.validate_eq_ok_iff.2 (hands value (RecordType.validate_eq_ok_iff.1 valid))

/-- A receipt that asks for the reasoning behind it and behind each line, and for a quote. -/
def receiptJson : Json :=
  .object
    [("type", .string "object"), ("X-ReasoningPrompt", .string "Read all of it."),
      ("properties", .object
        [("total", .object [("type", .string "number"), ("X-SourceQuote", .bool true)]),
          ("lines", .object
            [("type", .string "array"),
              ("items", .object
                [("type", .string "object"), ("X-ReasoningPrompt", .string "Where does it end?"),
                  ("properties", .object
                    [("code", .object [("enum", .strings ["A", "B"])])])])])]),
      ("required", .strings ["total"])]

def receiptDocument : Document where
  root := .apart
    { types := [.object]
      properties :=
        [("total", { types := [.number], extensions := [("X-SourceQuote", .bool true)] }),
          ("lines",
            { types := [.array]
              items := some
                { types := [.object]
                  properties := [("code", { enumeration := some [.string "A", .string "B"] })]
                  extensions := [("X-ReasoningPrompt", .string "Where does it end?")] } })]
      required := ["total"]
      extensions := [("X-ReasoningPrompt", .string "Read all of it.")] }

def totalQuote : String :=
  "Verbatim quote from the source document that supports the value of `total`."

def receiptAugmented : Document where
  root := .apart
    { types := [.object]
      properties :=
        [("reasoning___root", Schema.textField "Read all of it."),
          ("total", .ofType .number), ("source___total", Schema.textField totalQuote),
          ("lines",
            { types := [.array]
              items := some
                { types := [.object]
                  properties :=
                    [("reasoning___item", Schema.textField "Where does it end?"),
                      ("code", { enumeration := some [.string "A", .string "B"] })]
                  required := ["reasoning___item"]
                  extensions := [("X-ReasoningPrompt", .string "Where does it end?")] } })]
      required := ["reasoning___root", "total", "source___total"]
      extensions := [("X-ReasoningPrompt", .string "Read all of it.")] }

def receiptRecord : RecordType where
  name := "Extraction"
  fields :=
    [⟨"reasoning___root", .scalar .string, false, some "Read all of it."⟩,
      ⟨"total", .scalar .number, false, none⟩,
      ⟨"source___total", .scalar .string, false, some totalQuote⟩,
      ⟨"lines",
        .list (.record "LinesItem"
          [⟨"reasoning___item", .scalar .string, false, some "Where does it end?"⟩,
            ⟨"code", .literal [.string "A", .string "B"], true, none⟩]),
        true, none⟩]

def receipt : Json :=
  .object
    [("reasoning___root", .string "Two lines."), ("total", .nat 7),
      ("source___total", .string "Total: 7"),
      ("lines", .array
        [.object [("reasoning___item", .string "At the comma."), ("code", .string "B")],
          .object [("reasoning___item", .string "At the end.")]])]

theorem filtered_receipt_is_valid :
    receiptRecord.validate receipt = .ok () ∧
    filter receipt =
      .object [("total", .nat 7), ("lines", .array [.object [("code", .string "B")], .object []])] ∧
    ∃ plain plainRecord, ofJson receiptJson { augment := false } = .ok plain ∧
      plain.recordType = .ok plainRecord ∧ plainRecord.validate (filter receipt) = .ok () := by
  have read : Document.ofJson receiptJson = .ok receiptDocument := rfl
  have augmented : receiptDocument.augment = receiptAugmented := rfl
  have parsed : ofJson receiptJson {} = .ok ⟨receiptAugmented, false, {}⟩ :=
    ofJson_eq_ok_iff.2 ⟨receiptDocument, receiptDocument, read, rfl, augmented ▸ rfl⟩
  have typed : recordType ⟨receiptAugmented, false, {}⟩ = .ok receiptRecord := by decide +kernel
  have valid : receiptRecord.validate receipt = .ok () := by decide
  refine ⟨valid, by decide, ?_⟩
  exact @filtered_value_is_valid receiptJson receipt {} receiptDocument _ receiptRecord (by decide)
    read ⟨by decide, by decide⟩ ⟨by decide, by decide⟩ parsed typed valid

end Prepared

end SchemaStream
