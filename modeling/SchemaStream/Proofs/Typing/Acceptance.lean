import SchemaStream.Proofs.Schema.Reading
import SchemaStream.Proofs.Typing.Integrality
import SchemaStream.Typing.Synthesis
import SchemaStream.Typing.Validation

/-!
# Types accept what conforms

The strict schema and the type of a node are made independently of each other.  A value that
conforms to the one is accepted by the other where the nodes are explicit: the strict form
does not have the type of an object that does not state it, nor the members of an enumeration
that are no strings.
-/

namespace SchemaStream

open Strict (Context conformsTo integral hasProperties Obeys IntegralAt)

/-! ## Types that report nothing -/

namespace FieldType

variable {type : FieldType} {key name : String} {value : Json}

theorem issues_null_of_isNullable (nullable : type.isNullable = true) :
    type.issues key .null = [] := by
  cases type with
  | scalar kind => cases kind <;> simp_all [isNullable, issues, ScalarKind.accepts]
  | nullable inner => simp [issues]
  | union => simp [issues]
  | literal values => simp [isNullable] at nullable
  | record name fields => simp [isNullable] at nullable
  | list element => simp [isNullable] at nullable

theorem issues_orNull (accepted : value ≠ .null → type.issues key value = []) :
    type.orNull.issues key value = [] := by
  unfold orNull
  split
  · next nullable =>
      by_cases null : value = .null
      · rw [null]
        exact issues_null_of_isNullable nullable
      · exact accepted null
  · cases value with
    | null => simp [issues]
    | _ => simpa [issues] using accepted

theorem issues_record {members : Members Json} {fields : List (Field FieldType)}
    (each : ∀ field ∈ fields, ∃ found, Members.get? members field.name = some found ∧
      ∀ key, field.type.issues key found = []) :
    (record name fields).issues key (.object members) = [] := by
  rw [issues, fieldIssues_eq_flatMap, List.flatMap_eq_nil_iff]
  intro field mem
  obtain ⟨found, present, accepted⟩ := each field mem
  rw [issuesAt, present]
  cases found with
  | null => simp [accepted]
  | _ => simp [accepted]

theorem issues_list {elements : List Json}
    (each : ∀ element ∈ elements, ∀ key, type.issues key element = []) :
    (list type).issues key (.array elements) = [] := by
  rw [issues, List.flatMap_eq_nil_iff]
  rintro ⟨element, index⟩ mem
  exact each element (List.fst_mem_of_mem_zipIdx mem) _

theorem issues_literal {values : List Json} {text : String} (mem : .string text ∈ values) :
    (literal values).issues key (.string text) = [] := by
  have found : values.any (fun member => member.same (.string text)) = true :=
    List.any_eq_true.2 ⟨_, mem, by simp [Json.same]⟩
  rw [issues, found, if_pos rfl]

end FieldType

namespace Schema

/-! ## Kinds -/

variable {schema : Schema} {type : JsonType}

/-- Any other keyword only counts without an enumeration. -/
theorem enumeration_eq_none {kind : SchemaKind} (is : schema.kind = kind)
    (unreferring : kind ≠ .reference) (unlisted : kind ≠ .enumeration) :
    schema.enumeration = none := by
  cases h : schema.enumeration with
  | none => rfl
  | some values =>
      unfold Schema.kind at is
      rw [h] at is
      split at is
      · exact absurd is.symm unreferring
      · exact absurd is.symm unlisted

theorem exists_of_kind_enumeration (h : schema.kind = .enumeration) :
    ∃ values, schema.enumeration = some values := by
  cases listed : schema.enumeration with
  | some values => exact ⟨values, rfl⟩
  | none =>
      unfold kind at h
      simp only [listed, Option.isSome_none] at h
      repeat' split at h
      all_goals simp_all

theorem types_of_kind (h : schema.kind = .ofType type) :
    schema.types = [type] ∨ schema.types = [] ∧ type = .object ∧ schema.properties ≠ [] := by
  unfold kind at h
  repeat' split at h
  all_goals simp_all

theorem types_of_typeUnion (h : schema.kind = .typeUnion) : schema.types ≠ [] := by
  intro none
  unfold kind at h
  repeat' split at h
  all_goals simp_all

theorem fieldType_eq (context : TypeContext) (below : String → Schema → FieldType) (name : String)
    (schema : Schema) :
    schema.fieldType context below name =
      let record := FieldType.record (schema.title?.getD name)
        (recordFields context below schema.required schema.properties)
      let list := FieldType.list
        (itemsType context below (TypeName.ofItem name) schema.items)
      match schema.kind with
      | .reference =>
          match schema.reference >>= context.target? with
          | some target => below name target
          | none => .union
      | .enumeration => .literal (schema.enumeration.getD [])
      | .any => .scalar .any
      | .ofType type => singleType type record list
      | .typeUnion => unionType schema.types record list
      | .anyOf => membersType context below name schema.anyOf
      | .oneOf => membersType context below name schema.oneOf
      | .allOf =>
          match schema.allOf with
          | [member] => member.fieldType context below name
          | _ => .union := by
  obtain ⟨⟩ := schema
  exact fieldType.eq_def context below name _

/-! ## Nodes -/

/-- A node whose strict form says what it says: an object states its type, and an enumeration
has the text of each member as a member. -/
structure Explicit (schema : Schema) : Prop where
  texts : ∀ values, schema.enumeration = some values →
    ∀ member ∈ values, .string (Strict.memberText member) ∈ values
  stated : schema.kind = .ofType .object → schema.types ≠ []

theorem explicit_iff :
    schema.Explicit ↔
      (∀ member ∈ schema.enumeration.getD [],
        .string (Strict.memberText member) ∈ schema.enumeration.getD []) ∧
          (schema.kind = .ofType .object → schema.types ≠ []) := by
  constructor
  · rintro ⟨texts, stated⟩
    refine ⟨fun member mem => ?_, stated⟩
    cases h : schema.enumeration with
    | none => simp [h] at mem
    | some values => exact texts values h member (by simpa [h] using mem)
  · rintro ⟨texts, stated⟩
    refine ⟨fun values listed => ?_, stated⟩
    simpa [listed] using texts

instance : DecidablePred Explicit := fun _ => decidable_of_iff _ explicit_iff.symm

variable {context : Context} {typeContext : TypeContext} {below : String → Schema → FieldType}
  {value : Json} {name key : String}

/-- That values conforming to a node are accepted by its type, under whatever name and key. -/
def Accepts (context : Context) (typeContext : TypeContext)
    (below : String → Schema → FieldType) (schema : Schema) : Prop :=
  ∀ value name key, conformsTo context schema value = true →
    integral context schema value = true →
      (schema.fieldType typeContext below name).issues key value = []

theorem issues_record_of_obeys (obeys : Obeys context schema value)
    (integral : IntegralAt context schema value) (own : hasProperties schema = true)
    (each : ∀ property ∈ schema.properties, Accepts context typeContext below property.2)
    {members : Members Json} (isObject : value = .object members) :
    (FieldType.record name
      (recordFields typeContext below schema.required schema.properties)).issues key value =
        [] := by
  rw [isObject]
  refine FieldType.issues_record fun field mem => ?_
  rw [recordFields_eq_map, List.mem_map] at mem
  obtain ⟨property, mem, rfl⟩ := mem
  obtain ⟨found, present, conforming⟩ := obeys.properties own members isObject property mem
  have whole := integral.properties members isObject property mem found present
  exact ⟨found, present, fun key => each property mem found _ key conforming whole⟩

theorem issues_list_of_obeys (obeys : Obeys context schema value)
    (integral : IntegralAt context schema value)
    (each : ∀ item, schema.items = some item → Accepts context typeContext below item)
    {elements : List Json} (isArray : value = .array elements) :
    (FieldType.list (itemsType typeContext below name schema.items)).issues key value = [] := by
  rw [isArray]
  refine FieldType.issues_list fun element mem key => ?_
  cases h : schema.items with
  | none => simp [itemsType, FieldType.issues, ScalarKind.accepts]
  | some item =>
      have conforming := obeys.items item h elements isArray element mem
      have whole := integral.items item h elements isArray element mem
      exact each item h element name key conforming whole

/-- A value of the strict form of a type is accepted as that type. -/
theorem issues_singleType {record list : FieldType}
    (admits : (Strict.narrowed type).admits value = true)
    (whole : type = .integer → ∀ number, value = .number number → number.isIntegral = true)
    (isObject : type = .object → ∀ members, value = .object members →
      record.issues key value = [])
    (isArray : type = .array → ∀ elements, value = .array elements → list.issues key value = []) :
    (singleType type record list).issues key value = [] := by
  cases type with
  | object =>
      cases value with
      | object members => exact isObject rfl members rfl
      | _ => simp [Strict.narrowed, JsonType.admits] at admits
  | array =>
      cases value with
      | array elements => exact isArray rfl elements rfl
      | _ => simp [Strict.narrowed, JsonType.admits] at admits
  | integer =>
      cases value with
      | number number =>
          have accepted := whole rfl number rfl
          simp [singleType, ScalarKind.ofType?, FieldType.issues, ScalarKind.accepts, accepted]
      | _ => simp [Strict.narrowed, JsonType.admits] at admits
  | string | number | boolean | null =>
      cases value <;> simp_all [Strict.narrowed, JsonType.admits, singleType, ScalarKind.ofType?,
        FieldType.issues, ScalarKind.accepts]

theorem eq_null_of_admits (admits : (Strict.narrowed .null).admits value = true) :
    value = .null := by
  cases value <;> simp_all [Strict.narrowed, JsonType.admits]

/-- Of a union of types, only one type besides null is asked for. -/
theorem issues_unionType {record list : FieldType} {types : List JsonType}
    (admits : ∃ type ∈ types, (Strict.narrowed type).admits value = true)
    (single : ∀ type ∈ types, (type = .integer → .number ∉ types) →
      (Strict.narrowed type).admits value = true →
        (singleType type record list).issues key value = []) :
    (unionType types record list).issues key value = [] := by
  obtain ⟨own, mem, admits⟩ := admits
  unfold unionType
  split
  · next type only =>
      have others {other : JsonType} (below : other ∈ types) (ne : other ≠ .null) :
          other = type := by
        have kept : other ∈ types.filter (· ≠ .null) := List.mem_filter.2 ⟨below, by simp [ne]⟩
        rwa [only, List.mem_singleton] at kept
      have one : type ∈ types := by
        have kept : type ∈ types.filter (· ≠ .null) := only ▸ List.mem_singleton.2 rfl
        exact (List.mem_filter.1 kept).1
      have accepted (ne : own ≠ .null) : (singleType type record list).issues key value = [] := by
        obtain rfl := others mem ne
        refine single own mem (fun integer number => ?_) admits
        cases integer.symm.trans (others number nofun).symm
      dsimp only
      split
      · refine FieldType.issues_orNull fun ne => accepted ?_
        rintro rfl
        exact ne (eq_null_of_admits admits)
      · next absent =>
          refine accepted ?_
          rintro rfl
          exact absent (List.contains_iff_mem.2 mem)
  · rw [FieldType.issues]

theorem eq_null_of_isNull (bare : context.definitions = []) (null : schema.isNull = true)
    (conforming : conformsTo context schema value = true) : value = .null := by
  have kind : schema.kind = .ofType .null := by simpa [isNull] using null
  have obeys := Strict.obeys_of_conformsTo bare conforming
  have types : schema.types = [.null] := by
    rcases types_of_kind kind with types | ⟨-, other, -⟩
    · exact types
    · cases other
  obtain ⟨type, mem, admits⟩ := obeys.types
    (enumeration_eq_none kind nofun nofun) (by simp [types])
  rw [types, List.mem_singleton] at mem
  exact eq_null_of_admits (mem ▸ admits)

/-- Of a union of schemas, only one schema besides null is asked for. -/
theorem issues_membersType (bare : context.definitions = []) {members : List Schema}
    (each : ∀ member ∈ members, Accepts context typeContext below member)
    (some : members ≠ [] → ∃ member ∈ members,
      conformsTo context member value = true ∧ integral context member value = true) :
    (membersType typeContext below name members).issues key value = [] := by
  unfold membersType
  split
  · next first second =>
      obtain ⟨member, mem, conforming, whole⟩ := some (by simp)
      have accepted := each member mem value name key conforming whole
      simp only [List.mem_cons, List.not_mem_nil, or_false] at mem
      split
      · next null _ =>
          refine FieldType.issues_orNull fun ne => ?_
          rcases mem with rfl | rfl
          · exact absurd (eq_null_of_isNull bare null conforming) ne
          · exact accepted
      · next _ null =>
          refine FieldType.issues_orNull fun ne => ?_
          rcases mem with rfl | rfl
          · exact accepted
          · exact absurd (eq_null_of_isNull bare null conforming) ne
      · rw [FieldType.issues]
  · rw [FieldType.issues]

/-- Values that conform to an explicit node are accepted by its type. -/
theorem accepts_of_explicit (bare : context.definitions = [])
    (explicit : schema.Everywhere Explicit) : Accepts context typeContext below schema := by
  induction schema using Schema.induct with
  | node schema ih =>
      obtain ⟨own, children⟩ := everywhere_iff.1 explicit
      have each {child : Schema} (mem : child ∈ schema.children) :
          Accepts context typeContext below child := ih child mem (children child mem)
      intro value name key conforming whole
      have obeys := Strict.obeys_of_conformsTo bare conforming
      have integral := Strict.integralAt_of_integral whole
      have single {type : JsonType} (unlisted : schema.enumeration = none)
          (mem : type ∈ schema.types) (integers : type = .integer → .number ∉ schema.types)
          (admits : (Strict.narrowed type).admits value = true) :
          (singleType type
            (.record (schema.title?.getD name)
              (recordFields typeContext below schema.required schema.properties))
            (.list (itemsType typeContext below (TypeName.ofItem name) schema.items))).issues key
              value = [] := by
        refine issues_singleType admits ?_ ?_ ?_
        · rintro rfl number rfl
          have fractionless := integral.own
          simpa [Strict.integralFor, mem, integers rfl] using fractionless
        · rintro rfl members isObject
          have owns : hasProperties schema = true := by simp [hasProperties, mem, unlisted]
          exact issues_record_of_obeys obeys integral owns
            (fun property mem => each (mem_children_of_properties mem)) isObject
        · rintro rfl elements isArray
          exact issues_list_of_obeys obeys integral
            (fun item h => each (mem_children_of_items h)) isArray
      rw [fieldType_eq]
      dsimp only
      split
      · simp [obeys.reference, FieldType.issues]
      · next kind =>
          obtain ⟨values, listed⟩ := exists_of_kind_enumeration kind
          obtain ⟨member, mem, rfl⟩ := obeys.enumeration values listed
          rw [listed, Option.getD_some]
          exact FieldType.issues_literal (own.texts values listed member mem)
      · simp [FieldType.issues, ScalarKind.accepts]
      · next type kind =>
          have unlisted := enumeration_eq_none kind nofun nofun
          have types : schema.types = [type] := by
            rcases types_of_kind kind with types | ⟨none, rfl, -⟩
            · exact types
            · exact absurd none (own.stated kind)
          obtain ⟨other, mem, admits⟩ := obeys.types unlisted (by simp [types])
          have same : other = type := by simpa [types] using mem
          refine single unlisted (by simp [types]) ?_ (same ▸ admits)
          rintro rfl
          simp [types]
      · next kind =>
          have unlisted := enumeration_eq_none kind nofun nofun
          exact issues_unionType (obeys.types unlisted (types_of_typeUnion kind))
            fun type mem integers admits => single unlisted mem integers admits
      · exact issues_membersType bare
          (fun member mem => each (mem_children_of_anyOf mem)) integral.anyOf
      · exact issues_membersType bare
          (fun member mem => each (mem_children_of_oneOf mem)) integral.oneOf
      · split
        · next member sole =>
            have mem : member ∈ schema.allOf := by simp [sole]
            exact each (mem_children_of_allOf mem) value name key (obeys.allOf member mem)
              (integral.allOf member mem)
        · rw [FieldType.issues]

theorem hasProperties_of_describesObject (describes : schema.describesObject = true) :
    hasProperties schema = true := by
  simp only [describesObject, isObject, Bool.or_eq_true, Bool.and_eq_true, decide_eq_true_eq,
    List.contains_iff_mem] at describes
  rcases describes with kind | ⟨kind, mem⟩
  · have unlisted := enumeration_eq_none kind nofun nofun
    rcases types_of_kind kind with types | ⟨none, -, some⟩
    · simp [hasProperties, types, unlisted]
    · simp [hasProperties, none, some, unlisted]
  · have unlisted := enumeration_eq_none kind nofun nofun
    simp [hasProperties, mem, unlisted]

end Schema

end SchemaStream
