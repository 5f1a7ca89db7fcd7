import SchemaStream.Proofs.Outcome
import SchemaStream.Schema.Strict

/-!
# Values that conform to strict schemas

What a strict schema lets constrained decoding say: a value conforms if each keyword of the
schema holds of it.  The types and texts of a node, and the values below it, can be read off
the schema that the node is compiled to.
-/

namespace SchemaStream

/-- Whether a value is of a type.  An integer is any number without a fraction. -/
def JsonType.admits : JsonType → Json → Bool
  | .object, .object _ | .array, .array _ | .string, .string _ | .number, .number _
  | .boolean, .bool _ | .null, .null => true
  | .integer, .number value => value.isIntegral
  | _, _ => false

namespace Strict

def admitsNamed (value name : Json) : Bool :=
  (name.string? >>= JsonType.ofName?).any fun type => type.admits value

def typeHolds (keyword value : Json) : Bool :=
  match keyword with
  | .array names => names.any (admitsNamed value)
  | name => admitsNamed value name

def enumerationHolds (keyword value : Json) : Bool :=
  match keyword with
  | .array values => values.any fun member => member.same value
  | _ => true

mutual

def conforms (schema value : Json) : Bool :=
  match schema with
  | .object keywords => keywordsHold keywords value
  | _ => false
termination_by structural schema

def keywordsHold (keywords : List (String × Json)) (value : Json) : Bool :=
  match keywords with
  | [] => true
  | (name, keyword) :: rest => holds name keyword value && keywordsHold rest value
termination_by structural keywords

/-- Whether one keyword holds of a value.  An object has exactly the listed properties. -/
def holds (name : String) (keyword value : Json) : Bool :=
  if name = "type" then typeHolds keyword value
  else if name = "enum" then enumerationHolds keyword value
  else
    match keyword with
    | .object table =>
        match value with
        | .object members =>
            name ≠ "properties" || (propertiesHold table members &&
              members.all fun member => Members.has table member.1)
        | .array items => name ≠ "items" || items.all fun item => keywordsHold table item
        | _ => true
    | .array options =>
        if name = "anyOf" || name = "oneOf" then conformsToSome options value
        else if name = "allOf" then conformsToEvery options value
        else true
    | _ => true
termination_by structural keyword

def propertiesHold (table : List (String × Json)) (members : Members Json) : Bool :=
  match table with
  | [] => true
  | (name, schema) :: rest =>
      (match Members.get? members name with
        | some value => conforms schema value
        | none => false) && propertiesHold rest members
termination_by structural table

def conformsToSome (options : List Json) (value : Json) : Bool :=
  match options with
  | [] => false
  | schema :: rest => conforms schema value || conformsToSome rest value
termination_by structural options

def conformsToEvery (options : List Json) (value : Json) : Bool :=
  match options with
  | [] => true
  | schema :: rest => conforms schema value && conformsToEvery rest value
termination_by structural options

end

variable {value keyword : Json} {keywords : List (String × Json)}

/-! ## Keywords -/

theorem conforms_object_iff :
    conforms (.object keywords) value = true ↔
      ∀ keyword ∈ keywords, holds keyword.1 keyword.2 value = true := by
  rw [conforms]
  induction keywords with
  | nil => simp [keywordsHold]
  | cons keyword rest ih => rw [keywordsHold, Bool.and_eq_true, ih, List.forall_mem_cons]

theorem conformsToEvery_iff {options : List Json} :
    conformsToEvery options value = true ↔ ∀ option ∈ options, conforms option value = true := by
  induction options with
  | nil => simp [conformsToEvery]
  | cons option rest ih => rw [conformsToEvery, Bool.and_eq_true, ih, List.forall_mem_cons]

theorem propertiesHold_iff {table members : Members Json} :
    propertiesHold table members = true ↔
      ∀ entry ∈ table, ∃ found, Members.get? members entry.1 = some found ∧
        conforms entry.2 found = true := by
  induction table with
  | nil => simp [propertiesHold]
  | cons entry rest ih =>
      rw [propertiesHold, Bool.and_eq_true, ih, List.forall_mem_cons]
      cases Members.get? members entry.1 <;> simp

theorem holds_type : holds "type" keyword value = typeHolds keyword value := by
  cases keyword <;> simp [holds]

theorem holds_enum : holds "enum" keyword value = enumerationHolds keyword value := by
  cases keyword <;> simp [holds]

theorem holds_properties_iff {table members : Members Json} :
    holds "properties" (.object table) (.object members) = true ↔
      (∀ entry ∈ table, ∃ found, Members.get? members entry.1 = some found ∧
        conforms entry.2 found = true) ∧
          ∀ member ∈ members, member.1 ∈ Members.keys table := by
  simp [holds, propertiesHold_iff, Members.has_iff_mem_keys]

theorem holds_items_iff {table : Members Json} {items : List Json} :
    holds "items" (.object table) (.array items) = true ↔
      ∀ item ∈ items, conforms (.object table) item = true := by
  simp [holds, conforms]

theorem holds_allOf_iff {options : List Json} :
    holds "allOf" (.array options) value = true ↔
      ∀ option ∈ options, conforms option value = true := by
  simp [holds, conformsToEvery_iff]

example : conforms
    (.object
      [("type", .string "object"),
        ("properties", .object
          [("a", .object [("type", .array [.string "number", .string "null"])])])])
    (.object [("a", .null)]) = true := by decide

/-! ## Types -/

theorem ofName?_name (type : JsonType) : JsonType.ofName? type.name = some type := by
  cases type <;> decide

theorem mem_distinct_iff {α : Type} [BEq α] [LawfulBEq α] {entries : List α} {entry : α} :
    entry ∈ distinct entries ↔ entry ∈ entries := by
  suffices every : ∀ found : List α, entry ∈ entries.foldl (fun found entry =>
      if found.contains entry then found else found ++ [entry]) found ↔
        entry ∈ found ∨ entry ∈ entries by
    rw [distinct, every []]
    simp
  induction entries with
  | nil => simp
  | cons first rest ih =>
      intro found
      rw [List.foldl_cons, ih, List.mem_cons]
      split
      · next known =>
          rw [List.contains_iff_mem] at known
          constructor
          · rintro (mem | mem)
            · exact .inl mem
            · exact .inr (.inr mem)
          · rintro (mem | rfl | mem)
            · exact .inl mem
            · exact .inl known
            · exact .inr mem
      · rw [List.mem_append, List.mem_singleton, or_assoc]

/-- A value satisfies written types if one of them admits it. -/
theorem exists_of_typeHolds {types : List JsonType} {listed : Bool}
    (holds : typeHolds (Schema.typesJson types listed) value = true) :
    ∃ type ∈ types, type.admits value = true := by
  have named (type : JsonType) (h : admitsNamed value (.string type.name) = true) :
      type.admits value = true := by
    simpa [admitsNamed, Json.string?, ofName?_name] using h
  have list (h : (types.map fun type => Json.string type.name).any (admitsNamed value) = true) :
      ∃ type ∈ types, type.admits value = true := by
    rw [List.any_map, List.any_eq_true] at h
    obtain ⟨type, mem, admits⟩ := h
    exact ⟨type, mem, named type admits⟩
  unfold Schema.typesJson at holds
  split at holds
  · next type =>
      split at holds
      · exact list holds
      · exact ⟨type, List.mem_singleton.2 rfl, named type holds⟩
  · exact list holds

/-! ## What compiled nodes demand -/

variable {context : Context} {schema : Schema}

/-- Whether a value conforms to what a node is compiled to. -/
def conformsTo (context : Context) (schema : Schema) (value : Json) : Bool :=
  match compileNode context schema with
  | .ok strict => conforms strict value
  | .error _ => false

theorem conformsTo_iff :
    conformsTo context schema value = true ↔
      ∃ strict, compileNode context schema = .ok strict ∧ conforms strict value = true := by
  rw [conformsTo]
  cases compileNode context schema <;> simp

theorem compileItems_eq_ok_iff {items : Option Schema} {members : Members Json} :
    compileItems context items = .ok members ↔
      items = none ∧ members = [] ∨ ∃ item strict, items = some item ∧
        compileNode context item = .ok strict ∧ members = [("items", strict)] := by
  cases items with
  | none => simp [compileItems, eq_comm]
  | some item =>
      rw [compileItems, Outcome.bind_eq_ok_iff]
      simp [pure, Except.pure, eq_comm]

/-- What a node without a reference is compiled to, from what its parts are compiled to. -/
def assembled (options : StrictOptions) (schema : Schema) (object items : Members Json)
    (anyOf oneOf allOf : List Json) : Members Json :=
  typeMembers schema.types schema.typesListed schema.enumeration ++
    Schema.textMembers "description" schema.description ++ object ++ items ++
    Schema.listMembers "anyOf" anyOf ++ Schema.listMembers "oneOf" oneOf ++
    Schema.listMembers "allOf" allOf ++ keptKeywords options schema.keywords ++
    keptExtensions options schema.extensions

/-- The outcome for a node without a reference and for its parts. -/
theorem compileNode_eq_ok_iff_of_no_reference (none : schema.reference = none) {strict : Json} :
    compileNode context schema = .ok strict ↔
      ∃ object items anyOf oneOf allOf,
        (if hasProperties schema then
          (compileProperties context schema.properties).map objectMembers
        else .ok []) = .ok object ∧
        compileItems context schema.items = .ok items ∧
        compileMembers context schema.anyOf = .ok anyOf ∧
        compileMembers context schema.oneOf = .ok oneOf ∧
        compileMembers context schema.allOf = .ok allOf ∧
        .object (assembled context.options schema object items anyOf oneOf allOf) = strict := by
  obtain ⟨types, listed, properties, required, items, anyOf, oneOf, allOf, enumeration, reference,
    description, extensions, keywords⟩ := schema
  cases none
  rw [compileNode]
  generalize hasProperties _ = object
  cases object
  all_goals
    simp only [if_true, Bool.false_eq_true, if_false, Outcome.bind_eq_ok_iff, pure, Except.pure,
      Except.ok.injEq]
    constructor
    · rintro ⟨object, ho, items, hi, anyOf, ha, oneOf, hn, allOf, hl, same⟩
      exact ⟨object, items, anyOf, oneOf, allOf, ho, hi, ha, hn, hl, same⟩
    · rintro ⟨object, items, anyOf, oneOf, allOf, ho, hi, ha, hn, hl, same⟩
      exact ⟨object, ho, items, hi, anyOf, ha, oneOf, hn, allOf, hl, same⟩

/-- The outcome for a node with a reference. -/
theorem compileNode_eq_ok_iff_of_reference {reference : String}
    (refers : schema.reference = some reference) {strict : Json} :
    compileNode context schema = .ok strict ↔
      ∃ name, Reference.name? reference = some name ∧ name ∈ Members.keys context.definitions ∧
        name ∈ context.tolerated ∧ .object [("$ref", .string reference)] = strict := by
  obtain ⟨⟩ := schema
  cases refers
  rw [compileNode, compileReference, Outcome.bind_eq_ok_iff, Reference.resolve]
  cases named : Reference.name? reference with
  | none => simp
  | some name =>
      simp only [Members.mem_keys_iff_exists_get?]
      cases found : Members.get? context.definitions name with
      | none => simp [found]
      | some body =>
          by_cases tolerated : name ∈ context.tolerated <;>
            simp [found, tolerated, pure, Except.pure, throw, throwThe, MonadExceptOf.throw]

theorem reference_eq_none_of_compileNode (bare : context.definitions = []) {strict : Json}
    (compiles : compileNode context schema = .ok strict) : schema.reference = none := by
  cases refers : schema.reference with
  | none => rfl
  | some reference =>
      obtain ⟨name, -, defined, -⟩ := (compileNode_eq_ok_iff_of_reference refers).1 compiles
      simp [bare, Members.keys] at defined

/-- What conforming to a compiled node means for a value and what is below it. -/
structure Obeys (context : Context) (schema : Schema) (value : Json) : Prop where
  reference : schema.reference = none
  types : schema.enumeration = none → schema.types ≠ [] →
    ∃ type ∈ schema.types, (narrowed type).admits value = true
  enumeration : ∀ values, schema.enumeration = some values →
    ∃ member ∈ values, value = .string (memberText member)
  properties : hasProperties schema = true → ∀ members, value = .object members →
    ∀ property ∈ schema.properties, ∃ found, Members.get? members property.1 = some found ∧
      conformsTo context property.2 found = true
  items : ∀ item, schema.items = some item → ∀ elements, value = .array elements →
    ∀ element ∈ elements, conformsTo context item element = true
  allOf : ∀ member ∈ schema.allOf, conformsTo context member value = true

theorem exists_of_typesMembers {types : List JsonType} {listed : Bool} (some : types ≠ [])
    (hold : ∀ keyword ∈ Schema.typesMembers (narrowTypes types) listed,
      holds keyword.1 keyword.2 value = true) :
    ∃ type ∈ types, (narrowed type).admits value = true := by
  have mem_iff {type : JsonType} :
      type ∈ narrowTypes types ↔ ∃ own ∈ types, narrowed own = type := by
    rw [narrowTypes, mem_distinct_iff, List.mem_map]
  have written : (narrowTypes types).isEmpty = false := by
    obtain ⟨first, mem⟩ := List.exists_mem_of_ne_nil types some
    rw [List.isEmpty_eq_false_iff]
    exact List.ne_nil_of_mem (mem_iff.2 ⟨first, mem, rfl⟩)
  rw [Schema.typesMembers, written] at hold
  have keyword := hold _ (List.mem_singleton.2 rfl)
  rw [holds_type] at keyword
  obtain ⟨type, mem, admits⟩ := exists_of_typeHolds keyword
  obtain ⟨own, below, rfl⟩ := mem_iff.1 mem
  exact ⟨own, below, admits⟩

theorem exists_of_enumerationHolds {values : List Json}
    (hold : enumerationHolds (.strings (memberTexts values)) value = true) :
    ∃ member ∈ values, value = .string (memberText member) := by
  rw [Json.strings, enumerationHolds, List.any_map, List.any_eq_true] at hold
  obtain ⟨text, mem, same⟩ := hold
  rw [memberTexts, mem_distinct_iff, List.mem_map] at mem
  obtain ⟨member, below, rfl⟩ := mem
  refine ⟨member, below, ?_⟩
  cases value with
  | string own => exact congrArg Json.string (eq_of_beq same).symm
  | _ => simp [Json.same] at same

theorem forall₂_of_compileProperties {properties : Members Schema} {table : Members Json}
    (compiles : compileProperties context properties = .ok table) :
    List.Forall₂ (fun property entry => property.1 = entry.1 ∧
      compileNode context property.2 = .ok entry.2) properties table := by
  rw [compileProperties_eq_mapM, Outcome.mapM_eq_ok_iff] at compiles
  refine compiles.imp fun property entry own => ?_
  obtain ⟨strict, compiled, same⟩ := Outcome.bind_eq_ok_iff.1 own
  cases same
  exact ⟨rfl, compiled⟩

theorem exists_of_compileProperties {properties : List (String × Schema)} {table : Members Json}
    (compiles : compileProperties context properties = .ok table) {property : String × Schema}
    (mem : property ∈ properties) :
    ∃ strict, (property.1, strict) ∈ table ∧ compileNode context property.2 = .ok strict := by
  obtain ⟨⟨name, strict⟩, below, same, found⟩ :=
    Outcome.exists_of_forall₂ (forall₂_of_compileProperties compiles) mem
  cases same
  exact ⟨strict, below, found⟩

theorem conformsTo_of_allOf {members : List Schema} {compiled : List Json}
    (compiles : compileMembers context members = .ok compiled)
    (hold : ∀ keyword ∈ Schema.listMembers "allOf" compiled,
      holds keyword.1 keyword.2 value = true) :
    ∀ member ∈ members, conformsTo context member value = true := by
  intro member mem
  rw [compileMembers_eq_mapM, Outcome.mapM_eq_ok_iff] at compiles
  obtain ⟨strict, below, h⟩ := Outcome.exists_of_forall₂ compiles mem
  have written : compiled.isEmpty = false := by
    rw [List.isEmpty_eq_false_iff]
    exact List.ne_nil_of_mem below
  rw [Schema.listMembers, written] at hold
  have keyword := hold _ (List.mem_singleton.2 rfl)
  exact conformsTo_iff.2 ⟨strict, h, holds_allOf_iff.1 keyword strict below⟩

theorem obeys_of_conformsTo (bare : context.definitions = [])
    (conforming : conformsTo context schema value = true) : Obeys context schema value := by
  obtain ⟨strict, compiles, accepts⟩ := conformsTo_iff.1 conforming
  have none := reference_eq_none_of_compileNode bare compiles
  obtain ⟨object, items, anyOf, oneOf, allOf, ho, hi, -, -, ha, rfl⟩ :=
    (compileNode_eq_ok_iff_of_no_reference none).1 compiles
  simp only [assembled, conforms_object_iff, List.forall_mem_append] at accepts
  obtain ⟨⟨⟨⟨⟨⟨⟨⟨types, -⟩, holdObject⟩, holdItems⟩, -⟩, -⟩, holdAllOf⟩, -⟩, -⟩ := accepts
  constructor
  case reference => exact none
  case types =>
    intro unlisted some
    rw [unlisted, typeMembers] at types
    exact exists_of_typesMembers some types
  case enumeration =>
    intro values listed
    rw [listed, typeMembers] at types
    have keyword := types ("enum", .strings (memberTexts values)) (by simp)
    rw [holds_enum] at keyword
    exact exists_of_enumerationHolds keyword
  case properties =>
    intro own members isObject property mem
    rw [if_pos own] at ho
    obtain ⟨table, compiled, rfl⟩ := Outcome.map_eq_ok_iff.1 ho
    have keyword := holdObject ("properties", .object table) (by simp [objectMembers])
    rw [isObject, holds_properties_iff] at keyword
    obtain ⟨strict, below, own⟩ := exists_of_compileProperties compiled mem
    obtain ⟨found, present, accepted⟩ := keyword.1 _ below
    exact ⟨found, present, conformsTo_iff.2 ⟨strict, own, accepted⟩⟩
  case items =>
    intro item own elements isArray element mem
    obtain ⟨absent, -⟩ | ⟨_, strict, found, compiled, rfl⟩ := compileItems_eq_ok_iff.1 hi
    · cases own.symm.trans absent
    cases own.symm.trans found
    have keyword := holdItems _ (List.mem_singleton.2 rfl)
    obtain ⟨_, _, _, _, _, -, -, -, -, -, rfl⟩ := (compileNode_eq_ok_iff_of_no_reference
      (reference_eq_none_of_compileNode bare compiled)).1 compiled
    rw [isArray, holds_items_iff] at keyword
    exact conformsTo_iff.2 ⟨_, compiled, keyword element mem⟩
  case allOf => exact conformsTo_of_allOf ha holdAllOf

end Strict

end SchemaStream
