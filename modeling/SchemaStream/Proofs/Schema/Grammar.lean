import SchemaStream.Proofs.Schema.ReadBack

/-!
# What is a schema

The written schemas by their shape, apart from how they are read: an object whose keywords have
values of their kinds, with schemas at the places of schemas, or `true`.  A document is a schema
whose tables are objects of schemas.  These are the values that are read, and no others.
-/

namespace SchemaStream

namespace Keyword

/-- The name of a keyword, if it has only one. -/
def spelling? : Keyword → Option String
  | .type => some "type"
  | .properties => some "properties"
  | .required => some "required"
  | .items => some "items"
  | .anyOf => some "anyOf"
  | .oneOf => some "oneOf"
  | .allOf => some "allOf"
  | .enumeration => some "enum"
  | .reference => some "$ref"
  | .description => some "description"
  | .extensions | .other => none

theorem eq_of_spelling? {name spelled : String} (found : (ofName name).spelling? = some spelled) :
    name = spelled := by
  unfold ofName at found
  repeat' split at found
  all_goals first
    | cases found; assumption
    | cases found

end Keyword

namespace Json

/-- A value of the kind that a keyword asks for, apart from the schemas that stand in it. -/
def Fits : Keyword → Json → Prop
  | .type, value => (∃ type : JsonType, value = .string type.name) ∨
      ∃ types : List JsonType, value = .strings (types.map JsonType.name)
  | .properties, value => ∃ table, value = .object table
  | .required, value => ∃ names, value = .strings names
  | .anyOf, value | .oneOf, value | .allOf, value => ∃ members, value = .array members
  | .enumeration, value => ∃ values, value = .array values
  | .reference, value | .description, value => ∃ text, value = .string text
  | .items, _ | .extensions, _ | .other, _ => True

/-- The written schemas. -/
inductive IsSchema : Json → Prop
  | true : IsSchema (.bool true)
  | object {members : Members Json}
      (fits : ∀ member ∈ members, Fits (Keyword.ofName member.1) member.2)
      (below : ∀ child ∈ subschemas (.object members), IsSchema child) : IsSchema (.object members)

theorem isSchema_object_iff {members : Members Json} :
    IsSchema (.object members) ↔
      (∀ member ∈ members, Fits (Keyword.ofName member.1) member.2) ∧
        ∀ child ∈ subschemas (.object members), IsSchema child := by
  constructor
  · rintro (_ | ⟨fits, below⟩)
    exact ⟨fits, below⟩
  · rintro ⟨fits, below⟩
    exact .object fits below

/-- To show something of every value, show it of a value from the schemas right below it. -/
theorem inductSubschemas {motive : Json → Prop}
    (step : ∀ value : Json, (∀ child ∈ value.subschemas, motive child) → motive value)
    (value : Json) : motive value := by
  -- a schema may stand one level deeper than a member, in a table or a list
  suffices both : motive value ∧ ∀ keyword, ∀ child ∈ subschemasAt keyword value, motive child from
    both.1
  have leaf {value : Json} (bare : value.subschemas = [])
      (none : ∀ keyword, ∀ child ∈ subschemasAt keyword value, child = value) :
      motive value ∧ ∀ keyword, ∀ child ∈ subschemasAt keyword value, motive child := by
    have own : motive value := step value (bare ▸ List.forall_mem_nil _)
    exact ⟨own, fun keyword child mem => none keyword child mem ▸ own⟩
  have apart {value : Json} (within : ∀ keyword, subschemasAt keyword value ⊆ [value])
      (keyword : Keyword) (child : Json) (mem : child ∈ subschemasAt keyword value) :
      child = value := List.mem_singleton.1 (within keyword mem)
  induction value with
  | null | bool _ | number _ | string _ =>
      exact leaf rfl (apart fun keyword => by cases keyword <;> simp [subschemasAt])
  | array items ih =>
      have own : motive (.array items) := step _ (List.forall_mem_nil _)
      refine ⟨own, fun keyword child mem => ?_⟩
      cases keyword with
      | items => exact List.mem_singleton.1 mem ▸ own
      | anyOf | oneOf | allOf => exact (ih child mem).1
      | _ => exact absurd mem List.not_mem_nil
  | object members ih =>
      have own : motive (.object members) := by
        refine step _ fun child mem => ?_
        obtain ⟨member, within, below⟩ := mem_subschemas_iff.1 mem
        exact (ih member within).2 _ child below
      refine ⟨own, fun keyword child mem => ?_⟩
      cases keyword with
      | items => exact List.mem_singleton.1 mem ▸ own
      | properties =>
          obtain ⟨entry, within, rfl⟩ := List.mem_map.1 mem
          exact (ih entry within).1
      | _ => exact absurd mem List.not_mem_nil

/-- The written documents: a schema, but for its tables, which are objects of schemas. -/
inductive IsDocument : Json → Prop
  | object {members : Members Json} (root : IsSchema (.object (Document.untabled members)))
      (tables : ∀ (table : TableKeyword) (value : Json),
        Members.get? members table.name = some value →
          ∃ entries, value = .object entries ∧ ∀ entry ∈ entries, IsSchema entry.2) :
      IsDocument (.object members)

end Json

namespace Outcome

variable {ε α β : Type}

theorem not_exists_error {fault : ε} :
    ¬ ∃ result : α, (Except.error fault : Except ε α) = .ok result := by
  rintro ⟨result, same⟩
  cases same

theorem exists_mapM_iff {f : α → Except ε β} {list : List α} :
    (∃ results, list.mapM f = .ok results) ↔ ∀ value ∈ list, ∃ result, f value = .ok result := by
  refine ⟨?_, exists_mapM⟩
  rintro ⟨results, all⟩ value mem
  obtain ⟨result, -, found⟩ := exists_of_forall₂ (mapM_eq_ok_iff.1 all) mem
  exact ⟨result, found⟩

theorem exists_bind_pure_iff {first : Except ε α} {put : α → β} :
    (∃ result, (do let value ← first; pure (put value)) = Except.ok result) ↔
      ∃ value, first = .ok value := by
  constructor
  · rintro ⟨result, both⟩
    obtain ⟨value, found, -⟩ := bind_eq_ok_iff.1 both
    exact ⟨value, found⟩
  · rintro ⟨value, found⟩
    exact ⟨put value, bind_eq_ok_iff.2 ⟨value, found, rfl⟩⟩

end Outcome

namespace Schema

open Json (Fits IsSchema subschemasAt)

variable {schema : Schema} {name : String} {value : Json} {members : Members Json}

/-! ## Values that are read -/

theorem readType_eq_ok_iff {type : JsonType} :
    readType name = .ok type ↔ name = type.name := by
  constructor
  · intro read
    rw [readType] at read
    cases found : JsonType.ofName? name with
    | none =>
        rw [found] at read
        cases read
    | some own =>
        rw [found] at read
        cases read
        rw [JsonType.ofName?] at found
        have named := List.find?_some found
        exact (of_decide_eq_true named).symm
  · rintro rfl
    exact readType_name type

theorem mapM_readTypeEntry_eq_ok_iff {entries : List Json} {types : List JsonType} :
    entries.mapM readTypeEntry = .ok types ↔
      entries = types.map fun type => .string type.name := by
  have each (entry : Json) (type : JsonType) :
      readTypeEntry entry = .ok type ↔ entry = .string type.name := by
    cases entry with
    | string name => rw [readTypeEntry, readType_eq_ok_iff, Json.string.injEq]
    | _ => exact iff_of_false nofun nofun
  rw [Outcome.mapM_eq_ok_iff]
  simp only [each]
  rw [← List.forall₂_map_right_iff (R := Eq), List.forall₂_eq_eq_eq]

theorem exists_readTypes_iff : (∃ types, readTypes value = .ok types) ↔ Fits .type value := by
  cases value with
  | string name =>
      rw [readTypes, Outcome.exists_bind_pure_iff]
      constructor
      · rintro ⟨type, read⟩
        exact .inl ⟨type, congrArg Json.string (readType_eq_ok_iff.1 read)⟩
      · rintro (⟨type, same⟩ | ⟨types, same⟩)
        · exact ⟨type, readType_eq_ok_iff.2 (Json.string.inj same)⟩
        · cases same
  | array entries =>
      rw [readTypes, Outcome.exists_bind_pure_iff]
      have written (types : List JsonType) :
          Json.strings (types.map JsonType.name) =
            .array (types.map fun type => .string type.name) := by
        rw [Json.strings, List.map_map]
        rfl
      constructor
      · rintro ⟨types, read⟩
        rw [mapM_readTypeEntry_eq_ok_iff] at read
        exact .inr ⟨types, by rw [written, read]⟩
      · rintro (⟨type, same⟩ | ⟨types, same⟩)
        · cases same
        · rw [written, Json.array.injEq] at same
          exact ⟨types, mapM_readTypeEntry_eq_ok_iff.2 same⟩
  | _ =>
      refine iff_of_false Outcome.not_exists_error ?_
      rintro (⟨type, same⟩ | ⟨types, same⟩)
      · cases same
      · cases same

theorem exists_readRequired_iff {listed : List String} {names : List Json} :
    (∃ required, readRequired listed names = .ok required) ↔
      ∃ texts : List String, names = texts.map Json.string := by
  induction names generalizing listed with
  | nil => exact iff_of_true ⟨listed, rfl⟩ ⟨[], rfl⟩
  | cons first rest ih =>
      cases first with
      | string name =>
          rw [readRequired, ih]
          constructor
          · rintro ⟨texts, rfl⟩
            exact ⟨name :: texts, rfl⟩
          · rintro ⟨texts, same⟩
            cases texts with
            | nil => cases same
            | cons text texts => exact ⟨texts, (List.cons.inj same).2⟩
      | _ =>
          refine iff_of_false Outcome.not_exists_error ?_
          rintro ⟨texts, same⟩
          cases texts <;> cases same

theorem exists_readNames_iff :
    (∃ names, readNames value = .ok names) ↔ Fits .required value := by
  cases value with
  | array names =>
      rw [readNames, exists_readRequired_iff]
      exact exists_congr fun texts => by rw [Json.strings, Json.array.injEq]
  | _ =>
      refine iff_of_false Outcome.not_exists_error ?_
      rintro ⟨texts, same⟩
      cases same

theorem exists_readTable_iff : (∃ table, readTable value = .ok table) ↔
    Fits .properties value ∧
      ∀ child ∈ subschemasAt .properties value, ∃ read, ofJson child = .ok read := by
  cases value with
  | object table =>
      rw [readTable, readProperties_eq_mapM, Outcome.exists_mapM_iff]
      simp only [Outcome.exists_bind_pure_iff]
      rw [and_iff_right ⟨table, rfl⟩, subschemasAt, List.forall_mem_map]
  | _ =>
      refine iff_of_false Outcome.not_exists_error ?_
      rintro ⟨⟨table, same⟩, -⟩
      cases same

theorem exists_readCombinator_iff (keyword : String) :
    (∃ schemas, readCombinator keyword value = .ok schemas) ↔
      (∃ members, value = .array members) ∧
        ∀ child ∈ subschemasAt .anyOf value, ∃ read, ofJson child = .ok read := by
  cases value with
  | array members =>
      rw [readCombinator, readMembers_eq_mapM, Outcome.exists_mapM_iff]
      exact (and_iff_right ⟨members, rfl⟩).symm
  | _ =>
      refine iff_of_false Outcome.not_exists_error ?_
      rintro ⟨⟨members, same⟩, -⟩
      cases same

theorem exists_readText_iff (fault : MalformedSchema) :
    (∃ text, readText fault value = .ok text) ↔ ∃ text, value = .string text := by
  cases value with
  | string text => exact iff_of_true ⟨text, rfl⟩ ⟨text, rfl⟩
  | _ =>
      refine iff_of_false Outcome.not_exists_error ?_
      rintro ⟨text, same⟩
      cases same

theorem exists_readEnumeration_iff :
    (∃ values, readEnumeration value = .ok values) ↔ ∃ values, value = .array values := by
  cases value with
  | array values => exact iff_of_true ⟨values, rfl⟩ ⟨values, rfl⟩
  | _ =>
      refine iff_of_false Outcome.not_exists_error ?_
      rintro ⟨values, same⟩
      cases same

/-! ## Schemas that are read -/

/-- A keyword is read if its value is of its kind and the schemas right below are read, whatever
was read before. -/
theorem exists_readKeyword_iff :
    (∃ result, readKeyword schema name value = .ok result) ↔
      Fits (Keyword.ofName name) value ∧
        ∀ child ∈ subschemasAt (Keyword.ofName name) value, ∃ read, ofJson child = .ok read := by
  rw [readKeyword]
  cases Keyword.ofName name with
  | type =>
      rw [Outcome.exists_bind_pure_iff, exists_readTypes_iff]
      exact (and_iff_left (List.forall_mem_nil _)).symm
  | properties => rw [Outcome.exists_bind_pure_iff, exists_readTable_iff]
  | required =>
      rw [Outcome.exists_bind_pure_iff, exists_readNames_iff]
      exact (and_iff_left (List.forall_mem_nil _)).symm
  | items =>
      rw [Outcome.exists_bind_pure_iff, subschemasAt, List.forall_mem_singleton]
      exact (and_iff_right trivial).symm
  | anyOf | oneOf | allOf =>
      rw [Outcome.exists_bind_pure_iff, exists_readCombinator_iff]
      cases value <;> rfl
  | enumeration =>
      rw [Outcome.exists_bind_pure_iff, exists_readEnumeration_iff]
      exact (and_iff_left (List.forall_mem_nil _)).symm
  | reference | description =>
      rw [Outcome.exists_bind_pure_iff, exists_readText_iff]
      exact (and_iff_left (List.forall_mem_nil _)).symm
  | extensions | other => exact iff_of_true ⟨_, rfl⟩ ⟨trivial, List.forall_mem_nil _⟩

theorem exists_readKeywords_iff :
    (∃ result, readKeywords schema members = .ok result) ↔
      (∀ member ∈ members, Fits (Keyword.ofName member.1) member.2) ∧
        ∀ child ∈ Json.subschemas (.object members), ∃ read, ofJson child = .ok read := by
  induction members generalizing schema with
  | nil => exact iff_of_true ⟨schema, rfl⟩ ⟨List.forall_mem_nil _, List.forall_mem_nil _⟩
  | cons member rest ih =>
      obtain ⟨name, value⟩ := member
      have step : (∃ next, readKeyword schema name value = .ok next) ↔ _ := exists_readKeyword_iff
      rw [readKeywords_cons, List.forall_mem_cons, Json.subschemas, List.flatMap_cons,
        List.forall_mem_append, and_and_and_comm, ← step]
      simp only [Outcome.bind_eq_ok_iff]
      constructor
      · rintro ⟨result, next, first, others⟩
        exact ⟨⟨next, first⟩, ih.1 ⟨result, others⟩⟩
      · rintro ⟨⟨next, first⟩, others⟩
        obtain ⟨result, read⟩ : ∃ result, readKeywords next rest = .ok result := ih.2 others
        exact ⟨result, next, first, read⟩

/-- The written schemas are those that are read. -/
theorem exists_ofJson_iff : (∃ schema, ofJson value = .ok schema) ↔ value.IsSchema := by
  induction value using Json.inductSubschemas with
  | step value ih =>
      cases value with
      | object members =>
          rw [ofJson, exists_readKeywords_iff, Json.isSchema_object_iff]
          exact and_congr_right fun _ => forall₂_congr ih
      | bool value =>
          cases value with
          | false =>
              refine iff_of_false Outcome.not_exists_error fun schema => ?_
              cases schema
          | true => exact iff_of_true ⟨{}, rfl⟩ .true
      | _ =>
          refine iff_of_false Outcome.not_exists_error fun schema => ?_
          cases schema

theorem exists_readProperties_iff {entries : Members Json} :
    (∃ table, readProperties entries = .ok table) ↔ ∀ entry ∈ entries, entry.2.IsSchema := by
  rw [readProperties_eq_mapM, Outcome.exists_mapM_iff]
  simp only [Outcome.exists_bind_pure_iff, exists_ofJson_iff]

end Schema

namespace Document

open Json (IsDocument IsSchema)

variable {value : Json} {members : Members Json}

theorem exists_readTable_iff {table : TableKeyword} {before : Members Schema} :
    (∃ after, readTable members table before = .ok after) ↔
      ∀ value, Members.get? members table.name = some value →
        ∃ entries, value = .object entries ∧ ∀ entry ∈ entries, IsSchema entry.2 := by
  simp only [← Schema.exists_readProperties_iff, readTable_eq_ok_iff]
  cases found : Members.get? members table.name with
  | none => exact iff_of_true ⟨before, .inl ⟨rfl, rfl⟩⟩ nofun
  | some value =>
      constructor
      · rintro ⟨after, ⟨absent, -⟩ | ⟨entries, added, here, read, -⟩⟩ other same
        · cases absent
        · cases here
          cases same
          exact ⟨entries, rfl, added, read⟩
      · intro all
        obtain ⟨entries, rfl, added, read⟩ := all value rfl
        exact ⟨_, .inr ⟨entries, added, rfl, read, rfl⟩⟩

/-- The written documents are those that are read. -/
theorem exists_ofJson_iff : (∃ document, ofJson value = .ok document) ↔ value.IsDocument := by
  simp only [ofJson_eq_ok_iff]
  constructor
  · rintro ⟨document, members, first, definitions, root, rfl, read, again, schema, -⟩
    refine .object (Schema.exists_ofJson_iff.1 ⟨root, schema⟩) ?_
    rintro (_ | _)
    · exact exists_readTable_iff.1 ⟨first, read⟩
    · exact exists_readTable_iff.1 ⟨definitions, again⟩
  · rintro ⟨root, tables⟩
    obtain ⟨root, schema⟩ := Schema.exists_ofJson_iff.2 root
    obtain ⟨first, read⟩ := exists_readTable_iff.2 (tables .definitions)
    obtain ⟨definitions, again⟩ := exists_readTable_iff.2 (tables .defs)
    exact ⟨_, _, first, definitions, root, rfl, read, again, schema, rfl⟩

end Document

end SchemaStream
