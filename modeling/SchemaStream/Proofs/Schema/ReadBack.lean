import SchemaStream.Proofs.Schema.Rendering

/-!
# Reading back what is written

A well-formed schema is read back as it was, but for one thing that is not written: whether
no types, or several, were listed.  It is written again as before.
-/

namespace SchemaStream

namespace Schema

/-- Whether types that are read back were listed. -/
def listedAgain (types : List JsonType) (listed : Bool) : Bool :=
  match types with
  | [] => false
  | [_] => listed
  | _ => true

mutual

/-- The schema that is read back from what is written for a schema. -/
def reread (schema : Schema) : Schema :=
  match schema with
  | { types, typesListed, properties, required, items, anyOf, oneOf, allOf, enumeration,
      reference, description, extensions, keywords } =>
      { types
        typesListed := listedAgain types typesListed
        properties := rereadProperties properties
        required
        items := rereadItems items
        anyOf := rereadMembers anyOf
        oneOf := rereadMembers oneOf
        allOf := rereadMembers allOf
        enumeration, reference, description, extensions, keywords }

def rereadProperties : List (String × Schema) → List (String × Schema)
  | [] => []
  | (name, schema) :: rest => (name, reread schema) :: rereadProperties rest

def rereadItems : Option Schema → Option Schema
  | none => none
  | some schema => some (reread schema)

def rereadMembers : List Schema → List Schema
  | [] => []
  | schema :: rest => reread schema :: rereadMembers rest

end

theorem rereadProperties_eq_mapValues (properties : List (String × Schema)) :
    rereadProperties properties = Members.mapValues reread properties := by
  induction properties with
  | nil => rfl
  | cons property rest ih => rw [rereadProperties, ih]; rfl

theorem rereadItems_eq_map (items : Option Schema) : rereadItems items = items.map reread := by
  cases items <;> rfl

theorem rereadMembers_eq_map (members : List Schema) :
    rereadMembers members = members.map reread := by
  induction members with
  | nil => rfl
  | cons member rest ih => rw [rereadMembers, ih, List.map_cons]

theorem reread_eq (schema : Schema) :
    schema.reread =
      { schema with
        typesListed := listedAgain schema.types schema.typesListed
        properties := Members.mapValues reread schema.properties
        items := schema.items.map reread
        anyOf := schema.anyOf.map reread
        oneOf := schema.oneOf.map reread
        allOf := schema.allOf.map reread } := by
  obtain ⟨⟩ := schema
  rw [reread, rereadProperties_eq_mapValues, rereadItems_eq_map, rereadMembers_eq_map,
    rereadMembers_eq_map, rereadMembers_eq_map]

variable {schema : Schema}

theorem children_reread (schema : Schema) :
    schema.reread.children = schema.children.map reread := by
  have items : (schema.items.map reread).toList = schema.items.toList.map reread := by
    cases schema.items <;> rfl
  rw [reread_eq]
  simp [children, Members.mapValues, Function.comp_def, items]

/-! ## Writing again -/

theorem typesMembers_listedAgain (types : List JsonType) (listed : Bool) :
    typesMembers types (listedAgain types listed) = typesMembers types listed := by
  match types with
  | [] | [_] | _ :: _ :: _ => rfl

theorem toJson_reread (schema : Schema) : schema.reread.toJson = schema.toJson := by
  induction schema using Schema.induct with
  | node schema ih =>
      have properties : Members.mapValues toJson (Members.mapValues reread schema.properties) =
          Members.mapValues toJson schema.properties := by
        rw [Members.mapValues, Members.mapValues, List.map_map]
        refine List.map_congr_left fun property mem => ?_
        exact congrArg (Prod.mk property.1) (ih _ (mem_children_of_properties mem))
      have items : itemsMembers (schema.items.map reread) = itemsMembers schema.items := by
        cases item : schema.items with
        | none => rfl
        | some child =>
            rw [Option.map_some, itemsMembers, itemsMembers, ih child (mem_children_of_items item)]
      have list {members : List Schema} (below : ∀ member ∈ members, member ∈ schema.children) :
          (members.map reread).map toJson = members.map toJson := by
        rw [List.map_map]
        exact List.map_congr_left fun member mem => ih member (below member mem)
      rw [toJson_eq, toJson_eq, written, written, reread_eq]
      simp only [typesMembers_listedAgain, properties, items,
        list fun _ => mem_children_of_anyOf, list fun _ => mem_children_of_oneOf,
        list fun _ => mem_children_of_allOf]

/-! ## Reading the keywords of a node one after the other -/

theorem readKeywords_append (schema : Schema) (before after : List (String × Json)) :
    readKeywords schema (before ++ after) = (do
      let schema ← readKeywords schema before
      readKeywords schema after) := by
  induction before generalizing schema with
  | nil =>
      rw [readKeywords]
      rfl
  | cons member rest ih =>
      obtain ⟨name, value⟩ := member
      rw [List.cons_append, readKeywords_cons, readKeywords_cons, bind_assoc]
      exact bind_congr ih

theorem readKeywords_singleton (schema : Schema) (name : String) (value : Json) :
    readKeywords schema [(name, value)] = readKeyword schema name value := by
  rw [readKeywords_cons]
  cases readKeyword schema name value <;> rfl

theorem readType_name (type : JsonType) : readType type.name = .ok type := by
  cases type <;> rfl

theorem mapM_readTypeEntry (types : List JsonType) :
    (types.map fun type => Json.string type.name).mapM readTypeEntry = .ok types := by
  rw [Outcome.mapM_eq_ok_iff, List.forall₂_map_left_iff, List.forall₂_same]
  exact fun type _ => readType_name type

theorem readTypes_typesJson (type : JsonType) (rest : List JsonType) (listed : Bool) :
    readTypes (typesJson (type :: rest) listed) =
      .ok (type :: rest, listedAgain (type :: rest) listed) := by
  have entries := mapM_readTypeEntry (type :: rest)
  cases rest with
  | nil =>
      cases listed with
      | false =>
          rw [typesJson, if_neg Bool.false_ne_true, readTypes, readType_name]
          rfl
      | true => exact Outcome.bind_eq_ok_iff.2 ⟨_, entries, rfl⟩
  | cons second more => exact Outcome.bind_eq_ok_iff.2 ⟨_, entries, rfl⟩

theorem readNames_strings {required : List String} (distinct : required.Nodup) :
    readNames (.strings required) = .ok required := by
  suffices every : ∀ listed : List String, (listed ++ required).Nodup →
      readRequired listed (required.map .string) = .ok (listed ++ required) from
    every [] distinct
  induction required with
  | nil =>
      intro listed _
      rw [List.append_nil]
      rfl
  | cons name rest ih =>
      intro listed distinct
      have absent : name ∉ listed := fun mem =>
        (List.nodup_append.1 distinct).2.2 _ mem _ List.mem_cons_self rfl
      have rest := (List.nodup_cons.1 (List.nodup_append.1 distinct).2.1).2
      rw [List.append_cons] at distinct ⊢
      rw [List.map_cons, readRequired, if_neg (by simpa using absent)]
      exact ih rest _ distinct

theorem readProperties_mapValues {properties : List (String × Schema)}
    (each : ∀ property ∈ properties, ofJson property.2.toJson = .ok property.2.reread) :
    readProperties (Members.mapValues toJson properties) =
      .ok (Members.mapValues reread properties) := by
  rw [readProperties_eq_mapM, Outcome.mapM_eq_ok_iff, Members.mapValues, Members.mapValues,
    List.forall₂_map_left_iff, List.forall₂_map_right_iff, List.forall₂_same]
  exact fun property mem => Outcome.bind_eq_ok_iff.2 ⟨_, each property mem, rfl⟩

theorem readMembers_map {members : List Schema}
    (each : ∀ member ∈ members, ofJson member.toJson = .ok member.reread) :
    readMembers (members.map toJson) = .ok (members.map reread) := by
  rw [readMembers_eq_mapM, Outcome.mapM_eq_ok_iff, List.forall₂_map_left_iff,
    List.forall₂_map_right_iff, List.forall₂_same]
  exact each

section

variable (schema)

theorem readKeywords_reference (reference : Option String) (fresh : schema.reference = none) :
    readKeywords schema (textMembers "$ref" reference) = .ok { schema with reference } := by
  cases reference with
  | none =>
      obtain ⟨⟩ := schema
      cases fresh
      rfl
  | some text => exact readKeywords_singleton schema "$ref" (.string text)

theorem readKeywords_types (types : List JsonType) (listed : Bool) (fresh : schema.types = [])
    (unlisted : schema.typesListed = false) :
    readKeywords schema (typesMembers types listed) =
      .ok { schema with types, typesListed := listedAgain types listed } := by
  cases types with
  | nil =>
      obtain ⟨⟩ := schema
      cases fresh
      cases unlisted
      rfl
  | cons type rest =>
      refine (readKeywords_singleton schema "type" _).trans ?_
      exact Outcome.bind_eq_ok_iff.2 ⟨_, readTypes_typesJson type rest listed, rfl⟩

theorem readKeywords_description (description : Option String)
    (fresh : schema.description = none) :
    readKeywords schema (textMembers "description" description) =
      .ok { schema with description } := by
  cases description with
  | none =>
      obtain ⟨⟩ := schema
      cases fresh
      rfl
  | some text => exact readKeywords_singleton schema "description" (.string text)

theorem readKeywords_properties {table : Members Json} {properties : Members Schema}
    (read : readProperties table = .ok properties) (fresh : schema.properties = []) :
    readKeywords schema (tableMembers "properties" table) = .ok { schema with properties } := by
  cases table with
  | nil =>
      obtain ⟨⟩ := schema
      cases fresh
      cases read
      rfl
  | cons entry rest =>
      refine (readKeywords_singleton schema "properties" _).trans ?_
      exact Outcome.bind_eq_ok_iff.2 ⟨_, read, rfl⟩

theorem readKeywords_required {required : List String} (distinct : required.Nodup)
    (fresh : schema.required = []) :
    readKeywords schema (requiredMembers required) = .ok { schema with required } := by
  cases required with
  | nil =>
      obtain ⟨⟩ := schema
      cases fresh
      rfl
  | cons name rest =>
      refine (readKeywords_singleton schema "required" _).trans ?_
      exact Outcome.bind_eq_ok_iff.2 ⟨_, readNames_strings distinct, rfl⟩

theorem readKeywords_items {items : Option Schema}
    (each : ∀ item, items = some item → ofJson item.toJson = .ok item.reread)
    (fresh : schema.items = none) :
    readKeywords schema (itemsMembers items) =
      .ok { schema with items := items.map reread } := by
  cases items with
  | none =>
      obtain ⟨⟩ := schema
      cases fresh
      rfl
  | some item =>
      refine (readKeywords_singleton schema "items" _).trans ?_
      exact Outcome.bind_eq_ok_iff.2 ⟨_, each item rfl, rfl⟩

/-- The members of a combinator go where its keyword puts them. -/
theorem readKeywords_combinator (keyword : String) (put : List Schema → Schema)
    (reads : ∀ value, readKeyword schema keyword value = (do
      let members ← readCombinator keyword value
      pure (put members)))
    (fresh : put [] = schema) {items : List Json} {members : List Schema}
    (read : readMembers items = .ok members) :
    readKeywords schema (listMembers keyword items) = .ok (put members) := by
  cases items with
  | nil =>
      cases read
      rw [fresh]
      rfl
  | cons item rest =>
      refine (readKeywords_singleton schema keyword _).trans ?_
      rw [reads, readCombinator, read]
      rfl

section

variable {schema} {items : List Json} {members : List Schema}
  (read : readMembers items = .ok members)
include read

theorem readKeywords_anyOf (fresh : schema.anyOf = []) :
    readKeywords schema (listMembers "anyOf" items) = .ok { schema with anyOf := members } := by
  refine readKeywords_combinator schema "anyOf" (fun members => { schema with anyOf := members })
    (fun _ => rfl) ?_ read
  obtain ⟨⟩ := schema
  cases fresh
  rfl

theorem readKeywords_oneOf (fresh : schema.oneOf = []) :
    readKeywords schema (listMembers "oneOf" items) = .ok { schema with oneOf := members } := by
  refine readKeywords_combinator schema "oneOf" (fun members => { schema with oneOf := members })
    (fun _ => rfl) ?_ read
  obtain ⟨⟩ := schema
  cases fresh
  rfl

theorem readKeywords_allOf (fresh : schema.allOf = []) :
    readKeywords schema (listMembers "allOf" items) = .ok { schema with allOf := members } := by
  refine readKeywords_combinator schema "allOf" (fun members => { schema with allOf := members })
    (fun _ => rfl) ?_ read
  obtain ⟨⟩ := schema
  cases fresh
  rfl

end

theorem readKeywords_enumeration (enumeration : Option (List Json))
    (fresh : schema.enumeration = none) :
    readKeywords schema (enumerationMembers enumeration) =
      .ok { schema with enumeration } := by
  cases enumeration with
  | none =>
      obtain ⟨⟩ := schema
      cases fresh
      rfl
  | some values => exact readKeywords_singleton schema "enum" (.array values)

theorem readKeywords_keywords {members : Members Json}
    (others : ∀ name ∈ Members.keys members, Keyword.ofName name = .other) :
    readKeywords schema members =
      .ok { schema with keywords := Members.insertAll schema.keywords members } := by
  induction members generalizing schema with
  | nil =>
      obtain ⟨⟩ := schema
      rfl
  | cons member rest ih =>
      obtain ⟨name, value⟩ := member
      have step : readKeyword schema name value =
          .ok { schema with keywords := Members.insert schema.keywords name value } := by
        rw [readKeyword, others name List.mem_cons_self]
        rfl
      rw [readKeywords_cons, step]
      exact ih _ fun other mem => others other (List.mem_cons_of_mem _ mem)

theorem readKeywords_extensions {members : Members Json}
    (extensions : ∀ name ∈ Members.keys members, Keyword.ofName name = .extensions) :
    readKeywords schema members =
      .ok { schema with extensions := Members.insertAll schema.extensions members } := by
  induction members generalizing schema with
  | nil =>
      obtain ⟨⟩ := schema
      rfl
  | cons member rest ih =>
      obtain ⟨name, value⟩ := member
      have step : readKeyword schema name value =
          .ok { schema with extensions := Members.insert schema.extensions name value } := by
        rw [readKeyword, extensions name List.mem_cons_self]
        rfl
      rw [readKeywords_cons, step]
      exact ih _ fun other mem => extensions other (List.mem_cons_of_mem _ mem)

end

theorem readKeywords_written (distinct : schema.required.Nodup)
    (each : ∀ child ∈ schema.children, ofJson child.toJson = .ok child.reread) :
    readKeywords {} schema.written =
      .ok { schema.reread with extensions := [], keywords := [] } := by
  have properties := readProperties_mapValues fun property mem =>
    each _ (mem_children_of_properties mem)
  have items (item : Schema) (own : schema.items = some item) :=
    each _ (mem_children_of_items own)
  have anyOf := readMembers_map fun member mem => each member (mem_children_of_anyOf mem)
  have oneOf := readMembers_map fun member mem => each member (mem_children_of_oneOf mem)
  have allOf := readMembers_map fun member mem => each member (mem_children_of_allOf mem)
  rw [written, reread_eq]
  simp only [readKeywords_append, readKeywords_reference, readKeywords_types,
    readKeywords_description, readKeywords_properties _ properties,
    readKeywords_required _ distinct, readKeywords_items _ items, readKeywords_anyOf anyOf,
    readKeywords_oneOf oneOf, readKeywords_allOf allOf, readKeywords_enumeration, Outcome.ok_bind]

theorem ofJson_toJson (wellFormed : schema.WellFormed) :
    ofJson schema.toJson = .ok schema.reread := by
  induction schema using Schema.induct with
  | node schema ih =>
      obtain ⟨tidy, below⟩ := everywhere_iff.1 wellFormed
      have each (child : Schema) (mem : child ∈ schema.children) := ih child mem (below child mem)
      have keywords : Members.insertAll [] schema.keywords = schema.keywords :=
        Members.ofList_eq_self tidy.keywords.distinct
      have extensions : Members.insertAll [] schema.extensions = schema.extensions :=
        Members.ofList_eq_self tidy.extensions.distinct
      rw [toJson_eq, ofJson, readKeywords_append, readKeywords_append,
        readKeywords_written tidy.required each, reread_eq]
      simp only [readKeywords_keywords _ tidy.keywords.kinds,
        readKeywords_extensions _ tidy.extensions.kinds, keywords, extensions, Outcome.ok_bind]

/-- No member is written under the name of a table, unless a node carries it along. -/
theorem Carrying.table_not_mem_members (carrying : schema.Carrying)
    (tableless : ∀ table : TableKeyword, table.name ∉ Members.keys schema.keywords)
    (table : TableKeyword) :
    table.name ∉ Members.keys (schema.written ++ schema.keywords ++ schema.extensions) := by
  have plain : table.name ∉ meaningful ∧ Keyword.ofName table.name ≠ .extensions := by
    cases table <;> decide
  simp only [Members.keys, List.map_append, List.mem_append, not_or]
  refine ⟨⟨fun mem => plain.1 ((keys_written_sublist schema).subset mem), tableless table⟩, ?_⟩
  exact fun mem => plain.2 (carrying.extensions.kinds _ mem)

end Schema

namespace Document

variable {document : Document}

/-- The document that is read back from what is written for a document. -/
def reread (document : Document) : Document where
  root := .apart document.schema.reread
  definitions := Members.mapValues Schema.reread document.definitions
  table := if document.definitions.isEmpty then .definitions else document.table

theorem toJson_reread (document : Document) : document.reread.toJson = document.toJson := by
  have written : Members.mapValues Schema.toJson (Members.mapValues Schema.reread
      document.definitions) = Members.mapValues Schema.toJson document.definitions := by
    rw [Members.mapValues, Members.mapValues, List.map_map]
    refine List.map_congr_left fun definition _ => ?_
    exact congrArg (Prod.mk definition.1) (Schema.toJson_reread definition.2)
  rw [toJson, toJson, Schema.propertiesJson_eq_mapValues, Schema.propertiesJson_eq_mapValues]
  change withTable document.reread document.schema.reread.toJson (Members.mapValues Schema.toJson
    (Members.mapValues Schema.reread document.definitions)) = _
  rw [written, Schema.toJson_reread, Schema.toJson_eq, withTable, withTable]
  cases defined : document.definitions with
  | nil => rfl
  | cons definition rest => simp only [reread, defined, List.isEmpty_cons, Bool.false_eq_true,
      if_false]

/-! ## Reading the table and the root -/

theorem readTable_of_absent {members : Members Json} {table : TableKeyword}
    (absent : table.name ∉ Members.keys members) (before : Members Schema) :
    readTable members table before = .ok before := by
  rw [readTable, Members.get?_eq_none_iff.2 absent]

theorem readTable_of_get? {members entries : Members Json} {table : TableKeyword}
    {definitions : Members Schema}
    (found : Members.get? members table.name = some (.object entries))
    (reads : Schema.readProperties entries = .ok definitions)
    (distinct : (Members.keys definitions).Nodup) :
    readTable members table [] = .ok definitions := by
  rw [readTable, found]
  dsimp only
  rw [reads]
  exact congrArg Except.ok (Members.ofList_eq_self distinct)

section

variable {members : Members Json} {schema : Schema}
  (absent : ∀ table : TableKeyword, table.name ∉ Members.keys members)
  (reads : Schema.readKeywords {} members = .ok schema)
include absent reads

theorem ofJson_of_absent : ofJson (.object members) = .ok { root := .apart schema } := by
  have rest : Members.erase (Members.erase members TableKeyword.definitions.name)
      TableKeyword.defs.name = members := by
    rw [Members.erase_of_not_mem (absent .definitions), Members.erase_of_not_mem (absent .defs)]
  have none : Members.has members TableKeyword.defs.name = false := by
    simpa [← Members.has_iff_mem_keys] using absent .defs
  simp only [ofJson, readTable_of_absent (absent _), rest, reads, none, Outcome.ok_bind]
  rfl

theorem ofJson_of_table {entries : Members Json} {definitions : Members Schema}
    (table : TableKeyword) (read : Schema.readProperties entries = .ok definitions)
    (distinct : (Members.keys definitions).Nodup) :
    ofJson (.object (members ++ [(table.name, .object entries)])) =
      .ok { root := .apart schema, definitions, table } := by
  generalize all : members ++ [(table.name, Json.object entries)] = written
  have found : Members.get? written table.name = some (.object entries) := by
    rw [← all, Members.get?_append, Members.get?_eq_none_iff.2 (absent table), Option.none_or,
      Members.get?, if_pos rfl]
  have first : readTable written table [] = .ok definitions :=
    readTable_of_get? found read distinct
  have closed : Members.erase written table.name = members := by
    rw [← all, Members.erase_append_singleton (absent table)]
  have other (keyword : TableKeyword) (ne : keyword.name ≠ table.name) :
      keyword.name ∉ Members.keys written := by
    rw [← all, Members.keys, List.map_append, List.mem_append, not_or]
    exact ⟨absent keyword, by simpa using ne⟩
  cases table with
  | definitions =>
      have others := other .defs (by decide)
      have none : Members.has written TableKeyword.defs.name = false := by
        simpa [← Members.has_iff_mem_keys] using others
      simp only [ofJson, first, readTable_of_absent others, closed,
        Members.erase_of_not_mem (absent .defs), reads, none, Outcome.ok_bind]
      rfl
  | defs =>
      have others := other .definitions (by decide)
      have some : Members.has written TableKeyword.defs.name = true := by
        rw [Members.has, found, Option.isSome_some]
      simp only [ofJson, first, readTable_of_absent others, Members.erase_of_not_mem others, closed,
        reads, some, Outcome.ok_bind]
      rfl

end

/-- A document whose root does not carry a table along is read back. -/
theorem ofJson_toJson (schema : document.schema.WellFormed)
    (definitions : ∀ definition ∈ document.definitions, definition.2.WellFormed)
    (distinct : (Members.keys document.definitions).Nodup)
    (tableless : ∀ table : TableKeyword, table.name ∉ Members.keys document.schema.keywords) :
    ofJson document.toJson = .ok document.reread := by
  have absent := (Schema.everywhere_iff.1 schema).1.carrying.table_not_mem_members tableless
  have root := Schema.ofJson_toJson schema
  rw [Schema.toJson_eq, Schema.ofJson] at root
  rw [toJson, Schema.toJson_eq, Schema.propertiesJson_eq_mapValues, withTable]
  cases defined : document.definitions with
  | nil =>
      rw [reread, defined]
      exact ofJson_of_absent absent root
  | cons definition rest =>
      rw [← defined, if_neg (by simp [defined, Members.mapValues]),
        Members.insert_of_not_mem _ (absent document.table)]
      have read := Schema.readProperties_mapValues fun definition mem =>
        Schema.ofJson_toJson (definitions definition mem)
      rw [ofJson_of_table absent root document.table read (by rwa [Members.keys_mapValues])]
      simp [reread, defined]

end Document

end SchemaStream
