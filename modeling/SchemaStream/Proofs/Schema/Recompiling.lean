import SchemaStream.Proofs.Schema.ReadBack
import SchemaStream.Proofs.StrictDialect

/-!
# Compiling what is compiled

What a node is compiled to is read as a node that compiles to it again, part by part: the types are
narrow, an enumeration holds strings, an object requires its properties, and nothing is left to
strip.  A reference that is tolerated is read as it is.
-/

namespace SchemaStream

namespace Strict

open Schema (listedAgain readKeywords)

variable {context other : Context} {options : StrictOptions} {schema : Schema} {strict : Json}

/-! ## Entries that come first -/

theorem distinct_eq_self {α : Type} [BEq α] [LawfulBEq α] {entries : List α}
    (nodup : entries.Nodup) : distinct entries = entries := by
  suffices every : ∀ found : List α, (found ++ entries).Nodup →
      (entries.foldl (fun found entry =>
        if found.contains entry then found else found ++ [entry]) found) = found ++ entries from
    every [] nodup
  clear nodup
  induction entries with
  | nil => exact fun found _ => (List.append_nil found).symm
  | cons first rest ih =>
      intro found nodup
      have fresh : first ∉ found := fun mem =>
        (List.nodup_append.1 nodup).2.2 _ mem _ List.mem_cons_self rfl
      rw [List.append_cons] at nodup ⊢
      rw [List.foldl_cons, if_neg (by simpa using fresh)]
      exact ih _ nodup

theorem narrowTypes_narrowTypes (types : List JsonType) :
    narrowTypes (narrowTypes types) = narrowTypes types := by
  have narrow : (narrowTypes types).map narrowed = narrowTypes types := by
    refine (List.map_congr_left fun type mem => ?_).trans (List.map_id _)
    obtain ⟨own, -, rfl⟩ := List.mem_map.1 (mem_distinct_iff.1 mem)
    cases own <;> rfl
  rw [narrowTypes, narrow]
  exact distinct_eq_self (nodup_distinct _)

theorem memberTexts_strings (values : List Json) :
    memberTexts ((memberTexts values).map Json.string) = memberTexts values := by
  have texts : ((memberTexts values).map Json.string).map memberText = memberTexts values := by
    rw [List.map_map]
    exact List.map_id _
  rw [memberTexts, texts]
  exact distinct_eq_self (nodup_distinct _)

theorem contains_object_narrowTypes (types : List JsonType) :
    (narrowTypes types).contains .object = types.contains .object := by
  rw [Bool.eq_iff_iff, List.contains_iff_mem, List.contains_iff_mem, narrowTypes, mem_distinct_iff,
    List.mem_map]
  constructor
  · rintro ⟨own, mem, same⟩
    cases own <;> first | exact mem | cases same
  · intro mem
    exact ⟨.object, mem, rfl⟩

theorem isEmpty_narrowTypes (types : List JsonType) :
    (narrowTypes types).isEmpty = types.isEmpty := by
  rw [Bool.eq_iff_iff, List.isEmpty_iff, List.isEmpty_iff, List.eq_nil_iff_forall_not_mem]
  constructor
  · intro none
    refine List.eq_nil_iff_forall_not_mem.2 fun type mem => none (narrowed type) ?_
    exact mem_distinct_iff.2 (List.mem_map_of_mem mem)
  · rintro rfl
    exact fun _ => List.not_mem_nil

/-! ## The parts of a node -/

/-- What is stated of the types and the members of a node, as it is read back. -/
def stated (schema : Schema) : Schema :=
  match schema.enumeration with
  | none =>
      { types := narrowTypes schema.types
        typesListed := listedAgain (narrowTypes schema.types) schema.typesListed }
  | some values =>
      { types := [.string], enumeration := some ((memberTexts values).map .string) }

theorem readKeywords_typeMembers (schema : Schema) :
    readKeywords {} (typeMembers schema.types schema.typesListed schema.enumeration) =
      .ok (stated schema) := by
  rw [stated]
  cases schema.enumeration with
  | none => exact Schema.readKeywords_types {} _ _ rfl rfl
  | some values => rfl

theorem exists_stated_eq (schema : Schema) :
    ∃ types listed enumeration,
      stated schema = { types, typesListed := listed, enumeration } := by
  rw [stated]
  cases schema.enumeration <;> exact ⟨_, _, _, rfl⟩

theorem typeMembers_stated (schema : Schema) :
    typeMembers (stated schema).types (stated schema).typesListed (stated schema).enumeration =
      typeMembers schema.types schema.typesListed schema.enumeration := by
  rw [stated]
  cases schema.enumeration with
  | none =>
      rw [typeMembers, narrowTypes_narrowTypes, typeMembers, Schema.typesMembers_listedAgain]
  | some values => rw [typeMembers, memberTexts_strings, typeMembers]

/-- A node that states the same, with as many properties if there are to be any, is an object if
the node was. -/
theorem hasProperties_eq {again : Schema} (types : again.types = (stated schema).types)
    (enumeration : again.enumeration = (stated schema).enumeration)
    (properties : again.properties.isEmpty =
      (!hasProperties schema || schema.properties.isEmpty)) :
    hasProperties again = hasProperties schema := by
  rw [hasProperties, types, enumeration, properties, stated]
  cases listed : schema.enumeration with
  | some values => simp [hasProperties, listed]
  | none =>
      simp only [contains_object_narrowTypes, isEmpty_narrowTypes, hasProperties, listed]
      cases schema.types.contains .object <;> cases schema.types.isEmpty <;>
        cases schema.properties.isEmpty <;> rfl

theorem keptKeywords_keptKeywords (options : StrictOptions) (keywords : Members Json) :
    keptKeywords options (keptKeywords options keywords) = keptKeywords options keywords := by
  rw [keptKeywords, keptKeywords, List.filter_filter]
  simp only [Bool.and_self]

theorem keptExtensions_keptExtensions (options : StrictOptions) (extensions : Members Json) :
    keptExtensions options (keptExtensions options extensions) =
      keptExtensions options extensions := by
  rw [keptExtensions, keptExtensions]
  split <;> rfl

/-! ## Compiled schemas that compile to themselves -/

/-- Two contexts that leave out the same and tell the same of every reference. -/
structure Agrees (context other : Context) : Prop where
  options : other.options = context.options
  tolerated : other.tolerated = context.tolerated
  names : Members.keys other.definitions = Members.keys context.definitions

/-- A value that is read as a schema which compiles to it. -/
def Recompiles (context : Context) (strict : Json) : Prop :=
  ∃ again, Schema.ofJson strict = .ok again ∧
    ∀ other, Agrees context other → compileNode other again = .ok strict

theorem exists_compileMembers_again {compiled : List Json}
    (each : ∀ strict ∈ compiled, Recompiles context strict) :
    ∃ again, Schema.readMembers compiled = .ok again ∧
      ∀ other, Agrees context other → compileMembers other again = .ok compiled := by
  induction compiled with
  | nil => exact ⟨[], rfl, fun _ _ => rfl⟩
  | cons strict rest ih =>
      obtain ⟨⟨own, read, compiles⟩, others⟩ := List.forall_mem_cons.1 each
      obtain ⟨again, reads, all⟩ := ih others
      refine ⟨own :: again, ?_, fun other agrees => ?_⟩
      · rw [Schema.readMembers, read, Outcome.ok_bind, reads, Outcome.ok_bind]
        rfl
      · rw [compileMembers, compiles other agrees, Outcome.ok_bind, all other agrees]
        rfl

theorem exists_compileProperties_again {table : Members Json}
    (each : ∀ entry ∈ table, Recompiles context entry.2) :
    ∃ again, Schema.readProperties table = .ok again ∧
      ∀ other, Agrees context other → compileProperties other again = .ok table := by
  induction table with
  | nil => exact ⟨[], rfl, fun _ _ => rfl⟩
  | cons entry rest ih =>
      obtain ⟨name, strict⟩ := entry
      obtain ⟨⟨own, read, compiles⟩, others⟩ := List.forall_mem_cons.1 each
      obtain ⟨again, reads, all⟩ := ih others
      refine ⟨(name, own) :: again, ?_, fun other agrees => ?_⟩
      · rw [Schema.readProperties, read, Outcome.ok_bind, reads, Outcome.ok_bind]
        rfl
      · rw [compileProperties, compiles other agrees, Outcome.ok_bind, all other agrees]
        rfl

theorem exists_compileItems_again {items : Option Schema} {compiled : Members Json}
    (compiles : compileItems context items = .ok compiled)
    (each : ∀ item strict, items = some item → compileNode context item = .ok strict →
      Recompiles context strict) :
    ∃ again, (∀ start : Schema, start.items = none →
        readKeywords start compiled = .ok { start with items := again }) ∧
      ∀ other, Agrees context other → compileItems other again = .ok compiled := by
  obtain ⟨-, rfl⟩ | ⟨item, strict, own, compiled, rfl⟩ := compileItems_eq_ok_iff.1 compiles
  · refine ⟨none, fun start fresh => ?_, fun _ _ => rfl⟩
    obtain ⟨⟩ := start
    cases fresh
    rfl
  · obtain ⟨again, read, all⟩ := each item strict own compiled
    refine ⟨some again, fun start _ => ?_, fun other agrees => ?_⟩
    · refine (Schema.readKeywords_singleton start "items" strict).trans ?_
      exact Outcome.bind_eq_ok_iff.2 ⟨again, read, rfl⟩
    · exact compileItems_eq_ok_iff.2 (.inr ⟨again, strict, rfl, all other agrees, rfl⟩)

/-- What the properties of a node are compiled to. -/
def compileObject (context : Context) (schema : Schema) : Except SchemaError (Members Json) :=
  if hasProperties schema then (compileProperties context schema.properties).map objectMembers
  else .ok []

/-- The properties that are read from what an object is compiled to, the names that it requires,
and the keyword that it has besides. -/
structure ReadAgain (context : Context) (schema : Schema) (object : Members Json)
    (properties : Members Schema) (required : List String) (added : Members Json) : Prop where
  reads : ∀ start : Schema, start.properties = [] → start.required = [] → start.keywords = [] →
    readKeywords start object = .ok { start with properties, required, keywords := added }
  isEmpty : properties.isEmpty = (!hasProperties schema || schema.properties.isEmpty)
  distinct : (Members.keys added).Nodup
  dropped : ∀ name ∈ Members.keys added, name ∈ reserved
  compiles : ∀ other, Agrees context other → ∀ again : Schema, again.properties = properties →
    hasProperties again = hasProperties schema → compileObject other again = .ok object

/-- An object lists its properties, requires them all and admits no others when it is read. -/
theorem readKeywords_objectMembers {table : Members Json} {properties : Members Schema}
    (read : Schema.readProperties table = .ok properties)
    (distinct : (Members.keys table).Nodup) {start : Schema} (fresh : start.keywords = []) :
    readKeywords start (objectMembers table) =
      .ok { start with
        properties, required := Members.keys table
        keywords := [("additionalProperties", .bool false)] } := by
  have first : Schema.readKeyword start "properties" (.object table) =
      .ok { start with properties } :=
    Outcome.bind_eq_ok_iff.2 ⟨_, read, rfl⟩
  have second : Schema.readKeyword { start with properties } "required"
      (.strings (Members.keys table)) =
        .ok { start with properties, required := Members.keys table } :=
    Outcome.bind_eq_ok_iff.2 ⟨_, Schema.readNames_strings distinct, rfl⟩
  rw [objectMembers, Schema.readKeywords_cons, first, Outcome.ok_bind, Schema.readKeywords_cons,
    second, Outcome.ok_bind, Schema.readKeywords_singleton]
  obtain ⟨⟩ := start
  cases fresh
  rfl

theorem exists_readAgain (named : schema.Named) {object : Members Json}
    (compiles : compileObject context schema = .ok object)
    (each : ∀ property ∈ schema.properties, ∀ strict,
      compileNode context property.2 = .ok strict → Recompiles context strict) :
    ∃ properties required added,
      ReadAgain context schema object properties required added := by
  rw [compileObject] at compiles
  split at compiles
  · next own =>
      obtain ⟨table, compiled, rfl⟩ := Outcome.map_eq_ok_iff.1 compiles
      have entries := forall₂_of_compileProperties compiled
      have names : Members.keys schema.properties = Members.keys table :=
        Members.keys_eq_of_forall₂ (entries.imp fun _ _ both => both.1)
      have recompile (entry : String × Json) (mem : entry ∈ table) :
          Recompiles context entry.2 := by
        obtain ⟨property, below, -, found⟩ := Outcome.exists_of_forall₂ entries.flip mem
        exact each property below entry.2 found
      obtain ⟨properties, read, all⟩ := exists_compileProperties_again recompile
      refine ⟨properties, Members.keys table, [("additionalProperties", .bool false)], ?_, ?_,
        List.nodup_singleton _, ?_, fun other agrees again same object => ?_⟩
      · exact fun start _ _ fresh => readKeywords_objectMembers read (names ▸ named) fresh
      · rw [own, Members.isEmpty_eq_of_keys_eq ((Schema.keys_of_readProperties read).trans
          names.symm)]
        rfl
      · exact fun name mem => List.mem_singleton.1 mem ▸ by decide
      · rw [compileObject, object, own, if_pos rfl, same, all other agrees]
        rfl
  · next without =>
      cases compiles
      have none := Bool.eq_false_iff.2 without
      refine ⟨[], [], [], ?_, ?_, List.nodup_nil, List.forall_mem_nil _,
        fun other _ again _ same => ?_⟩
      · intro start properties required keywords
        obtain ⟨⟩ := start
        cases properties
        cases required
        cases keywords
        rfl
      · rw [none]
        rfl
      · rw [compileObject, same, none]
        rfl

/-! ## Whole nodes -/

section

variable {properties : Members Schema} {required : List String} {added object items : Members Json}
  {item : Option Schema} {anyOf oneOf allOf : List Json} {anyOf' oneOf' allOf' : List Schema}

theorem insertAll_keptKeywords (again : ReadAgain context schema object properties required added)
    (carrying : schema.Carrying) (options : StrictOptions) :
    Members.insertAll added (keptKeywords options schema.keywords) =
      added ++ keptKeywords options schema.keywords := by
  have kept := (carried_keptKeywords carrying options).distinct
  have apart : (Members.keys (added ++ keptKeywords options schema.keywords)).Nodup := by
    rw [Members.keys, List.map_append]
    refine List.nodup_append.2 ⟨again.distinct, kept, ?_⟩
    rintro name mem _ mem' rfl
    obtain ⟨keyword, own, rfl⟩ := List.mem_map.1 mem'
    exact (mem_keptKeywords_iff.1 own).2.1 (again.dropped _ mem)
  have whole : Members.insertAll [] (added ++ keptKeywords options schema.keywords) = _ :=
    Members.ofList_eq_self apart
  have first : Members.insertAll [] added = added := Members.ofList_eq_self again.distinct
  rwa [Members.insertAll_append, first] at whole

/-- The keywords that an object has besides are dropped and set again. -/
theorem keptKeywords_added (again : ReadAgain context schema object properties required added)
    (options : StrictOptions) (keywords : Members Json) :
    keptKeywords options (added ++ keptKeywords options keywords) =
      keptKeywords options keywords := by
  have none : keptKeywords options added = [] := by
    refine List.filter_eq_nil_iff.2 fun keyword mem => ?_
    have dropped := again.dropped _ (List.mem_map.2 ⟨keyword, mem, rfl⟩)
    simp [dropped]
  have split : keptKeywords options (added ++ keptKeywords options keywords) =
      keptKeywords options added ++ keptKeywords options (keptKeywords options keywords) :=
    List.filter_append ..
  rw [split, none, keptKeywords_keptKeywords, List.nil_append]

/-- What a node without a reference is read as, from what its parts are read as. -/
def restated (options : StrictOptions) (schema : Schema) (properties : Members Schema)
    (required : List String) (added : Members Json) (item : Option Schema)
    (anyOf oneOf allOf : List Schema) : Schema :=
  { stated schema with
    description := schema.description
    properties, required
    items := item
    anyOf, oneOf, allOf
    extensions := keptExtensions options schema.extensions
    keywords := added ++ keptKeywords options schema.keywords }

theorem readKeywords_assembled (carrying : schema.Carrying)
    (again : ReadAgain context schema object properties required added)
    (item' : ∀ start : Schema, start.items = none →
      readKeywords start items = .ok { start with items := item })
    (any : Schema.readMembers anyOf = .ok anyOf') (one : Schema.readMembers oneOf = .ok oneOf')
    (all : Schema.readMembers allOf = .ok allOf') :
    readKeywords {} (assembled options schema object items anyOf oneOf allOf) =
      .ok (restated options schema properties required added item anyOf' oneOf' allOf') := by
  have keywords := carried_keptKeywords carrying options
  have extensions := carried_keptExtensions carrying options
  have whole : Members.insertAll [] (keptExtensions options schema.extensions) =
      keptExtensions options schema.extensions := Members.ofList_eq_self extensions.distinct
  obtain ⟨types, listed, enumeration, same⟩ := exists_stated_eq schema
  rw [assembled, restated, same]
  simp only [Schema.readKeywords_append, readKeywords_typeMembers, same, Outcome.ok_bind,
    Schema.readKeywords_description, again.reads, item', Schema.readKeywords_anyOf any,
    Schema.readKeywords_oneOf one, Schema.readKeywords_allOf all,
    Schema.readKeywords_keywords _ keywords.kinds, insertAll_keptKeywords again carrying,
    Schema.readKeywords_extensions _ extensions.kinds, whole]

/-- What a node is read as is put together as the node was. -/
theorem assembled_restated (again : ReadAgain context schema object properties required added)
    (options : StrictOptions) :
    assembled options
        (restated options schema properties required added item anyOf' oneOf' allOf')
        object items anyOf oneOf allOf =
      assembled options schema object items anyOf oneOf allOf := by
  have types := typeMembers_stated schema
  have keywords := keptKeywords_added again options schema.keywords
  have extensions := keptExtensions_keptExtensions options schema.extensions
  simp only [assembled, restated, types, keywords, extensions]

end

/-- What a node is compiled to is read as a node that is compiled to it. -/
theorem recompiles_of_compileNode (carrying : schema.Everywhere Schema.Carrying)
    (named : schema.Everywhere Schema.Named) (compiles : compileNode context schema = .ok strict) :
    Recompiles context strict := by
  induction schema using Schema.induct generalizing strict with
  | node schema ih =>
      obtain ⟨carries, carrying⟩ := Schema.everywhere_iff.1 carrying
      obtain ⟨names, named⟩ := Schema.everywhere_iff.1 named
      have each (child : Schema) (mem : child ∈ schema.children) (strict : Json)
          (compiles : compileNode context child = .ok strict) : Recompiles context strict :=
        ih child mem (carrying child mem) (named child mem) compiles
      -- a reference that is tolerated is all that its node is read as, whatever stood beside it
      cases refers : schema.reference with
      | some reference =>
          obtain ⟨name, means, defined, tolerated, rfl⟩ :=
            (compileNode_eq_ok_iff_of_reference refers).1 compiles
          refine ⟨{ reference := some reference }, rfl, fun other agrees => ?_⟩
          exact (compileNode_eq_ok_iff_of_reference rfl).2 ⟨name, means, agrees.names ▸ defined,
            agrees.tolerated ▸ tolerated, rfl⟩
      | none =>
          obtain ⟨object, items, anyOf, oneOf, allOf, ho, hi, ha, hn, hl, rfl⟩ :=
            (compileNode_eq_ok_iff_of_no_reference refers).1 compiles
          have list {members : List Schema} {compiled : List Json}
              (compiles : compileMembers context members = .ok compiled)
              (below : ∀ member ∈ members, member ∈ schema.children) :
              ∀ strict ∈ compiled, Recompiles context strict := by
            intro strict mem
            obtain ⟨member, own, found⟩ := exists_member_of_compileMembers compiles mem
            exact each member (below member own) strict found
          obtain ⟨properties, required, added, again⟩ := exists_readAgain names ho
            fun property mem => each property.2 (Schema.mem_children_of_properties mem)
          obtain ⟨item, readItem, allItem⟩ := exists_compileItems_again hi
            fun item strict own => each item (Schema.mem_children_of_items own) strict
          obtain ⟨anyOf', readAny, allAny⟩ := exists_compileMembers_again
            (list ha fun _ => Schema.mem_children_of_anyOf)
          obtain ⟨oneOf', readOne, allOne⟩ := exists_compileMembers_again
            (list hn fun _ => Schema.mem_children_of_oneOf)
          obtain ⟨allOf', readAll, allAll⟩ := exists_compileMembers_again
            (list hl fun _ => Schema.mem_children_of_allOf)
          refine ⟨_, readKeywords_assembled carries again readItem readAny readOne readAll,
            fun other agrees => ?_⟩
          refine (compileNode_eq_ok_iff_of_no_reference ?_).2 ⟨object, items, anyOf, oneOf, allOf,
            again.compiles other agrees _ rfl (hasProperties_eq rfl rfl again.isEmpty),
            allItem other agrees, allAny other agrees, allOne other agrees,
            allAll other agrees, ?_⟩
          · obtain ⟨types, listed, enumeration, same⟩ := exists_stated_eq schema
            rw [restated, same]
          · rw [agrees.options, assembled_restated again]

/-- What a node is compiled to refers to nothing but tolerated definitions that the node refers
to. -/
theorem mem_referencedNames_of_ofJson (carrying : schema.Everywhere Schema.Carrying)
    (compiles : compileNode context schema = .ok strict) {again : Schema}
    (read : Schema.ofJson strict = .ok again) {name : String}
    (refers : name ∈ again.referencedNames) :
    name ∈ schema.referencedNames ∧ name ∈ context.tolerated := by
  obtain ⟨node, below, means⟩ := List.mem_filterMap.1 refers
  obtain ⟨reference, own, means⟩ := Option.bind_eq_some_iff.1 means
  obtain ⟨position, within, reads⟩ := Schema.exists_position_of_ofJson read below
  obtain ⟨node, below, compiled⟩ := exists_node_of_compileNode carrying compiles within
  have own := reference_eq_of_mem_references (carrying node below) compiled
    (Schema.mem_references_of_ofJson reads own)
  obtain ⟨tolerated, means', -, mem, -⟩ := (compileNode_eq_ok_iff_of_reference own).1 compiled
  cases means.symm.trans means'
  exact ⟨List.mem_filterMap.2 ⟨node, below, Option.bind_eq_some_iff.2 ⟨_, own, means⟩⟩, mem⟩

/-! ## Definitions -/

/-- What a definition is read as again: a tolerated one is as it was, but for what is not written,
and any other refers to nothing but tolerated ones. -/
structure Stays (context : Context) (definition again : String × Schema) : Prop where
  name : definition.1 = again.1
  tolerated : definition.1 ∈ context.tolerated → again.2 = definition.2.reread
  refers : definition.1 ∉ context.tolerated → ∀ name ∈ again.2.referencedNames,
    name ∈ definition.2.referencedNames ∧ name ∈ context.tolerated

theorem exists_stays {definition : String × Schema} {entry : String × Json}
    (tidy : definition.2.Everywhere Schema.Tidy) (named : definition.2.Everywhere Schema.Named)
    (compiles : compileDefinition context definition = .ok entry) :
    ∃ again, Schema.ofJson entry.2 = .ok again ∧ Stays context definition (entry.1, again) ∧
      ∀ other, Agrees context other → compileDefinition other (entry.1, again) = .ok entry := by
  have carrying := tidy.imp fun _ => Schema.Tidy.carrying
  obtain ⟨name, ⟨tolerated, written⟩ | ⟨absent, compiled⟩⟩ :=
    compileDefinition_eq_ok_iff.1 compiles
  · refine ⟨definition.2.reread, ?_, ⟨name.symm, fun _ => rfl, absurd tolerated⟩,
      fun other agrees => compileDefinition_eq_ok_iff.2 ⟨rfl, .inl ⟨?_, ?_⟩⟩⟩
    · rw [written]
      exact Schema.ofJson_toJson tidy
    · rwa [agrees.tolerated, name]
    · rw [written, Schema.toJson_reread]
  · obtain ⟨again, reads, all⟩ := recompiles_of_compileNode carrying named compiled
    refine ⟨again, reads, ⟨name.symm, fun tolerated => absurd tolerated absent,
      fun _ name => mem_referencedNames_of_ofJson carrying compiled reads⟩,
      fun other agrees => compileDefinition_eq_ok_iff.2 ⟨rfl, .inr ⟨?_, all other agrees⟩⟩⟩
    rwa [agrees.tolerated, name]

/-- What the entries of a compiled table are read as, and that it compiles to them. -/
structure TableAgain (context : Context) (definitions : Members Schema) (entries : Members Json)
    (again : Members Schema) : Prop where
  reads : Schema.readProperties entries = .ok again
  stays : List.Forall₂ (Stays context) definitions again
  compiles : ∀ other, Agrees context other → again.mapM (compileDefinition other) = .ok entries

theorem exists_tableAgain {definitions : Members Schema} {entries : Members Json}
    (tidy : ∀ definition ∈ definitions, definition.2.Everywhere Schema.Tidy)
    (named : ∀ definition ∈ definitions, definition.2.Everywhere Schema.Named)
    (compiles : List.Forall₂ (fun definition entry =>
      compileDefinition context definition = .ok entry) definitions entries) :
    ∃ again, TableAgain context definitions entries again := by
  induction compiles with
  | nil => exact ⟨[], rfl, .nil, fun _ _ => rfl⟩
  | @cons definition entry _ _ compiled _ ih =>
      obtain ⟨own, reads, stays, compiles⟩ := exists_stays
        (tidy _ List.mem_cons_self) (named _ List.mem_cons_self) compiled
      obtain ⟨again, rest⟩ := ih (fun _ mem => tidy _ (List.mem_cons_of_mem _ mem))
        (fun _ mem => named _ (List.mem_cons_of_mem _ mem))
      refine ⟨(entry.1, own) :: again, ?_, .cons stays rest.stays, fun other agrees => ?_⟩
      · rw [Schema.readProperties, reads, Outcome.ok_bind, rest.reads]
        rfl
      · rw [List.mapM_cons, compiles other agrees, Outcome.ok_bind, rest.compiles other agrees]
        rfl

end Strict

end SchemaStream
