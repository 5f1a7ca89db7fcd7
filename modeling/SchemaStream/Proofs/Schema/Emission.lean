import SchemaStream.Proofs.Schema.Compilation
import SchemaStream.Proofs.Schema.Rendering
import SchemaStream.Proofs.Schema.Written

/-!
# What nodes are written as

The schemas below a written node are what its children are written as, and the schemas below
a compiled node are what its children are compiled to.  So everything that stands somewhere in
a written or compiled schema comes from some node.
-/

namespace SchemaStream

open Schema (Carrying)

namespace Json

variable {members others : Members Json} {keyword : Keyword} {name : String} {value : Json}

/-! ## Schemas below groups of keywords -/

theorem subschemas_append :
    subschemas (.object (members ++ others)) =
      subschemas (.object members) ++ subschemas (.object others) :=
  List.flatMap_append

theorem subschemas_singleton :
    subschemas (.object [(name, value)]) = subschemasAt (Keyword.ofName name) value :=
  List.flatMap_singleton _ _

theorem subschemas_carried (carried : Members.Carried keyword members)
    (unread : ∀ value, subschemasAt keyword value = []) : subschemas (.object members) = [] := by
  refine List.flatMap_eq_nil_iff.2 fun member mem => ?_
  rw [carried.kinds member.1 (List.mem_map.2 ⟨member, mem, rfl⟩)]
  exact unread member.2

theorem subschemas_listMembers (name : String) (items : List Json)
    (combinator : ∀ items, subschemasAt (Keyword.ofName name) (.array items) = items) :
    subschemas (.object (Schema.listMembers name items)) = items := by
  cases items with
  | nil => rfl
  | cons item rest => exact subschemas_singleton.trans (combinator _)

theorem subschemas_typesMembers (types : List JsonType) (listed : Bool) :
    subschemas (.object (Schema.typesMembers types listed)) = [] := by
  cases types <;> rfl

theorem subschemas_textMembers (name : String) (text : Option String)
    (unread : ∀ value, subschemasAt (Keyword.ofName name) value = []) :
    subschemas (.object (Schema.textMembers name text)) = [] := by
  cases text with
  | none => rfl
  | some text => exact subschemas_singleton.trans (unread _)

end Json

namespace Schema

variable {schema node : Schema} {position : Json}

theorem subschemas_tableMembers (properties : List (String × Schema)) :
    Json.subschemas (.object (tableMembers "properties" (Members.mapValues toJson properties))) =
      (properties.map Prod.snd).map toJson := by
  cases properties with
  | nil => rfl
  | cons property rest =>
      refine Json.subschemas_singleton.trans ?_
      simp [Json.subschemasAt, Keyword.ofName, Members.mapValues]

theorem Carrying.subschemas_toJson (carrying : schema.Carrying) :
    schema.toJson.subschemas = schema.children.map toJson := by
  have keywords := Json.subschemas_carried carrying.keywords fun _ => rfl
  have extensions := Json.subschemas_carried carrying.extensions fun _ => rfl
  have required : Json.subschemas (.object (requiredMembers schema.required)) = [] := by
    cases schema.required <;> rfl
  have items : Json.subschemas (.object (itemsMembers schema.items)) =
      schema.items.toList.map toJson := by
    cases schema.items <;> rfl
  have enumeration : Json.subschemas (.object (enumerationMembers schema.enumeration)) = [] := by
    cases schema.enumeration <;> rfl
  rw [toJson_eq, written, children]
  simp only [Json.subschemas_append, keywords, extensions, required, items, enumeration,
    Json.subschemas_typesMembers, subschemas_tableMembers,
    Json.subschemas_textMembers "$ref" _ fun _ => rfl,
    Json.subschemas_textMembers "description" _ fun _ => rfl,
    Json.subschemas_listMembers "anyOf" _ fun _ => rfl,
    Json.subschemas_listMembers "oneOf" _ fun _ => rfl,
    Json.subschemas_listMembers "allOf" _ fun _ => rfl,
    List.nil_append, List.append_nil, List.map_append]

theorem positions_toJson (everywhere : schema.Everywhere Carrying) :
    schema.toJson.positions = schema.preorder.map toJson := by
  induction schema using Schema.induct with
  | node schema ih =>
      obtain ⟨own, children⟩ := everywhere_iff.1 everywhere
      rw [Json.positions_eq_cons_flatMap, own.subschemas_toJson, preorder_eq_cons_flatMap,
        List.map_cons, List.map_flatMap, List.flatMap_map]
      congr 1
      exact List.flatMap_congr fun child mem => ih child mem (children child mem)

/-- No reference is written for a node but its own. -/
theorem Carrying.reference_eq_of_mem_references (carrying : schema.Carrying) {reference : String}
    (mem : reference ∈ schema.toJson.references) : schema.reference = some reference := by
  rw [toJson_eq, Json.mem_references_iff] at mem
  cases own : schema.reference with
  | none =>
      have absent := mt carrying.mem_keys_reference_iff.1 (not_not.2 own)
      exact absurd (List.mem_map.2 ⟨_, mem, rfl⟩) absent
  | some written =>
      have first : ("$ref", .string written) ∈
          schema.written ++ schema.keywords ++ schema.extensions := by
        simp [Schema.written, own, textMembers]
      have same := (Members.get?_eq_some_of_mem carrying.nodup_keys_members first).symm.trans
        (Members.get?_eq_some_of_mem carrying.nodup_keys_members mem)
      cases same
      rfl

end Schema

namespace Strict

variable {context : Context} {options : StrictOptions} {schema node : Schema} {strict child : Json}
  {properties : List (String × Schema)} {members : List Schema}

theorem carried_keptKeywords (carrying : schema.Carrying) (options : StrictOptions) :
    Members.Carried .other (keptKeywords options schema.keywords) := by
  have within : (Members.keys (keptKeywords options schema.keywords)).Sublist
      (Members.keys schema.keywords) := List.filter_sublist.map Prod.fst
  exact ⟨carrying.keywords.distinct.sublist within, fun name mem =>
    carrying.keywords.kinds name (within.subset mem)⟩

theorem carried_keptExtensions (carrying : schema.Carrying) (options : StrictOptions) :
    Members.Carried .extensions (keptExtensions options schema.extensions) := by
  rw [keptExtensions]
  split
  · exact .nil
  · exact carrying.extensions

theorem subschemas_assembled (carrying : schema.Carrying) (options : StrictOptions)
    (object items : Members Json) (anyOf oneOf allOf : List Json) :
    Json.subschemas (.object (assembled options schema object items anyOf oneOf allOf)) =
      Json.subschemas (.object object) ++ Json.subschemas (.object items) ++ anyOf ++ oneOf ++
        allOf := by
  have keywords := Json.subschemas_carried (carried_keptKeywords carrying options) fun _ => rfl
  have extensions := Json.subschemas_carried (carried_keptExtensions carrying options)
    fun _ => rfl
  have types : Json.subschemas (.object
      (typeMembers schema.types schema.typesListed schema.enumeration)) = [] := by
    cases schema.enumeration with
    | none => exact Json.subschemas_typesMembers _ _
    | some values => rfl
  rw [assembled]
  simp only [Json.subschemas_append, keywords, extensions, types,
    Json.subschemas_textMembers "description" _ fun _ => rfl,
    Json.subschemas_listMembers "anyOf" _ fun _ => rfl,
    Json.subschemas_listMembers "oneOf" _ fun _ => rfl,
    Json.subschemas_listMembers "allOf" _ fun _ => rfl, List.nil_append, List.append_nil]

theorem exists_property_of_compileProperties {table : Members Json}
    (compiles : compileProperties context properties = .ok table)
    (mem : child ∈ Json.subschemas (.object (objectMembers table))) :
    ∃ property ∈ properties, compileNode context property.2 = .ok child := by
  have entries : Json.subschemas (.object (objectMembers table)) = table.map Prod.snd :=
    List.append_nil _
  rw [entries] at mem
  obtain ⟨entry, below, rfl⟩ := List.mem_map.1 mem
  obtain ⟨property, own, -, found⟩ :=
    Outcome.exists_of_forall₂ (forall₂_of_compileProperties compiles).flip below
  exact ⟨property, own, found⟩

theorem exists_member_of_compileMembers {compiled : List Json}
    (compiles : compileMembers context members = .ok compiled) (mem : child ∈ compiled) :
    ∃ member ∈ members, compileNode context member = .ok child := by
  rw [compileMembers_eq_mapM, Outcome.mapM_eq_ok_iff] at compiles
  exact Outcome.exists_of_forall₂ compiles.flip mem

/-- Every schema right below a compiled node is compiled from a child of the node. -/
theorem exists_child_of_compileNode (carrying : schema.Carrying)
    (compiles : compileNode context schema = .ok strict) (mem : child ∈ strict.subschemas) :
    ∃ own ∈ schema.children, compileNode context own = .ok child := by
  cases refers : schema.reference with
  | some reference =>
      obtain ⟨name, -, -, -, rfl⟩ := (compileNode_eq_ok_iff_of_reference refers).1 compiles
      exact absurd mem List.not_mem_nil
  | none =>
      obtain ⟨object, items, anyOf, oneOf, allOf, ho, hi, ha, hn, hl, rfl⟩ :=
        (compileNode_eq_ok_iff_of_no_reference refers).1 compiles
      simp only [subschemas_assembled carrying, List.mem_append, or_assoc] at mem
      rcases mem with mem | mem | mem | mem | mem
      · split at ho
        · obtain ⟨table, compiled, rfl⟩ := Outcome.map_eq_ok_iff.1 ho
          obtain ⟨property, own, found⟩ := exists_property_of_compileProperties compiled mem
          exact ⟨property.2, Schema.mem_children_of_properties own, found⟩
        · cases ho
          exact absurd mem List.not_mem_nil
      · obtain ⟨-, rfl⟩ | ⟨item, value, own, compiled, rfl⟩ := compileItems_eq_ok_iff.1 hi
        · exact absurd mem List.not_mem_nil
        · cases List.mem_singleton.1 mem
          exact ⟨item, Schema.mem_children_of_items own, compiled⟩
      · obtain ⟨member, own, found⟩ := exists_member_of_compileMembers ha mem
        exact ⟨member, Schema.mem_children_of_anyOf own, found⟩
      · obtain ⟨member, own, found⟩ := exists_member_of_compileMembers hn mem
        exact ⟨member, Schema.mem_children_of_oneOf own, found⟩
      · obtain ⟨member, own, found⟩ := exists_member_of_compileMembers hl mem
        exact ⟨member, Schema.mem_children_of_allOf own, found⟩

/-- Everything that stands in a compiled schema is compiled from a node of the schema. -/
theorem exists_node_of_compileNode (everywhere : schema.Everywhere Carrying)
    (compiles : compileNode context schema = .ok strict) {position : Json}
    (mem : position ∈ strict.positions) :
    ∃ node ∈ schema.preorder, compileNode context node = .ok position := by
  induction schema using Schema.induct generalizing strict with
  | node schema ih =>
      obtain ⟨own, children⟩ := Schema.everywhere_iff.1 everywhere
      rcases Json.mem_positions_iff.1 mem with rfl | ⟨below, under, mem⟩
      · exact ⟨schema, Schema.mem_preorder_iff.2 (.inl rfl), compiles⟩
      · obtain ⟨child, within, found⟩ := exists_child_of_compileNode own compiles under
        obtain ⟨node, at_, same⟩ := ih child within (children child within) found mem
        exact ⟨node, Schema.mem_preorder_iff.2 (.inr ⟨child, within, at_⟩), same⟩

end Strict

end SchemaStream
