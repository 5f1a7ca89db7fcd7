import SchemaStream.Proofs.Schema.Grounding
import SchemaStream.Proofs.Typing.Acceptance
import SchemaStream.Proofs.Typing.Admission
import SchemaStream.Proofs.Typing.Vocabulary

/-!
# Types that admit the same values

The names of records and the descriptions of fields are of no matter to what a type admits.  So
nodes that say the same of a value, with children whose types admit the same, have types that do.
The depth to which references are read through is none either, where the definitions are ranked.
-/

namespace SchemaStream

namespace FieldType

/-- Types that admit the same values. -/
def AdmitsAlike (type other : FieldType) : Prop := ∀ value, type.Admits value ↔ other.Admits value

variable {type other third : FieldType}

namespace AdmitsAlike

theorem refl (type : FieldType) : AdmitsAlike type type := fun _ => Iff.rfl

theorem symm (h : AdmitsAlike type other) : AdmitsAlike other type := fun value => (h value).symm

theorem trans (h : AdmitsAlike type other) (h' : AdmitsAlike other third) :
    AdmitsAlike type third :=
  fun value => (h value).trans (h' value)

theorem orNull (inside : AdmitsAlike type other) : AdmitsAlike type.orNull other.orNull := by
  intro value
  rw [admits_orNull_iff, admits_orNull_iff, inside value]

theorem list (inside : AdmitsAlike type other) : AdmitsAlike (.list type) (.list other) := by
  intro value
  rw [admits_list_iff, admits_list_iff]
  simp only [inside _]

end AdmitsAlike

/-- Fields that ask the same of the member that they name. -/
structure SameField (field other : Field FieldType) : Prop where
  name : field.name = other.name
  optional : field.optional = other.optional
  type : AdmitsAlike field.type other.type

theorem SameField.admitsAt_iff {field other : Field FieldType} (same : SameField field other)
    (found : Option Json) : AdmitsAt field found ↔ AdmitsAt other found := by
  cases found with
  | none => rw [AdmitsAt, AdmitsAt, same.optional]
  | some value => rw [AdmitsAt, AdmitsAt, same.optional, same.type value]

theorem AdmitsAlike.record {name name' : String} {fields others : List (Field FieldType)}
    (each : List.Forall₂ SameField fields others) :
    AdmitsAlike (.record name fields) (.record name' others) := by
  intro value
  rw [admits_record_iff, admits_record_iff]
  refine exists_congr fun members => and_congr_right' ?_
  induction each with
  | nil => simp
  | cons first rest ih =>
      rw [List.forall_mem_cons, List.forall_mem_cons, ih, first.name, first.admitsAt_iff]

end FieldType

namespace Schema

open FieldType (AdmitsAlike)

/-- Nodes whose types admit the same values, whatever names they go by. -/
def TypedAlike (type type' : String → Schema → FieldType) (schema other : Schema) : Prop :=
  ∀ name name', AdmitsAlike (type name schema) (type' name' other)

theorem TypedAlike.symm {type type' : String → Schema → FieldType} {schema other : Schema}
    (h : TypedAlike type type' schema other) : TypedAlike type' type other schema :=
  fun name name' => (h name' name).symm

theorem TypedAlike.trans {type type' type'' : String → Schema → FieldType}
    {schema other third : Schema} (h : TypedAlike type type' schema other)
    (h' : TypedAlike type' type'' other third) : TypedAlike type type'' schema third :=
  fun name name' => (h name name).trans (h' name name')

theorem alike_singleType {record list record' list' : FieldType} (type : JsonType)
    (records : AdmitsAlike record record') (lists : AdmitsAlike list list') :
    AdmitsAlike (singleType type record list) (singleType type record' list') := by
  cases type with
  | object => exact records
  | array => exact lists
  | _ => exact .refl _

theorem alike_unionType {record list record' list' : FieldType} (types : List JsonType)
    (records : AdmitsAlike record record') (lists : AdmitsAlike list list') :
    AdmitsAlike (unionType types record list) (unionType types record' list') := by
  rw [unionType, unionType]
  split
  · dsimp only
    split
    · exact (alike_singleType _ records lists).orNull
    · exact alike_singleType _ records lists
  · exact .refl _

section

variable {context context' : TypeContext} {below below' : String → Schema → FieldType}
  {schema other : Schema} {name name' : String}

/-- Of a union of two, it also matters which of them are null. -/
theorem alike_membersType {members others : List Schema}
    (nulls : members.length = 2 →
      List.Forall₂ (fun member other => member.isNull = other.isNull) members others)
    (each : List.Forall₂ (TypedAlike (fieldType context below) (fieldType context' below'))
      members others) :
    AdmitsAlike (membersType context below name members)
      (membersType context' below' name' others) := by
  match members, others, each with
  | [], [], _ | [_], [_], _ | _ :: _ :: _ :: _, _ :: _ :: _ :: _, _ => exact .refl _
  | [first, second], [first', second'], .cons one (.cons two .nil) =>
      obtain ⟨null, null', -⟩ : first.isNull = first'.isNull ∧ second.isNull = second'.isNull ∧
          True := by simpa using nulls rfl
      rw [membersType, membersType, null, null']
      split
      · exact (two name name').orNull
      · exact (one name name').orNull
      · exact .refl _

/-- The kind of a node is a matter of which children it has, and not of what they are. -/
theorem kind_eq_of_parts {R : Schema → Schema → Prop}
    (reference : schema.reference = other.reference)
    (enumeration : schema.enumeration = other.enumeration) (types : schema.types = other.types)
    (parts : (Expansion.Parts.ofNode schema).Rel R (Expansion.Parts.ofNode other)) :
    schema.kind = other.kind := by
  have empty {α β : Type} {S : α → β → Prop} {list : List α} {list' : List β}
      (each : List.Forall₂ S list list') : list.isEmpty = list'.isEmpty := by
    cases each <;> rfl
  have allOf : schema.allOf.isEmpty = other.allOf.isEmpty := empty parts.allOf
  have anyOf : schema.anyOf.isEmpty = other.anyOf.isEmpty := empty parts.anyOf
  have oneOf : schema.oneOf.isEmpty = other.oneOf.isEmpty := empty parts.oneOf
  have properties : schema.properties.isEmpty = other.properties.isEmpty := empty parts.properties
  rw [kind, kind, reference, enumeration, types, allOf, anyOf, oneOf, properties]

/-- Nodes without a reference that tell a type the same apart from their children, the nulls among
two members of a union included. -/
structure SameFrame (schema other : Schema) : Prop where
  reference : schema.reference = none ∧ other.reference = none
  allOf : schema.allOf = [] ∧ other.allOf = []
  types : schema.types = other.types
  required : schema.required = other.required
  enumeration : schema.enumeration = other.enumeration
  anyOf : schema.anyOf.length = 2 →
    List.Forall₂ (fun member other => member.isNull = other.isNull) schema.anyOf other.anyOf
  oneOf : schema.oneOf.length = 2 →
    List.Forall₂ (fun member other => member.isNull = other.isNull) schema.oneOf other.oneOf

theorem alike_recordFields {properties others : List (String × Schema)} (required : List String)
    (each : List.Forall₂ (fun property other => property.1 = other.1 ∧
      TypedAlike (fieldType context below) (fieldType context' below') property.2 other.2)
      properties others) :
    List.Forall₂ FieldType.SameField (recordFields context below required properties)
      (recordFields context' below' required others) := by
  rw [recordFields_eq_map, recordFields_eq_map, List.forall₂_map_left_iff,
    List.forall₂_map_right_iff]
  refine each.imp fun property other both => ⟨both.1, ?_, both.2 _ _⟩
  dsimp only
  rw [both.1]

/-- Nodes that tell a type the same have types that admit the same, if their children do. -/
theorem SameFrame.alike (frame : SameFrame schema other)
    (parts : (Expansion.Parts.ofNode schema).Rel
      (TypedAlike (fieldType context below) (fieldType context' below'))
      (Expansion.Parts.ofNode other)) :
    TypedAlike (fieldType context below) (fieldType context' below') schema other := by
  intro name name'
  have isRecord (title title' : String) : AdmitsAlike
      (.record title (recordFields context below schema.required schema.properties))
      (.record title' (recordFields context' below' other.required other.properties)) := by
    rw [frame.required]
    exact .record (alike_recordFields _ parts.properties)
  have isList (item item' : String) : AdmitsAlike
      (.list (itemsType context below item schema.items))
      (.list (itemsType context' below' item' other.items)) := by
    have items : List.Forall₂ _ schema.items.toList other.items.toList := parts.items
    refine .list ?_
    cases own : schema.items <;> cases put : other.items <;> rw [own, put] at items
    · exact .refl _
    · cases items
    · cases items
    · exact (List.forall₂_cons.1 items).1 _ _
  rw [fieldType_eq, fieldType_eq]
  dsimp only
  have unreferring := frame.reference.1.trans frame.reference.2.symm
  rw [kind_eq_of_parts unreferring frame.enumeration frame.types parts]
  split
  · rw [frame.reference.1, frame.reference.2]
    exact .refl _
  · rw [frame.enumeration]
    exact .refl _
  · exact .refl _
  · exact alike_singleType _ (isRecord _ _) (isList _ _)
  · rw [frame.types]
    exact alike_unionType _ (isRecord _ _) (isList _ _)
  · exact alike_membersType frame.anyOf parts.anyOf
  · exact alike_membersType frame.oneOf parts.oneOf
  · rw [frame.allOf.1, frame.allOf.2]
    exact .refl _

/-- A node is typed alike under all names, if what its references are read through to is. -/
theorem typedAlike_self
    (targets : ∀ reference target, context.target? reference = some target →
      TypedAlike below below target target)
    (bare : schema.Everywhere fun node => node.allOf = []) :
    TypedAlike (fieldType context below) (fieldType context below) schema schema := by
  induction schema using Schema.induct with
  | node schema ih =>
      obtain ⟨own, children⟩ := everywhere_iff.1 bare
      cases refers : schema.reference with
      | some reference =>
          intro name name'
          have kind : schema.kind = .reference := by rw [Schema.kind, refers]; rfl
          rw [fieldType_eq, fieldType_eq]
          dsimp only
          rw [kind, refers]
          dsimp only
          split
          · next target found => exact targets reference target found name name'
          · exact .refl _
      | none =>
          have frame : SameFrame schema schema :=
            ⟨⟨refers, refers⟩, ⟨own, own⟩, rfl, rfl, rfl,
              fun _ => List.forall₂_same.2 fun _ _ => rfl,
              fun _ => List.forall₂_same.2 fun _ _ => rfl⟩
          exact frame.alike (Expansion.Parts.Rel.refl_of_mem fun child mem =>
            ih child mem (children child mem))

/-- The type of a node only depends on `below` where a reference is read through. -/
theorem fieldType_congr {below' : String → Schema → FieldType}
    (same : ∀ node ∈ schema.preorder, ∀ target,
      node.reference >>= context.target? = some target →
        ∀ name, below name target = below' name target) :
    schema.fieldType context below name = schema.fieldType context below' name := by
  induction schema using Schema.induct generalizing name with
  | node schema ih =>
      have child {child : Schema} (mem : child ∈ schema.children) (name : String) :
          child.fieldType context below name = child.fieldType context below' name :=
        ih child mem fun node h => same node (mem_preorder_iff.2 (.inr ⟨child, mem, h⟩))
      have fields : recordFields context below schema.required schema.properties =
          recordFields context below' schema.required schema.properties := by
        rw [recordFields_eq_map, recordFields_eq_map]
        refine List.map_congr_left fun property mem => ?_
        rw [child (mem_children_of_properties mem)]
      have items (name : String) : itemsType context below name schema.items =
          itemsType context below' name schema.items := by
        cases h : schema.items with
        | none => rfl
        | some item => exact child (mem_children_of_items h) name
      have members {members : List Schema} (inside : ∀ member ∈ members, member ∈ schema.children) :
          membersType context below name members = membersType context below' name members := by
        match members with
        | [] | [_] | _ :: _ :: _ :: _ => rfl
        | [first, second] =>
            rw [membersType, membersType, child (inside first (by simp)),
              child (inside second (by simp))]
      rw [fieldType_eq, fieldType_eq]
      dsimp only
      rw [fields, items, members fun _ => mem_children_of_anyOf,
        members fun _ => mem_children_of_oneOf]
      split
      · split
        · next target found => exact same schema (mem_preorder_iff.2 (.inl rfl)) target found name
        · rfl
      all_goals try rfl
      split
      · next member sole => exact child (mem_children_of_allOf (by simp [sole])) name
      · rfl

end

end Schema

namespace TypeContext

variable {context : TypeContext} {schema : Schema} {name : String}

theorem target?_eq_some_iff {reference : String} {target : Schema} :
    context.target? reference = some target ↔
      ∃ name, Reference.name? reference = some name ∧ name ∉ context.cyclic ∧
        Members.get? context.definitions name = some target := by
  rw [target?, Option.bind_eq_bind, Option.bind_eq_some_iff]
  refine exists_congr fun name => and_congr_right fun _ => ?_
  by_cases cyclic : name ∈ context.cyclic <;> simp [cyclic]

theorem typedAlike_typeWithin
    (definitions : ∀ definition ∈ context.definitions,
      definition.2.Everywhere fun node => node.allOf = [])
    (depth : Nat) (bare : schema.Everywhere fun node => node.allOf = []) :
    Schema.TypedAlike (context.typeWithin depth) (context.typeWithin depth) schema schema := by
  induction depth generalizing schema with
  | zero => exact Schema.typedAlike_self (fun _ _ _ _ _ => .refl _) bare
  | succ depth ih =>
      exact Schema.typedAlike_self
        (fun reference target found => ih (everywhere_of_target? definitions found)) bare

end TypeContext

namespace Expansion

variable {expansion : Expansion} {rank : String → Nat} {schema : Schema} {name : String}

/-- References read as they are put in by expansion. -/
def typing (expansion : Expansion) : TypeContext := ⟨expansion.definitions, expansion.kept⟩

/-- What is read through has names of lower rank than a name referred to. -/
theorem Grounded.descends_target (grounded : expansion.Grounded rank) {target : Schema}
    (found : schema.reference >>= expansion.typing.target? = some target) :
    ∃ name ∈ schema.referencedNames, expansion.Inlines name ∧
      ∀ other ∈ target.referencedNames, expansion.Inlines other → rank other < rank name := by
  obtain ⟨reference, refers, found⟩ := Option.bind_eq_some_iff.1 found
  obtain ⟨name, named, put, body⟩ := TypeContext.target?_eq_some_iff.1 found
  exact ⟨name, Schema.mem_referencedNames_iff.2 (.inl ⟨reference, refers, named⟩),
    .of_get? body put, grounded.descends name target body put⟩

/-- Reading through more references than there are ranks makes no difference. -/
theorem Grounded.typeWithin_succ (grounded : expansion.Grounded rank) {depth : Nat}
    (enough : ∀ name ∈ schema.referencedNames, expansion.Inlines name → rank name < depth) :
    expansion.typing.typeWithin (depth + 1) name schema =
      expansion.typing.typeWithin depth name schema := by
  induction depth generalizing name schema with
  | zero =>
      refine Schema.fieldType_congr fun node mem target found => ?_
      obtain ⟨low, named, inlines, -⟩ := grounded.descends_target found
      exact absurd (enough low (Schema.referencedNames_subset mem named) inlines) (by omega)
  | succ depth ih =>
      refine Schema.fieldType_congr fun node mem target found name =>
        ih fun other named inlines => ?_
      obtain ⟨high, refers, put, descends⟩ := grounded.descends_target found
      have first := enough high (Schema.referencedNames_subset mem refers) put
      have second := descends other named inlines
      omega

/-- The type of a node where references are read through to their ends. -/
def typeOf (expansion : Expansion) (name : String) (schema : Schema) : FieldType :=
  expansion.typing.typeWithin expansion.definitions.length name schema

theorem Grounded.typeOf_eq (grounded : expansion.Grounded rank) :
    Schema.fieldType expansion.typing expansion.typeOf = expansion.typeOf := by
  funext name schema
  exact grounded.typeWithin_succ fun name _ inlines => grounded.bounded name inlines

end Expansion

end SchemaStream
