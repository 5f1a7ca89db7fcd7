import SchemaStream.Proofs.Json.Mapping
import SchemaStream.Schema.Arena

/-!
# Shapes of nodes

Whatever stands for the children of a node, overlaying and folding only move it.  So these
operations on places, on schemas and on anything else are images of each other.
-/

namespace SchemaStream

namespace Shape

variable {ε α β γ : Type}

def map (f : α → β) (shape : Shape α) : Shape β :=
  { types := shape.types
    typesListed := shape.typesListed
    properties := Members.mapValues f shape.properties
    required := shape.required
    items := shape.items.map f
    anyOf := shape.anyOf.map f
    oneOf := shape.oneOf.map f
    allOf := shape.allOf.map f
    enumeration := shape.enumeration
    reference := shape.reference
    description := shape.description
    extensions := shape.extensions
    keywords := shape.keywords }

@[simp] theorem reference_map (f : α → β) (shape : Shape α) :
    (shape.map f).reference = shape.reference := rfl

@[simp] theorem allOf_map (f : α → β) (shape : Shape α) :
    (shape.map f).allOf = shape.allOf.map f := rfl

theorem children_map (f : α → β) (shape : Shape α) :
    (shape.map f).children = shape.children.map f := by
  simp only [children, map, Members.map_snd_mapValues, Option.toList_map, List.map_append]

theorem withChildren_map (shape : Shape α) (f : α → β) (children : List γ) :
    (shape.map f).withChildren children = shape.withChildren children := by
  obtain ⟨_, _, properties, _, items, _, _, _, _, _, _, _, _⟩ := shape
  have keys : Members.keys (Members.mapValues f properties) = Members.keys properties :=
    Members.keys_mapValues f properties
  have count : (Members.mapValues f properties).length = properties.length := List.length_map _
  cases items <;> simp [withChildren, map, keys, count]

theorem map_withChildren (shape : Shape α) (f : β → γ) (children : List β) :
    (shape.withChildren children).map f = shape.withChildren (children.map f) := by
  obtain ⟨_, _, properties, _, items, _, _, _, _, _, _, _, _⟩ := shape
  cases items <;> simp [withChildren, map, List.map_drop, List.map_take, Members.mapValues,
    List.zip_map_right, Prod.map]

theorem withChildren_children (shape : Shape α) (f : α → β) :
    shape.withChildren (shape.children.map f) = shape.map f := by
  obtain ⟨_, _, properties, _, items, _, _, _, _, _, _, _, _⟩ := shape
  have first := Members.zip_keys_append f properties
  cases items <;> simp only [withChildren, map, children, List.map_append, List.append_assoc, first]
    <;> simp

theorem children_withChildren (shape : Shape α) (list : List β) :
    (shape.withChildren list).children = list := by
  have first (rest : List β) : (shape.items.bind fun _ => rest.head?).toList =
      rest.take shape.items.toList.length := by
    cases shape.items <;> cases rest <;> rfl
  simp only [withChildren, children, Members.map_snd_zip_keys, first, List.append_assoc,
    List.take_append_drop]

theorem withChildren_append {shape : Shape α} {items : Option β}
    {properties anyOf oneOf allOf : List β}
    (hp : (shape.properties.map Prod.snd).length = properties.length)
    (hi : shape.items.toList.length = items.toList.length)
    (ha : shape.anyOf.length = anyOf.length) (ho : shape.oneOf.length = oneOf.length) :
    shape.withChildren (properties ++ (items.toList ++ (anyOf ++ (oneOf ++ allOf)))) =
      { shape with
        properties := (Members.keys shape.properties).zip properties
        items, anyOf, oneOf, allOf } := by
  rw [List.length_map] at hp
  have named : (Members.keys shape.properties).zip
      (properties ++ (items.toList ++ (anyOf ++ (oneOf ++ allOf)))) =
        (Members.keys shape.properties).zip properties := by
    have count : (Members.keys shape.properties).length = properties.length := by
      rw [Members.keys, List.length_map, hp]
    conv_lhs => rw [← List.append_nil (Members.keys shape.properties)]
    rw [List.zip_append count, List.zip_nil_left, List.append_nil]
  have first : (shape.items.bind fun _ => (items.toList ++ (anyOf ++ (oneOf ++ allOf))).head?) =
      items := by
    cases hs : shape.items <;> cases items <;> simp [hs] at hi ⊢
  simp only [withChildren, named, hp, hi, ha, ho, List.drop_left, List.take_left, first]

/-- A traversal of the children in their order goes through the fields of the node. -/
theorem mapM_children (f : α → Except ε β) (shape : Shape α) :
    shape.withChildren <$> shape.children.mapM f = (do
      let properties ← shape.properties.mapM fun property => do
        return (property.1, ← f property.2)
      let items ← shape.items.mapM f
      let anyOf ← shape.anyOf.mapM f
      let oneOf ← shape.oneOf.mapM f
      let allOf ← shape.allOf.mapM f
      return { shape with properties, items, anyOf, oneOf, allOf }) := by
  have item : shape.items.toList.mapM f = Option.toList <$> shape.items.mapM f := by
    cases shape.items with
    | none => rfl
    | some child =>
        change [child].mapM f = Option.toList <$> (some <$> f child)
        rw [List.mapM_cons, List.mapM_nil]
        cases f child <;> rfl
  simp only [Members.mapM_eq_zip_keys, children, List.append_assoc, List.mapM_append, item,
    map_eq_pure_bind, bind_assoc, pure_bind]
  refine Outcome.bind_congr_ok fun properties hp => ?_
  refine Outcome.bind_congr_ok fun items hi => ?_
  refine Outcome.bind_congr_ok fun anyOf ha => ?_
  refine Outcome.bind_congr_ok fun oneOf ho => ?_
  refine Outcome.bind_congr_ok fun allOf _ => ?_
  rw [withChildren_append (Outcome.length_of_mapM hp) ?_ (Outcome.length_of_mapM ha)
    (Outcome.length_of_mapM ho)]
  exact (Outcome.optionMapM_eq_ok_iff.1 hi).length_eq

/-! ## Overlaying and folding -/

theorem map_overlaid (definition : Shape α) (site : Shape β) (f : α → γ) :
    (definition.overlaid site).map f = (definition.map f).overlaid site := rfl

theorem map_folded (shape member : Shape α) (f : α → β) :
    (shape.folded member).map f = (shape.map f).folded (member.map f) := by
  have chosen (own other : List α) : (if own.isEmpty then other else own).map f =
      if (own.map f).isEmpty then other.map f else own.map f := by
    rw [List.isEmpty_map]
    split <;> rfl
  simp only [folded, map, Members.insertAllNew_mapValues, chosen, Option.map_or, List.map_nil]
  rfl

/-- What stands below a folded node stood below the node or below its member. -/
theorem children_folded_subperm (shape member : Shape α) :
    (shape.folded member).children.Subperm
      ({ shape with allOf := [] }.children ++ member.children) := by
  have properties : ((shape.folded member).properties.map Prod.snd).Subperm
      (shape.properties.map Prod.snd ++ member.properties.map Prod.snd) := by
    obtain ⟨new, sub, same⟩ := Members.exists_insertAllNew_eq shape.properties member.properties
    rw [folded, same _ rfl, List.map_append]
    exact ((List.Sublist.refl _).append (sub.map _)).subperm
  have items : (shape.folded member).items.toList.Subperm
      (shape.items.toList ++ member.items.toList) := by
    rw [folded]
    cases shape.items with
    | none => exact List.Subperm.refl _
    | some child => exact (List.sublist_append_left _ _).subperm
  have chosen (own other : List α) : (if own.isEmpty then other else own).Subperm
      (own ++ other) := by
    split
    · exact (List.sublist_append_right _ _).subperm
    · exact (List.sublist_append_left _ _).subperm
  classical
  -- The two nodes list their children group by group, so the groups are compared by counting.
  refine List.subperm_iff_count.2 fun child => ?_
  have properties := properties.count_le child
  have items := items.count_le child
  have anyOf := (chosen shape.anyOf member.anyOf).count_le child
  have oneOf := (chosen shape.oneOf member.oneOf).count_le child
  simp only [children, List.count_append, List.count_nil, folded] at *
  omega

theorem children_folded_subset (shape member : Shape α) :
    (shape.folded member).children ⊆ shape.children ++ member.children := by
  intro child mem
  have own : child ∈ { shape with allOf := [] }.children → child ∈ shape.children := by
    simp only [children, List.append_nil]
    exact List.mem_append_left _
  rcases List.mem_append.1 ((children_folded_subperm shape member).subset mem) with mem | mem
  · exact List.mem_append_left _ (own mem)
  · exact List.mem_append_right _ mem

/-! ## Schemas -/

theorem children_shape (schema : Schema) : schema.shape.children = schema.children := rfl

theorem schema_shape (schema : Schema) : schema.shape.schema = schema := by
  obtain ⟨⟩ := schema
  rfl

theorem shape_schema (shape : Shape Schema) : shape.schema.shape = shape := rfl

/-! ## Nodes without what is below them -/

theorem blank_map (shape : Shape α) (f : α → β) : (shape.map f).blank = shape.blank := by
  rw [blank, blank, withChildren_map, children_map, List.map_map]
  rfl

theorem schema_blank (shape : Shape α) :
    shape.blank = (shape.map fun _ => ({} : Schema)).schema := by
  rw [blank, withChildren_children]

theorem kind_blank (shape : Shape Schema) : shape.blank.kind = shape.schema.kind := by
  rw [schema_blank]
  simp [Schema.kind, schema, map, Members.mapValues]

theorem describesObject_blank (shape : Shape Schema) :
    shape.blank.describesObject = shape.schema.describesObject := by
  rw [Schema.describesObject, Schema.describesObject, Schema.isObject, Schema.isObject, kind_blank]
  rfl

end Shape

end SchemaStream
