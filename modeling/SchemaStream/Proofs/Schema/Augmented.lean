import SchemaStream.Proofs.Schema.Vocabulary
import SchemaStream.Schema.Augmentation

/-!
# What augmentation adds

Augmentation only adds properties with auxiliary names, and requires no other names than these
besides.  Each property that was there before is still there, itself augmented.
-/

namespace SchemaStream

theorem Text.begins_append (start rest : String) : begins start (start ++ rest) = true := by
  rw [begins, String.toList_append, List.isPrefixOf_iff_prefix]
  exact List.prefix_append _ _

namespace Auxiliary

theorem isAuxiliary_reasoningField (name : String) : isAuxiliary (reasoningField name) = true := by
  rw [isAuxiliary, reasoningField, Text.begins_append, Bool.true_or]

theorem isAuxiliary_sourceField (name : String) : isAuxiliary (sourceField name) = true := by
  rw [isAuxiliary, sourceField, Text.begins_append, Bool.or_true]

end Auxiliary

namespace Schema

variable {schema result : Schema} {slot : Option String} {name other anchor : String}
  {existing names : List String} {properties : List (String × Schema)}
  {property : String × Schema}

/-! ## Names -/

theorem insertBefore_perm (anchor name : String) (names : List String) :
    (insertBefore anchor name names).Perm (name :: names) := by
  induction names with
  | nil => exact .refl _
  | cons first rest ih =>
      rw [insertBefore]
      split
      · exact .refl _
      · exact (ih.cons first).trans (.swap name first rest)

theorem insertAfter_perm (anchor name : String) (names : List String) :
    (insertAfter anchor name names).Perm (name :: names) := by
  induction names with
  | nil => exact .refl _
  | cons first rest ih =>
      rw [insertAfter]
      split
      · exact .swap name first rest
      · exact (ih.cons first).trans (.swap name first rest)

theorem mem_insertBefore_iff :
    other ∈ insertBefore anchor name names ↔ other = name ∨ other ∈ names :=
  (insertBefore_perm anchor name names).mem_iff.trans List.mem_cons

theorem mem_insertAfter_iff :
    other ∈ insertAfter anchor name names ↔ other = name ∨ other ∈ names :=
  (insertAfter_perm anchor name names).mem_iff.trans List.mem_cons

/-- A property that augmentation may put in. -/
structure Added (property : String × Schema) : Prop where
  auxiliary : Auxiliary.isAuxiliary property.1 = true
  text : ∃ description, property.2 = textField description

theorem added_of_reasoningSibling?
    (found : reasoningSibling? existing name schema = some property) : Added property := by
  rw [reasoningSibling?] at found
  split at found
  · cases found
  · obtain ⟨prompt, -, rfl⟩ := Option.map_eq_some_iff.1 found
    exact ⟨Auxiliary.isAuxiliary_reasoningField name, prompt, rfl⟩

theorem added_of_sourceSibling? (found : sourceSibling? existing name schema = some property) :
    Added property := by
  rw [sourceSibling?] at found
  split at found
  · cases found
    exact ⟨Auxiliary.isAuxiliary_sourceField name, _, rfl⟩
  · cases found

theorem added_of_selfReasoning? (found : schema.selfReasoning? slot = some property) :
    Added property := by
  simp only [selfReasoning?, Option.bind_eq_bind, Option.bind_eq_some_iff] at found
  obtain ⟨name, -, prompt, -, found⟩ := found
  split at found
  · cases found
  · cases found
    exact ⟨Auxiliary.isAuxiliary_reasoningField name, prompt, rfl⟩

/-- The reasoning field that is put before a property. -/
def leading? (existing : List String) (property : String × Schema) : Option (String × Schema) :=
  if Auxiliary.isAuxiliary property.1 then none
  else reasoningSibling? existing property.1 property.2

/-- The quote that is put behind a property. -/
def trailing? (existing : List String) (property : String × Schema) : Option (String × Schema) :=
  if Auxiliary.isAuxiliary property.1 then none
  else sourceSibling? existing property.1 property.2

theorem added_of_leading? {sibling : String × Schema}
    (found : leading? existing property = some sibling) : Added sibling := by
  rw [leading?] at found
  split at found
  · cases found
  · exact added_of_reasoningSibling? found

theorem added_of_trailing? {sibling : String × Schema}
    (found : trailing? existing property = some sibling) : Added sibling := by
  rw [trailing?] at found
  split at found
  · cases found
  · exact added_of_sourceSibling? found

theorem name_of_leading? {sibling : String × Schema}
    (found : leading? existing property = some sibling) :
    sibling.1 = Auxiliary.reasoningField property.1 ∧ sibling.1 ∉ existing := by
  rw [leading?] at found
  split at found
  · cases found
  · rw [reasoningSibling?] at found
    split at found
    · cases found
    · next absent =>
        obtain ⟨prompt, -, rfl⟩ := Option.map_eq_some_iff.1 found
        exact ⟨rfl, mt List.contains_iff_mem.2 absent⟩

theorem name_of_trailing? {sibling : String × Schema}
    (found : trailing? existing property = some sibling) :
    sibling.1 = Auxiliary.sourceField property.1 ∧ sibling.1 ∉ existing := by
  rw [trailing?] at found
  split at found
  · cases found
  · rw [sourceSibling?] at found
    split at found
    · next asked =>
        cases found
        exact ⟨rfl, by simpa using (Bool.and_eq_true_iff.1 asked).2⟩
    · cases found

theorem requireSiblings_eq (existing required : List String) (property : String × Schema) :
    requireSiblings existing required property =
      if required.contains property.1 then
        let required := match leading? existing property with
          | some sibling => insertBefore property.1 sibling.1 required
          | none => required
        match trailing? existing property with
        | some sibling => insertAfter property.1 sibling.1 required
        | none => required
      else required := by
  obtain ⟨name, schema⟩ := property
  rw [requireSiblings, leading?, trailing?]
  cases Auxiliary.isAuxiliary name <;> cases required.contains name <;> rfl

/-- What is required with a property has an auxiliary name. -/
theorem mem_requireSiblings_iff (plain : Auxiliary.isAuxiliary name = false) :
    name ∈ requireSiblings existing names property ↔ name ∈ names := by
  have notAdded {sibling : String × Schema} (added : Added sibling) : name ≠ sibling.1 := by
    rintro rfl
    rw [added.auxiliary] at plain
    cases plain
  rw [requireSiblings_eq]
  split
  · cases first : leading? existing property with
    | none =>
        cases second : trailing? existing property with
        | none => rfl
        | some quote => simp [mem_insertAfter_iff, notAdded (added_of_trailing? second)]
    | some reasoning =>
        have new := notAdded (added_of_leading? first)
        cases second : trailing? existing property with
        | none => simp [mem_insertBefore_iff, new]
        | some quote =>
            simp [mem_insertAfter_iff, mem_insertBefore_iff, new,
              notAdded (added_of_trailing? second)]
  · rfl

theorem mem_foldl_requireSiblings_iff (plain : Auxiliary.isAuxiliary name = false) :
    name ∈ properties.foldl (requireSiblings existing) names ↔ name ∈ names := by
  induction properties generalizing names with
  | nil => rfl
  | cons property rest ih => rw [List.foldl_cons, ih, mem_requireSiblings_iff plain]

/-! ## Properties -/

/-- A node in the place of another: that node augmented, its quote marker used up or not. -/
def Augments (slot : Option String) (schema result : Schema) : Prop :=
  result = schema.augmentNode slot ∨ result = (schema.augmentNode slot).withoutMarker .sourceQuote

/-- What augmentation makes of a property itself. -/
def augmentedProperty (property : String × Schema) : String × Schema :=
  let child := property.2.augmentNode none
  (property.1,
    if Auxiliary.isAuxiliary property.1 then child else child.withoutMarker .sourceQuote)

theorem augments_augmentedProperty (property : String × Schema) :
    Augments none property.2 (augmentedProperty property).2 := by
  rw [augmentedProperty]
  dsimp only
  split
  · exact .inl rfl
  · exact .inr rfl

theorem augmentProperties_eq_flatMap (existing : List String)
    (properties : List (String × Schema)) :
    augmentProperties existing properties = properties.flatMap fun property =>
      (leading? existing property).toList ++ [augmentedProperty property] ++
        (trailing? existing property).toList := by
  induction properties with
  | nil => rfl
  | cons property rest ih =>
      obtain ⟨name, schema⟩ := property
      rw [augmentProperties, ih, List.flatMap_cons, leading?, trailing?, augmentedProperty]
      cases Auxiliary.isAuxiliary name <;> rfl

theorem mem_augmentProperties_iff :
    property ∈ augmentProperties existing properties ↔
      ∃ own ∈ properties, leading? existing own = some property ∨
        property = augmentedProperty own ∨ trailing? existing own = some property := by
  simp only [augmentProperties_eq_flatMap, List.mem_flatMap, List.mem_append, Option.mem_toList,
    List.mem_singleton, or_assoc]

theorem mem_augmentProperties (mem : property ∈ augmentProperties existing properties) :
    Added property ∨ ∃ own ∈ properties, property = augmentedProperty own := by
  obtain ⟨own, below, found | rfl | found⟩ := mem_augmentProperties_iff.1 mem
  · exact .inl (added_of_leading? found)
  · exact .inr ⟨own, below, rfl⟩
  · exact .inl (added_of_trailing? found)

theorem exists_of_augmentItems {items : Option Schema}
    (augmented : augmentItems items = some result) :
    ∃ schema, items = some schema ∧ Augments (some itemSlot) schema result := by
  rw [augmentItems_eq_map, Option.map_eq_some_iff] at augmented
  obtain ⟨schema, rfl, rfl⟩ := augmented
  refine ⟨schema, rfl, ?_⟩
  dsimp only
  split
  · exact .inr rfl
  · exact .inl rfl

theorem augmentedProperty_mem_augmentProperties (existing : List String)
    (mem : property ∈ properties) :
    augmentedProperty property ∈ augmentProperties existing properties :=
  mem_augmentProperties_iff.2 ⟨property, mem, .inr (.inl rfl)⟩

/-! ## Nodes -/

/-- The slot that a union hands on to its members. -/
def memberSlot (slot : Option String) (schema : Schema) : Option String :=
  if schema.describesObject || schema.unionMembers.countP describesObject != 1 then none else slot

def augmentedProperties (slot : Option String) (schema : Schema) : List (String × Schema) :=
  if schema.describesObject then
    let self := (schema.selfReasoning? slot).toList
    self ++ augmentProperties (Members.keys (self ++ schema.properties)) schema.properties
  else schema.properties

def augmentedRequired (slot : Option String) (schema : Schema) : List String :=
  if schema.describesObject then
    let self := (schema.selfReasoning? slot).toList
    schema.properties.foldl (requireSiblings (Members.keys (self ++ schema.properties)))
      (Members.keys self ++ schema.required)
  else schema.required

theorem augmentNode_eq (slot : Option String) (schema : Schema) :
    schema.augmentNode slot =
      { schema with
        properties := schema.augmentedProperties slot
        required := schema.augmentedRequired slot
        items := augmentItems schema.items
        anyOf := schema.anyOf.map (augmentNode (schema.memberSlot slot))
        oneOf := schema.oneOf.map (augmentNode (schema.memberSlot slot)) } := by
  rw [augmentedProperties, augmentedRequired]
  obtain ⟨⟩ := schema
  rw [augmentNode]
  simp only [← augmentMembers_eq_map]
  split <;> rfl

theorem mem_augmentedProperties (mem : property ∈ schema.augmentedProperties slot) :
    Added property ∨
      ∃ own ∈ schema.properties, property = own ∨ property = augmentedProperty own := by
  rw [augmentedProperties] at mem
  split at mem
  · rcases List.mem_append.1 mem with mem | mem
    · exact .inl (added_of_selfReasoning? (Option.mem_toList.1 mem))
    · refine (mem_augmentProperties mem).imp_right ?_
      rintro ⟨own, below, same⟩
      exact ⟨own, below, .inr same⟩
  · exact .inr ⟨property, mem, .inl rfl⟩

theorem augmentedProperty_mem_augmentedProperties (slot : Option String)
    (describes : schema.describesObject = true) (mem : property ∈ schema.properties) :
    augmentedProperty property ∈ schema.augmentedProperties slot := by
  rw [augmentedProperties, if_pos describes]
  exact List.mem_append_right _ (augmentedProperty_mem_augmentProperties _ mem)

theorem mem_augmentedRequired_iff (plain : Auxiliary.isAuxiliary name = false) :
    name ∈ schema.augmentedRequired slot ↔ name ∈ schema.required := by
  rw [augmentedRequired]
  split
  · rw [mem_foldl_requireSiblings_iff plain, List.mem_append, or_iff_right]
    intro mem
    obtain ⟨property, own, rfl⟩ := List.mem_map.1 mem
    rw [(added_of_selfReasoning? (Option.mem_toList.1 own)).auxiliary] at plain
    cases plain
  · rfl

theorem augmentedProperties_ne_nil (some : schema.properties ≠ []) :
    schema.augmentedProperties slot ≠ [] := by
  rw [augmentedProperties]
  split
  · obtain ⟨property, mem⟩ := List.exists_mem_of_ne_nil _ some
    exact List.ne_nil_of_mem (List.mem_append_right _
      (augmentedProperty_mem_augmentProperties _ mem))
  · exact some

/-- What describes objects has properties or names the object type. -/
theorem object_mem_types_of_describesObject (describes : schema.describesObject = true)
    (bare : schema.properties = []) : .object ∈ schema.types := by
  rw [describesObject, Bool.or_eq_true, isObject, decide_eq_true_eq, Bool.and_eq_true] at describes
  rcases describes with object | union
  · cases stated : schema.types with
    | nil => simp [kind, bare, stated, ite_eq_iff] at object
    | cons type rest =>
        cases rest with
        | nil => simp_all [kind, ite_eq_iff]
        | cons second more => simp [kind, stated, ite_eq_iff] at object
  · exact List.contains_iff_mem.1 union.2

theorem isLeaf_eq_false_of_describesObject (describes : schema.describesObject = true) :
    schema.isLeaf = false := by
  cases bare : schema.properties with
  | cons property rest => simp [isLeaf, bare]
  | nil =>
      have named := object_mem_types_of_describesObject describes bare
      simp [isLeaf, named]

/-- Only a node that states no type could become another kind of node through properties. -/
theorem kind_augmentNode (slot : Option String) (schema : Schema) :
    (schema.augmentNode slot).kind = schema.kind := by
  rw [augmentNode_eq]
  by_cases same : schema.types = [] ∧ schema.properties = []
  · obtain ⟨stated, bare⟩ := same
    have plain : ¬ schema.describesObject := fun describes =>
      List.ne_nil_of_mem (object_mem_types_of_describesObject describes bare) stated
    simp [kind, augmentedProperties, plain]
  · cases stated : schema.types with
    | nil =>
        have bare : schema.properties ≠ [] := fun bare => same ⟨stated, bare⟩
        simp [kind, stated, bare, augmentedProperties_ne_nil bare]
    | cons type rest => cases rest <;> simp [kind, stated]

theorem describesObject_augmentNode (slot : Option String) (schema : Schema) :
    (schema.augmentNode slot).describesObject = schema.describesObject := by
  rw [describesObject, describesObject, isObject, isObject, kind_augmentNode, augmentNode_eq]

/-! ## Properties of nodes -/

/-- Nodes with one property have another once they are augmented, with their quote marker used
up or not, as have the fields that are added. -/
structure Augmentable (P Q : Schema → Prop) : Prop where
  stays : ∀ {schema : Schema}, P schema → Q schema
  added : ∀ description, Q (textField description)
  augmented : ∀ {schema : Schema} (slot : Option String), P schema → Q (schema.augmentNode slot)
  withoutMarker : ∀ {schema : Schema}, Q schema → Q (schema.withoutMarker .sourceQuote)

namespace Augmentable

variable {P Q : Schema → Prop}

theorem of_augments (augmentable : Augmentable P Q) (placed : Augments slot schema result)
    (everywhere : (schema.augmentNode slot).Everywhere Q) : result.Everywhere Q := by
  rcases placed with rfl | rfl
  · exact everywhere
  · obtain ⟨own, children⟩ := everywhere_iff.1 everywhere
    exact everywhere_iff.2 ⟨augmentable.withoutMarker own, children⟩

theorem augmentNode (augmentable : Augmentable P Q) (start : schema.Everywhere P)
    (slot : Option String) : (schema.augmentNode slot).Everywhere Q := by
  induction schema using Schema.induct generalizing slot with
  | node schema ih =>
      obtain ⟨own, children⟩ := everywhere_iff.1 start
      have each {child : Schema} (mem : child ∈ schema.children) (slot : Option String) :
          (child.augmentNode slot).Everywhere Q :=
        ih child mem (children child mem) slot
      have stays {child : Schema} (mem : child ∈ schema.children) : child.Everywhere Q :=
        (children child mem).imp fun _ => augmentable.stays
      refine everywhere_iff.2 ⟨augmentable.augmented slot own, fun child mem => ?_⟩
      rw [augmentNode_eq] at mem
      rcases mem_children_iff.1 mem with mem | mem | mem | mem | mem
      · obtain ⟨property, below, rfl⟩ := List.mem_map.1 mem
        rcases mem_augmentedProperties below with added | ⟨property, within, rfl | rfl⟩
        · obtain ⟨description, text⟩ := added.text
          exact everywhere_iff.2
            ⟨text ▸ augmentable.added description, text ▸ List.forall_mem_nil _⟩
        · exact stays (mem_children_of_properties within)
        · exact augmentable.of_augments (augments_augmentedProperty property)
            (each (mem_children_of_properties within) none)
      · obtain ⟨item, within, placed⟩ := exists_of_augmentItems mem
        exact augmentable.of_augments placed (each (mem_children_of_items within) _)
      · obtain ⟨member, within, rfl⟩ := List.mem_map.1 mem
        exact each (mem_children_of_anyOf within) _
      · obtain ⟨member, within, rfl⟩ := List.mem_map.1 mem
        exact each (mem_children_of_oneOf within) _
      · exact stays (mem_children_of_allOf mem)

end Augmentable

/-- Augmentation changes no reference. -/
theorem augmentable_reference {R : Option String → Prop} (none : R none) :
    Augmentable (fun node => R node.reference) fun node => R node.reference where
  stays own := own
  added _ := none
  augmented := by
    intro schema slot own
    rw [augmentNode_eq]
    exact own
  withoutMarker own := own

/-- Augmentation only brings in auxiliary names, and no members of enumerations. -/
theorem augmentable_uses {uses : String → Prop} {members : Json → Prop}
    (auxiliary : ∀ name, Auxiliary.isAuxiliary name = true → uses name) :
    Augmentable (Uses uses members) (Uses uses members) where
  stays own := own
  added _ := ⟨List.forall_mem_nil _, List.forall_mem_nil _⟩
  augmented := by
    intro schema slot own
    rw [augmentNode_eq]
    refine ⟨fun name mem => ?_, own.members⟩
    obtain ⟨property, below, rfl⟩ := List.mem_map.1 mem
    rcases mem_augmentedProperties below with added | ⟨property, within, rfl | rfl⟩
    · exact auxiliary _ added.auxiliary
    · exact own.names _ (List.mem_map.2 ⟨property, within, rfl⟩)
    · exact own.names _ (List.mem_map.2 ⟨property, within, rfl⟩)
  withoutMarker own := ⟨own.names, own.members⟩

end Schema

namespace Document

variable {document : Document}

theorem augment_of_apart (root : document.root = .apart document.schema) :
    document.augment =
      { document with root := .apart (document.schema.augmentNode (some Schema.rootSlot)) } := by
  rw [augment, modifySchema, root]

theorem everywhere_augment {uses : String → Prop} {members : Json → Prop}
    (auxiliary : ∀ name, Auxiliary.isAuxiliary name = true → uses name)
    (root : document.root = .apart document.schema)
    (start : document.Everywhere (Schema.Uses uses members)) :
    document.augment.Everywhere (Schema.Uses uses members) := by
  rw [augment_of_apart root]
  exact ⟨(Schema.augmentable_uses auxiliary).augmentNode start.schema _, start.definitions⟩

end Document

end SchemaStream
