import SchemaStream.Proofs.Json.Shedding
import SchemaStream.Proofs.Schema.AugmentedDocuments
import SchemaStream.Proofs.Schema.Rendering
import SchemaStream.Schema.Prompts

/-!
# Augmentation is conservative

Deleting what augmentation put into a document gives the document back, except for some quote
markers, and but for these the same is written for it.  What was put in stands where it belongs,
and asks for the same prompts.
-/

namespace SchemaStream

namespace Schema

open Expansion (Parts)

variable {schema other result : Schema} {slot : Option String}

/-! ## What is written -/

theorem congruent_sheds (name : String) : Json.Congruent (Json.Sheds name) where
  refl := .refl
  array := .array
  object := fun each => .object (.of_forall₂ each)

theorem forall₂_of_append {α β : Type} {R : α → β → Prop} {front back : List α}
    {front' back' : List β} (same : front.length = front'.length)
    (both : List.Forall₂ R (front ++ back) (front' ++ back')) :
    List.Forall₂ R front front' ∧ List.Forall₂ R back back' := by
  have first := List.forall₂_take front.length both
  have last := List.forall₂_drop front.length both
  rw [List.take_left, same, List.take_left] at first
  rw [List.drop_left, same, List.drop_left] at last
  exact ⟨first, last⟩

/-- Nodes of one shape have their parts in a relation if they have their children in it. -/
theorem parts_of_children {R : Schema → Schema → Prop}
    (names : Members.keys schema.properties = Members.keys other.properties)
    (trunk : other.trunk = schema.trunk ∨ other.trunk = schema.trunk.withoutMarker .sourceQuote)
    (children : List.Forall₂ R schema.children other.children) :
    (Parts.ofNode schema).Rel R (Parts.ofNode other) := by
  obtain ⟨items, anyOf, oneOf, allOf⟩ := lengths_of_trunk trunk
  have properties := congrArg List.length names
  have items : schema.items.toList.length = other.items.toList.length := by
    cases hs : schema.items <;> cases ho : other.items <;> simp [hs, ho] at items ⊢
  simp only [Members.keys, List.length_map] at properties
  obtain ⟨children, allOf⟩ := forall₂_of_append (by simp [properties, items, anyOf, oneOf]) children
  obtain ⟨children, oneOf⟩ := forall₂_of_append (by simp [properties, items, anyOf]) children
  obtain ⟨children, anyOf⟩ := forall₂_of_append (by simp [properties, items]) children
  obtain ⟨values, items⟩ := forall₂_of_append (by simp [properties]) children
  exact ⟨allOf, Members.forall₂_iff.2 ⟨names, values⟩, items, anyOf, oneOf⟩

theorem sheds_extensions (same : other.hollow = schema.hollow ∨
    other.hollow = schema.hollow.withoutMarker .sourceQuote) :
    Members.Sheds Marker.sourceQuote.name (Json.Sheds Marker.sourceQuote.name)
      schema.extensions other.extensions := by
  rcases same with same | same
  · have kept : other.extensions = schema.extensions := congrArg (fun node => node.extensions) same
    exact kept ▸ .refl .refl _
  · have erased : other.extensions = Members.erase schema.extensions Marker.sourceQuote.name :=
      congrArg (fun node => node.extensions) same
    exact erased ▸ .erase .refl _

/-- What is written for a schema whose nodes have lost quote markers has lost these alone. -/
theorem Unmarked.sheds (unmarked : Unmarked schema other) :
    Json.Sheds Marker.sourceQuote.name schema.toJson other.toJson := by
  induction schema using Schema.induct generalizing other with
  | node schema ih =>
      obtain ⟨same, children⟩ := unmarked
      have below := ((List.forall₂_and_left _ _).2 ⟨fun _ mem => mem, children⟩).imp
        fun child after both => ih child both.1 both.2
      have alike {α : Type} (part : Schema → α)
          (unmarked : ∀ node : Schema, part (node.withoutMarker .sourceQuote) = part node) :
          part schema.hollow = part other.hollow := by
        rcases same with same | same
        · rw [same]
        · rw [same, unmarked]
      have names : Members.keys schema.properties = Members.keys other.properties := by
        have names := alike (fun node => Members.keys node.properties) fun _ => rfl
        simpa only [hollow, Members.keys_mapValues] using names
      have keywords : schema.keywords = other.keywords :=
        alike (fun node => node.keywords) fun _ => rfl
      have trunk := same.imp (congrArg fun node => { node with properties := [], required := [] })
        (congrArg fun node => { node with properties := [], required := [] })
      have written : Corresponding _ schema.written other.written :=
        corresponding_written (congruent_sheds Marker.sourceQuote.name)
          (alike stem fun _ => rfl) (parts_of_children names trunk below)
      rw [toJson_eq, toJson_eq, ← keywords]
      exact .object
        (((Members.Sheds.of_forall₂ written).append (.refl .refl _)).append (sheds_extensions same))

/-! ## Prompts -/

theorem ownFieldPrompt_withoutMarker (key : String) (schema : Schema) :
    ownFieldPrompt key (schema.withoutMarker .sourceQuote).extensions =
      ownFieldPrompt key schema.extensions := by
  have other : Marker.sourceQuote.name ≠ Marker.fieldPrompt.name := by decide
  rw [ownFieldPrompt, ownFieldPrompt, withoutMarker, Members.get?_erase, if_neg other]

theorem fieldPrompts_eq (key : String) (schema : Schema) :
    schema.fieldPrompts key = ownFieldPrompt key schema.extensions ++
      (schema.properties.flatMap fun property =>
        fieldPrompts (FlatKey.join key property.1) property.2) ++
      (schema.items.toList.flatMap (fieldPrompts (FlatKey.join key Prompts.itemsSegment))) ++
      (schema.anyOf.flatMap (fieldPrompts key)) ++ (schema.oneOf.flatMap (fieldPrompts key)) ++
      (schema.allOf.flatMap (fieldPrompts key)) := by
  have items (items : Option Schema) : itemPrompts key items =
      items.toList.flatMap (fieldPrompts (FlatKey.join key Prompts.itemsSegment)) := by
    cases items <;> simp [itemPrompts]
  obtain ⟨⟩ := schema
  simp only [fieldPrompts, propertyPrompts_eq_flatMap, memberPrompts_eq_flatMap, items]

theorem fieldPrompts_withoutMarker (key : String) (schema : Schema) :
    (schema.withoutMarker .sourceQuote).fieldPrompts key = schema.fieldPrompts key := by
  rw [fieldPrompts_eq, fieldPrompts_eq, ownFieldPrompt_withoutMarker]
  rfl

theorem Augments.fieldPrompts_eq (placed : Augments slot schema result) {key : String}
    (same : (schema.augmentNode slot).fieldPrompts key = schema.fieldPrompts key) :
    result.fieldPrompts key = schema.fieldPrompts key := by
  rcases placed with rfl | rfl
  · exact same
  · rw [fieldPrompts_withoutMarker, same]

/-- An added field has no prompt. -/
theorem Added.fieldPrompts_eq_nil {property : String × Schema} (added : Added property)
    (key : String) : property.2.fieldPrompts key = [] := by
  obtain ⟨description, text⟩ := added.text
  rw [text, fieldPrompts_eq]
  simp [textField, ofType, ownFieldPrompt, Members.get?]

/-- What is collected from properties is collected from augmented ones, if there is nothing in what
is added. -/
theorem flatMap_augmentedProperties {α : Type} {collect : String × Schema → List α}
    (added : ∀ property, Added property → collect property = [])
    (own : ∀ property ∈ schema.properties, collect (augmentedProperty property) = collect property)
    (slot : Option String) :
    (schema.augmentedProperties slot).flatMap collect = schema.properties.flatMap collect := by
  have none {found : Option (String × Schema)} (all : ∀ property, found = some property →
      Added property) : found.toList.flatMap collect = [] := by
    cases found with
    | none => rfl
    | some property => simp [added property (all property rfl)]
  by_cases describes : schema.describesObject = true
  · rw [augmentedProperties_of_describes slot describes, augmentProperties_eq_flatMap_placed,
      List.flatMap_append, none fun _ => added_of_selfReasoning?, List.nil_append,
      List.flatMap_assoc]
    refine List.flatMap_congr fun property mem => ?_
    rw [placed, List.flatMap_append, List.flatMap_append, none fun _ => added_of_leading?,
      none fun _ => added_of_trailing?]
    simp [own property mem]
  · rw [augmentedProperties, if_neg describes]

theorem fieldPrompts_augmentNode (key : String) (slot : Option String) (schema : Schema) :
    (schema.augmentNode slot).fieldPrompts key = schema.fieldPrompts key := by
  induction schema using Schema.induct generalizing key slot with
  | node schema ih =>
      have placed {child result : Schema} {slot : Option String} (mem : child ∈ schema.children)
          (placed : Augments slot child result) (key : String) :
          result.fieldPrompts key = child.fieldPrompts key :=
        placed.fieldPrompts_eq (ih child mem key slot)
      have properties : ((schema.augmentNode slot).properties.flatMap fun property =>
            fieldPrompts (FlatKey.join key property.1) property.2) =
          schema.properties.flatMap fun property =>
            fieldPrompts (FlatKey.join key property.1) property.2 := by
        rw [properties_augmentNode]
        exact flatMap_augmentedProperties
          (fun property added => added.fieldPrompts_eq_nil (FlatKey.join key property.1))
          (fun property mem => placed (mem_children_of_properties mem)
            (augments_augmentedProperty property) (FlatKey.join key property.1)) slot
      have items : (schema.augmentNode slot).items.toList.flatMap
            (fieldPrompts (FlatKey.join key Prompts.itemsSegment)) =
          schema.items.toList.flatMap (fieldPrompts (FlatKey.join key Prompts.itemsSegment)) := by
        cases found : schema.items with
        | none => rw [augmentNode_eq, found, augmentItems]
        | some item =>
            have below : schema.child? .items = some item := found
            obtain ⟨after, there, made⟩ := exists_child?_augmentNode below slot
            have there : (schema.augmentNode slot).items = some after := there
            rw [there]
            exact congrArg (· ++ []) (placed (mem_children_of_items found) made _)
      have members {members : List Schema} (below : ∀ child ∈ members, child ∈ schema.children)
          (slot : Option String) :
          (members.map (augmentNode slot)).flatMap (fieldPrompts key) =
            members.flatMap (fieldPrompts key) := by
        rw [List.flatMap_map]
        exact List.flatMap_congr fun child mem => ih child (below child mem) key slot
      rw [fieldPrompts_eq, properties, items, fieldPrompts_eq, anyOf_augmentNode, oneOf_augmentNode,
        members fun _ => mem_children_of_anyOf, members fun _ => mem_children_of_oneOf,
        augmentNode_eq]

end Schema

namespace Document

open Schema (Grown RequiresOwn Unmarked Inserted)

variable {document other : Document}

/-- What is left of a document without the properties that another one does not have. -/
def reducedTo (result original : Document) : Document :=
  { result with
    root := .apart (result.schema.reducedTo original.schema)
    definitions := result.definitions.map fun definition =>
      match Members.get? original.definitions definition.1 with
      | some body => (definition.1, definition.2.reducedTo body)
      | none => definition }

/-- A document in which some nodes may have lost their quote markers, and nothing else is
changed. -/
structure Unmarked (document other : Document) : Prop where
  schema : Schema.Unmarked document.schema other.schema
  definitions : List.Forall₂ (fun definition other => definition.1 = other.1 ∧
    Schema.Unmarked definition.2 other.2) document.definitions other.definitions
  table : other.table = document.table

/-- What is written for a document whose nodes have lost quote markers has lost these alone. -/
theorem Unmarked.sheds (unmarked : document.Unmarked other) :
    Json.Sheds Marker.sourceQuote.name document.toJson other.toJson := by
  have schema := unmarked.schema.sheds
  have definitions : List.Forall₂ (fun definition other => definition.1 = other.1 ∧
      Json.Sheds Marker.sourceQuote.name definition.2 other.2)
      (Schema.propertiesJson document.definitions) (Schema.propertiesJson other.definitions) := by
    rw [Schema.propertiesJson_eq_mapValues, Schema.propertiesJson_eq_mapValues, Members.mapValues,
      Members.mapValues, List.forall₂_map_left_iff, List.forall₂_map_right_iff]
    exact unmarked.definitions.imp fun _ _ both => ⟨both.1, both.2.sheds⟩
  have empty := Members.isEmpty_eq_of_keys_eq (Members.keys_eq_of_forall₂
    (definitions.imp fun _ _ both => both.1))
  have table : Marker.sourceQuote.name ≠ document.table.name := by
    cases document.table <;> decide
  rw [Schema.toJson_eq, Schema.toJson_eq] at schema
  rw [toJson, toJson, Schema.toJson_eq, Schema.toJson_eq, withTable, withTable, unmarked.table,
    empty]
  split
  · exact schema
  · have inside := Json.sheds_object_iff.1 schema
    exact .object (inside.insert table (.object (.of_forall₂ definitions)))

theorem forall₂_modifyDefinition {R : Schema → Schema → Prop} {name : String}
    {change : Schema → Schema} (refl : ∀ body, R body body)
    (changed : ∀ definition ∈ document.definitions, definition.1 = name →
      R definition.2 (change definition.2)) :
    List.Forall₂ (fun definition after => definition.1 = after.1 ∧ R definition.2 after.2)
      document.definitions (document.modifyDefinition name change).definitions := by
  rw [modifyDefinition]
  refine List.forall₂_map_right_iff.2 (List.forall₂_same.2 fun definition mem => ?_)
  split
  · next here => exact ⟨rfl, changed definition mem here⟩
  · exact ⟨rfl, refl definition.2⟩

section

variable (sound : document.Sound) (owns : document.Everywhere RequiresOwn)
include sound owns

theorem grown_schema_augment : Grown document.schema document.augment.schema := by
  rw [schema_augment sound.named.named]
  exact Schema.grown_of_augments (sound.named.schema Schema.lasting_named) owns.schema
    .root (.inl rfl)

theorem forall₂_grown :
    List.Forall₂ (fun definition after => definition.1 = after.1 ∧ Grown definition.2 after.2)
      document.definitions document.augment.definitions := by
  cases root : document.root with
  | apart own =>
      have same : document.schema = own := by rw [schema, root]
      rw [augment_of_apart (same ▸ root)]
      exact List.forall₂_same.2 fun definition _ => ⟨rfl, .refl definition.2⟩
  | within name path =>
      rw [augment_of_within root]
      refine forall₂_modifyDefinition Grown.refl fun definition mem _ => ?_
      refine .modify fun node found => ?_
      exact Schema.grown_of_augments ((sound.named.definitions definition mem).at? found)
        ((owns.definitions definition mem).at? found)
        .root (.inl rfl)
  | beside own name path slots =>
      have grown := grown_schema_augment sound owns
      rw [schema_augment sound.named.named] at grown
      rw [augment_of_beside root]
      dsimp only
      refine forall₂_modifyDefinition Grown.refl fun definition mem here => ?_
      refine .modify fun node found => .withChildrenOf fun step mem' child after own' taken => ?_
      -- The root has the child of the node as its own, and so what that child has become.
      have below : document.schema.child? step = some child := by
        have shared := sound.shared
        rw [root] at shared
        obtain ⟨before, held⟩ := Option.isSome_iff_exists.1 (shared.2 step mem')
        have defined := Members.get?_eq_some_of_mem sound.distinct mem
        rw [schema, root]
        refine (Schema.child?_withChildrenOf ..).trans ?_
        rw [if_pos mem', held, node_eq (here ▸ defined) found, own']
        rfl
      obtain ⟨after', there, grown⟩ := grown.below below
      exact Option.some.inj (there.symm.trans taken) ▸ grown

theorem unmarked_reducedTo : document.Unmarked (document.augment.reducedTo document) where
  schema := (grown_schema_augment sound owns).unmarked (sound.named.schema Schema.lasting_named)
  definitions := by
    obtain ⟨same, grown⟩ := List.forall₂_iff_zip.1 (forall₂_grown sound owns)
    refine List.forall₂_map_right_iff.2 (List.forall₂_iff_zip.2 ⟨same, fun {own after} mem => ?_⟩)
    obtain ⟨name, grown⟩ := grown mem
    have below := (List.of_mem_zip mem).1
    rw [← name, Members.get?_eq_some_of_mem sound.distinct below]
    exact ⟨rfl, grown.unmarked (sound.named.definitions own below)⟩
  table := by
    change document.augment.table = document.table
    cases root : document.root <;> simp only [augment, modifySchema, root, modifyDefinition]

theorem exists_grown {site : Site} {own : Schema} (found : document.at? site = some own) :
    ∃ result, document.augment.at? site = some result ∧ Schema.GrownAt own result := by
  obtain ⟨start, first, below⟩ := Option.bind_eq_some_iff.1 found
  have begins : ∃ after, document.augment.start? site = some after ∧ Grown start after := by
    cases definition : site.definition with
    | none =>
        rw [start?, definition] at first ⊢
        cases first
        exact ⟨_, rfl, grown_schema_augment sound owns⟩
    | some name =>
        have both := Members.rel_get? (forall₂_grown sound owns) name
        rw [start?, definition] at first ⊢
        dsimp only at first ⊢
        rw [first] at both
        cases there : Members.get? document.augment.definitions name with
        | none => simp [there] at both
        | some after =>
            rw [there, Option.rel_some_some] at both
            exact ⟨after, rfl, both⟩
  obtain ⟨after, there, grown⟩ := begins
  obtain ⟨result, found', grown'⟩ := grown site.path own below
  exact ⟨result, by rw [Document.at?, there]; exact found', grown'⟩

omit owns in
theorem prompts_augment : document.augment.prompts = document.prompts := by
  have system (slot : Option String) (schema : Schema) :
      (schema.augmentNode slot).prompt? .systemPrompt = schema.prompt? .systemPrompt := by
    rw [Schema.augmentNode_eq]
    rfl
  rw [prompts, prompts, schema_augment sound.named.named, system, Schema.fieldPrompts_augmentNode]

end

/-- Augmentation takes nothing from a document, or from what is written for it, but quote markers,
and each property that it puts in is there for a reason and at its place. -/
theorem augmentation_is_conservative (sound : document.Sound)
    (owns : document.Everywhere RequiresOwn) :
    document.Unmarked (document.augment.reducedTo document) ∧
      Json.Sheds Marker.sourceQuote.name document.toJson
        (document.augment.reducedTo document).toJson ∧
      (∀ site own, document.at? site = some own →
        ∃ result, document.augment.at? site = some result ∧
          ∀ property ∈ result.properties, property.1 ∉ Members.keys own.properties →
            Inserted own result property) ∧
      document.augment.prompts = document.prompts := by
  have unmarked := unmarked_reducedTo sound owns
  refine ⟨unmarked, unmarked.sheds, fun site own found => ?_, prompts_augment sound⟩
  obtain ⟨result, there, grown⟩ := exists_grown sound owns found
  exact ⟨result, there, grown.inserted⟩

theorem augmentation_of_report_is_conservative :
    reportDocument.Sound ∧ reportDocument.Everywhere RequiresOwn ∧
      reportDocument.Unmarked (reportDocument.augment.reducedTo reportDocument) ∧
      Json.Sheds Marker.sourceQuote.name reportDocument.toJson
        (reportDocument.augment.reducedTo reportDocument).toJson ∧
      (∀ site own, reportDocument.at? site = some own →
        ∃ result, reportDocument.augment.at? site = some result ∧
          ∀ property ∈ result.properties, property.1 ∉ Members.keys own.properties →
            Inserted own result property) ∧
      reportDocument.augment.prompts = reportDocument.prompts := by
  have sound : reportDocument.Sound :=
    ⟨holds_named_reportDocument, by decide, ⟨rfl, rfl⟩, by decide⟩
  have owns : reportDocument.Everywhere RequiresOwn := ⟨by decide, by decide⟩
  exact ⟨sound, owns, augmentation_is_conservative sound owns⟩

end Document

end SchemaStream
