import SchemaStream.Proofs.Schema.Augmented
import SchemaStream.Proofs.Schema.ReadBack

/-!
# Augmenting what is augmented

Augmentation finds the fields that it added before by their names, and the quote markers
used up.  So it adds nothing to an augmented schema; and it makes no difference whether the
schema is written and read back before or after.
-/

namespace SchemaStream

namespace Schema

variable {schema other third : Schema} {slot : Option String} {name : String}
  {existing required : List String} {properties : List (String × Schema)}
  {property : String × Schema}

section

variable (slot : Option String) (schema : Schema)

theorem properties_augmentNode :
    (schema.augmentNode slot).properties = schema.augmentedProperties slot := by
  rw [augmentNode_eq]

theorem anyOf_augmentNode : (schema.augmentNode slot).anyOf =
    schema.anyOf.map (augmentNode (schema.memberSlot slot)) := by
  rw [augmentNode_eq]

theorem oneOf_augmentNode : (schema.augmentNode slot).oneOf =
    schema.oneOf.map (augmentNode (schema.memberSlot slot)) := by
  rw [augmentNode_eq]

end

/-! ## What augmentation asks of a node that it places -/

structure SameTraits (schema other : Schema) : Prop where
  describesObject : schema.describesObject = other.describesObject
  isLeaf : schema.isLeaf = other.isLeaf
  prompt? : schema.prompt? .reasoningPrompt = other.prompt? .reasoningPrompt
  reasoningPrompt? : schema.reasoningPrompt? = other.reasoningPrompt?

theorem SameTraits.trans (first : SameTraits schema other) (second : SameTraits other third) :
    SameTraits schema third :=
  ⟨first.describesObject.trans second.describesObject, first.isLeaf.trans second.isLeaf,
    first.prompt?.trans second.prompt?, first.reasoningPrompt?.trans second.reasoningPrompt?⟩

theorem SameTraits.reasoningSibling?_eq (same : SameTraits schema other) :
    reasoningSibling? existing name schema = reasoningSibling? existing name other := by
  rw [reasoningSibling?, reasoningSibling?, same.reasoningPrompt?]

theorem sameTraits_augmentNode (slot : Option String) (schema : Schema) :
    SameTraits (schema.augmentNode slot) schema where
  describesObject := describesObject_augmentNode slot schema
  isLeaf := by
    by_cases describes : schema.describesObject = true
    · have again := (describesObject_augmentNode slot schema).trans describes
      rw [isLeaf_eq_false_of_describesObject describes, isLeaf_eq_false_of_describesObject again]
    · rw [augmentNode_eq, augmentedProperties, if_neg describes]
      simp [isLeaf, augmentItems_eq_map]
  prompt? := by rw [augmentNode_eq]; rfl
  reasoningPrompt? := by
    have prompts (members : List Schema) (slot : Option String) :
        (members.map (augmentNode slot)).findSome? (fun member => member.prompt? .reasoningPrompt) =
          members.findSome? fun member => member.prompt? .reasoningPrompt := by
      rw [List.findSome?_map]
      congr 1
      funext member
      rw [Function.comp_apply, augmentNode_eq]
      rfl
    rw [augmentNode_eq]
    simp only [reasoningPrompt?, unionMembers, List.findSome?_append, prompts]
    rfl

theorem sameTraits_withoutMarker (schema : Schema) :
    SameTraits (schema.withoutMarker .sourceQuote) schema := by
  have prompt : (schema.withoutMarker .sourceQuote).prompt? .reasoningPrompt =
      schema.prompt? .reasoningPrompt := by
    rw [prompt?, prompt?, marker?, marker?, withoutMarker, Members.get?_erase,
      if_neg (by decide)]
  refine ⟨rfl, rfl, prompt, ?_⟩
  rw [reasoningPrompt?, reasoningPrompt?, prompt]
  rfl

theorem sameTraits_augmentedProperty (property : String × Schema) :
    SameTraits (augmentedProperty property).2 property.2 := by
  have augmented := sameTraits_augmentNode none property.2
  rcases augments_augmentedProperty property with same | same
  · exact same ▸ augmented
  · exact same ▸ (sameTraits_withoutMarker _).trans augmented

/-! ## Quote markers -/

theorem withoutMarker_withoutMarker (schema : Schema) (marker : Marker) :
    (schema.withoutMarker marker).withoutMarker marker = schema.withoutMarker marker := by
  rw [withoutMarker, withoutMarker]
  simp [Members.erase]

theorem wantsSourceQuote_withoutMarker (schema : Schema) :
    (schema.withoutMarker .sourceQuote).wantsSourceQuote = false := by
  rw [wantsSourceQuote, marker?, withoutMarker, Members.get?_erase, if_pos rfl]
  rfl

theorem selfReasoning?_withoutMarker (slot : Option String) (schema : Schema) :
    (schema.withoutMarker .sourceQuote).selfReasoning? slot = schema.selfReasoning? slot := by
  rw [selfReasoning?, selfReasoning?, (sameTraits_withoutMarker schema).prompt?]
  rfl

theorem augmentNode_withoutMarker (slot : Option String) (schema : Schema) :
    (schema.withoutMarker .sourceQuote).augmentNode slot =
      (schema.augmentNode slot).withoutMarker .sourceQuote := by
  have properties : (schema.withoutMarker .sourceQuote).augmentedProperties slot =
      schema.augmentedProperties slot := by
    rw [augmentedProperties, augmentedProperties, selfReasoning?_withoutMarker]
    rfl
  have required : (schema.withoutMarker .sourceQuote).augmentedRequired slot =
      schema.augmentedRequired slot := by
    rw [augmentedRequired, augmentedRequired, selfReasoning?_withoutMarker]
    rfl
  rw [augmentNode_eq, augmentNode_eq, properties, required]
  rfl

/-! ## Properties to which nothing is added -/

structure Steady (existing : List String) (property : String × Schema) : Prop where
  augmented : augmentedProperty property = property
  leading : leading? existing property = none
  trailing : trailing? existing property = none

theorem augmentProperties_of_steady (steady : ∀ property ∈ properties, Steady existing property) :
    augmentProperties existing properties = properties := by
  rw [augmentProperties_eq_flatMap]
  induction properties with
  | nil => rfl
  | cons property rest ih =>
      obtain ⟨first, others⟩ := List.forall_mem_cons.1 steady
      rw [List.flatMap_cons, first.augmented, first.leading, first.trailing, ih others]
      rfl

theorem foldl_requireSiblings_of_steady
    (steady : ∀ property ∈ properties, Steady existing property) :
    properties.foldl (requireSiblings existing) required = required := by
  induction properties with
  | nil => rfl
  | cons property rest ih =>
      obtain ⟨first, others⟩ := List.forall_mem_cons.1 steady
      have same : requireSiblings existing required property = required := by
        rw [requireSiblings_eq, first.leading, first.trailing]
        exact ite_self required
      rw [List.foldl_cons, same, ih others]

/-- An added field keeps what it is: it has an auxiliary name, and no marker. -/
theorem Added.steady (added : Added property) (existing : List String) :
    Steady existing property := by
  obtain ⟨description, text⟩ := added.text
  have same : (textField description).augmentNode none = textField description := by
    rw [augmentNode_eq]
    rfl
  refine ⟨?_, by rw [leading?, if_pos added.auxiliary], by rw [trailing?, if_pos added.auxiliary]⟩
  rw [augmentedProperty, if_pos added.auxiliary, text, same, ← text]

theorem augmentedProperty_augmentedProperty
    (again : (property.2.augmentNode none).augmentNode none = property.2.augmentNode none) :
    augmentedProperty (augmentedProperty property) = augmentedProperty property := by
  by_cases auxiliary : Auxiliary.isAuxiliary property.1 = true
  · simp only [augmentedProperty, if_pos auxiliary, again]
  · simp only [augmentedProperty, if_neg auxiliary, augmentNode_withoutMarker, again,
      withoutMarker_withoutMarker]

/-- The quote marker of a property is used up. -/
theorem trailing?_augmentedProperty (existing : List String) (property : String × Schema) :
    trailing? existing (augmentedProperty property) = none := by
  rw [trailing?, augmentedProperty]
  dsimp only
  split
  · rfl
  · rw [sourceSibling?, wantsSourceQuote_withoutMarker]
    rfl

theorem leading?_augmentedProperty (existing : List String) (property : String × Schema) :
    leading? existing (augmentedProperty property) = leading? existing property := by
  have same := sameTraits_augmentedProperty property
  rw [leading?, leading?, same.reasoningSibling?_eq]
  rfl

theorem leading?_eq_none_iff :
    leading? existing property = none ↔ Auxiliary.isAuxiliary property.1 = true ∨
      Auxiliary.reasoningField property.1 ∈ existing ∨ property.2.reasoningPrompt? = none := by
  rw [leading?]
  split
  · next auxiliary => simp [auxiliary]
  · next plain =>
      rw [reasoningSibling?]
      split
      · next there => simp [List.contains_iff_mem.1 there]
      · next absent =>
          rw [List.contains_iff_mem] at absent
          simp [plain, absent]

/-- The reasoning field that a property asks for is there after augmentation. -/
theorem leading?_eq_none_of_augmentProperties {before after : List String}
    (mem : property ∈ properties) (more : before ⊆ after)
    (names : Members.keys (augmentProperties before properties) ⊆ after) :
    leading? after property = none := by
  rw [leading?_eq_none_iff]
  cases asked : leading? before property with
  | none =>
      rcases leading?_eq_none_iff.1 asked with auxiliary | there | silent
      · exact .inl auxiliary
      · exact .inr (.inl (more there))
      · exact .inr (.inr silent)
  | some sibling =>
      have added : sibling ∈ augmentProperties before properties :=
        mem_augmentProperties_iff.2 ⟨property, mem, .inl asked⟩
      have there := names (List.mem_map.2 ⟨sibling, added, rfl⟩)
      exact .inr (.inl ((name_of_leading? asked).1 ▸ there))

/-! ## Augmenting a node twice -/

theorem keys_subset_augmentedProperties (slot : Option String)
    (describes : schema.describesObject = true) :
    Members.keys ((schema.selfReasoning? slot).toList ++ schema.properties) ⊆
      Members.keys (schema.augmentedProperties slot) := by
  intro name mem
  obtain ⟨property, within, rfl⟩ := List.mem_map.1 mem
  rcases List.mem_append.1 within with self | own
  · rw [augmentedProperties, if_pos describes]
    exact List.mem_map.2 ⟨property, List.mem_append_left _ self, rfl⟩
  · exact List.mem_map.2
      ⟨_, augmentedProperty_mem_augmentedProperties slot describes own, rfl⟩

theorem steady_of_mem_augmentedProperties (describes : schema.describesObject = true)
    (again : ∀ child ∈ schema.children,
      (child.augmentNode none).augmentNode none = child.augmentNode none)
    (mem : property ∈ schema.augmentedProperties slot) :
    Steady (Members.keys (schema.augmentedProperties slot)) property := by
  have names := keys_subset_augmentedProperties slot describes
  have below : Members.keys (augmentProperties
      (Members.keys ((schema.selfReasoning? slot).toList ++ schema.properties))
      schema.properties) ⊆ Members.keys (schema.augmentedProperties slot) := by
    rw [augmentedProperties, if_pos describes]
    exact List.map_subset Prod.fst (List.subset_append_right _ _)
  have cases : Added property ∨ ∃ own ∈ schema.properties, property = augmentedProperty own := by
    rw [augmentedProperties, if_pos describes] at mem
    rcases List.mem_append.1 mem with self | own
    · exact .inl (added_of_selfReasoning? (Option.mem_toList.1 self))
    · exact mem_augmentProperties own
  rcases cases with added | ⟨own, within, rfl⟩
  · exact added.steady _
  · refine ⟨augmentedProperty_augmentedProperty (again _ (mem_children_of_properties within)), ?_,
      trailing?_augmentedProperty _ own⟩
    rw [leading?_augmentedProperty]
    exact leading?_eq_none_of_augmentProperties within names below

/-- An object that asks for reasoning about itself has the field for it after augmentation. -/
theorem selfReasoning?_augmentNode (describes : schema.describesObject = true) :
    (schema.augmentNode slot).selfReasoning? slot = none := by
  cases slot with
  | none => rfl
  | some name =>
      have names := keys_subset_augmentedProperties (some name) describes
      have same := (sameTraits_augmentNode (some name) schema).prompt?
      rw [selfReasoning?, same, properties_augmentNode]
      cases asked : schema.prompt? .reasoningPrompt with
      | none => rfl
      | some prompt =>
          have there : Auxiliary.reasoningField name ∈
              Members.keys (schema.augmentedProperties (some name)) := by
            apply names
            by_cases own : Members.has schema.properties (Auxiliary.reasoningField name) = true
            · exact List.map_subset Prod.fst (List.subset_append_right _ _)
                (Members.has_iff_mem_keys.1 own)
            · simp [selfReasoning?, asked, own, Members.keys]
          simp [Members.has_iff_mem_keys.2 there]

theorem augmentItems_augmentItems {items : Option Schema}
    (again : ∀ item, items = some item →
      (item.augmentNode (some itemSlot)).augmentNode (some itemSlot) =
        item.augmentNode (some itemSlot)) :
    augmentItems (augmentItems items) = augmentItems items := by
  rw [augmentItems_eq_map, augmentItems_eq_map]
  cases items with
  | none => rfl
  | some item =>
      have leaf := (sameTraits_augmentNode (some itemSlot) item).isLeaf
      have bare := (sameTraits_withoutMarker (item.augmentNode (some itemSlot))).isLeaf
      simp only [Option.map_some, Option.some.injEq]
      by_cases own : item.isLeaf = true
      · rw [if_pos own, if_pos (bare.trans (leaf.trans own)), augmentNode_withoutMarker,
          again item rfl, withoutMarker_withoutMarker]
      · rw [if_neg own, if_neg (leaf ▸ own), again item rfl]

theorem memberSlot_augmentNode (slot : Option String) (schema : Schema) :
    (schema.augmentNode slot).memberSlot slot = schema.memberSlot slot := by
  have count (members : List Schema) (slot : Option String) :
      (members.map (augmentNode slot)).countP describesObject =
        members.countP describesObject := by
    rw [List.countP_map]
    exact List.countP_congr fun member _ => by
      rw [Function.comp_apply, describesObject_augmentNode]
  rw [memberSlot, memberSlot, describesObject_augmentNode, augmentNode_eq]
  simp only [unionMembers, List.countP_append, count]

/-- Augmentation changes nothing in an augmented schema. -/
theorem augmentNode_augmentNode (slot : Option String) (schema : Schema) :
    (schema.augmentNode slot).augmentNode slot = schema.augmentNode slot := by
  induction schema using Schema.induct generalizing slot with
  | node schema ih =>
      have object := describesObject_augmentNode slot schema
      have properties : (schema.augmentNode slot).augmentedProperties slot =
          (schema.augmentNode slot).properties := by
        by_cases describes : schema.describesObject = true
        · rw [augmentedProperties, if_pos (object.trans describes),
            selfReasoning?_augmentNode describes, properties_augmentNode]
          exact augmentProperties_of_steady fun property mem =>
            steady_of_mem_augmentedProperties describes (fun child below => ih child below none) mem
        · rw [augmentedProperties, if_neg (object ▸ describes)]
      have required : (schema.augmentNode slot).augmentedRequired slot =
          (schema.augmentNode slot).required := by
        by_cases describes : schema.describesObject = true
        · rw [augmentedRequired, if_pos (object.trans describes),
            selfReasoning?_augmentNode describes, properties_augmentNode]
          exact foldl_requireSiblings_of_steady fun property mem =>
            steady_of_mem_augmentedProperties describes (fun child below => ih child below none) mem
        · rw [augmentedRequired, if_neg (object ▸ describes)]
      have items : augmentItems (schema.augmentNode slot).items =
          (schema.augmentNode slot).items := by
        rw [augmentNode_eq]
        exact augmentItems_augmentItems fun item own => ih item (mem_children_of_items own) _
      have members {members : List Schema} (below : ∀ member ∈ members, member ∈ schema.children)
          (slot : Option String) : (members.map (augmentNode slot)).map (augmentNode slot) =
            members.map (augmentNode slot) := by
        rw [List.map_map]
        exact List.map_congr_left fun member mem => ih member (below member mem) slot
      rw [augmentNode_eq slot (schema.augmentNode slot), properties, required, items,
        memberSlot_augmentNode, anyOf_augmentNode, oneOf_augmentNode,
        members fun _ => mem_children_of_anyOf, members fun _ => mem_children_of_oneOf,
        ← anyOf_augmentNode, ← oneOf_augmentNode]
      obtain ⟨⟩ := schema.augmentNode slot
      rfl

/-! ## Augmenting what is read back -/

theorem sameTraits_reread (schema : Schema) : SameTraits schema.reread schema where
  describesObject := by
    rw [reread_eq]
    simp [describesObject, isObject, kind, Members.mapValues]
  isLeaf := by
    rw [reread_eq]
    simp [isLeaf, Members.mapValues]
  prompt? := by
    rw [reread_eq]
    rfl
  reasoningPrompt? := by
    have prompts (members : List Schema) :
        (members.map reread).findSome? (fun member => member.prompt? .reasoningPrompt) =
          members.findSome? fun member => member.prompt? .reasoningPrompt := by
      rw [List.findSome?_map]
      congr 1
      funext member
      rw [Function.comp_apply, reread_eq]
      rfl
    rw [reread_eq]
    simp only [reasoningPrompt?, unionMembers, List.findSome?_append, prompts]
    rfl

theorem wantsSourceQuote_reread (schema : Schema) :
    schema.reread.wantsSourceQuote = schema.wantsSourceQuote := by
  rw [reread_eq]
  rfl

theorem reread_textField (description : String) :
    (textField description).reread = textField description := by
  rw [reread_eq]
  rfl

theorem reread_withoutMarker (schema : Schema) (marker : Marker) :
    (schema.withoutMarker marker).reread = schema.reread.withoutMarker marker := by
  rw [reread_eq, reread_eq]
  rfl

/-- A property as it is read back. -/
def rereadProperty (property : String × Schema) : String × Schema := (property.1, property.2.reread)

theorem leading?_rereadProperty (existing : List String) (property : String × Schema) :
    leading? existing (rereadProperty property) = leading? existing property := by
  rw [leading?, leading?, rereadProperty, (sameTraits_reread property.2).reasoningSibling?_eq]

theorem trailing?_rereadProperty (existing : List String) (property : String × Schema) :
    trailing? existing (rereadProperty property) = trailing? existing property := by
  rw [trailing?, trailing?, rereadProperty, sourceSibling?, sourceSibling?,
    wantsSourceQuote_reread, (sameTraits_reread property.2).isLeaf]

theorem Added.rereadProperty_eq (added : Added property) : rereadProperty property = property := by
  obtain ⟨description, text⟩ := added.text
  rw [rereadProperty, text, reread_textField, ← text]

theorem selfReasoning?_reread (slot : Option String) (schema : Schema) :
    schema.reread.selfReasoning? slot = schema.selfReasoning? slot := by
  have names (name : String) : Members.has schema.reread.properties name =
      Members.has schema.properties name := by
    rw [reread_eq, Bool.eq_iff_iff, Members.has_iff_mem_keys, Members.has_iff_mem_keys,
      Members.keys_mapValues]
  simp only [selfReasoning?, (sameTraits_reread schema).prompt?, names]

theorem augmentedProperty_rereadProperty
    (same : property.2.reread.augmentNode none = (property.2.augmentNode none).reread) :
    augmentedProperty (rereadProperty property) = rereadProperty (augmentedProperty property) := by
  rw [augmentedProperty, rereadProperty, rereadProperty, augmentedProperty, same]
  by_cases auxiliary : Auxiliary.isAuxiliary property.1 = true
  · simp only [if_pos auxiliary]
  · simp only [if_neg auxiliary, reread_withoutMarker]

theorem augmentProperties_reread (existing : List String)
    (same : ∀ property ∈ properties,
      property.2.reread.augmentNode none = (property.2.augmentNode none).reread) :
    augmentProperties existing (properties.map rereadProperty) =
      (augmentProperties existing properties).map rereadProperty := by
  have sibling {found : Option (String × Schema)} (added : ∀ other, found = some other →
      Added other) : found.toList.map rereadProperty = found.toList := by
    cases found with
    | none => rfl
    | some other => exact congrArg List.singleton (added other rfl).rereadProperty_eq
  rw [augmentProperties_eq_flatMap, augmentProperties_eq_flatMap, List.flatMap_map,
    List.map_flatMap]
  refine List.flatMap_congr fun property mem => ?_
  rw [leading?_rereadProperty, trailing?_rereadProperty,
    augmentedProperty_rereadProperty (same property mem), List.map_append, List.map_append,
    sibling fun _ => added_of_leading?, sibling fun _ => added_of_trailing?]
  rfl

theorem foldl_requireSiblings_reread (existing required : List String)
    (properties : List (String × Schema)) :
    (properties.map rereadProperty).foldl (requireSiblings existing) required =
      properties.foldl (requireSiblings existing) required := by
  rw [List.foldl_map]
  congr 1
  funext required property
  rw [requireSiblings_eq, requireSiblings_eq, leading?_rereadProperty, trailing?_rereadProperty]
  rfl

theorem properties_reread (schema : Schema) :
    schema.reread.properties = schema.properties.map rereadProperty := by
  rw [reread_eq]
  rfl

theorem keys_append_properties_reread (slot : Option String) (schema : Schema) :
    Members.keys ((schema.reread.selfReasoning? slot).toList ++ schema.reread.properties) =
      Members.keys ((schema.selfReasoning? slot).toList ++ schema.properties) := by
  have names := Members.keys_mapValues reread schema.properties
  rw [selfReasoning?_reread, properties_reread]
  simp only [Members.keys, List.map_append] at names ⊢
  exact congrArg _ names

theorem augmentedProperties_reread (slot : Option String)
    (same : ∀ child ∈ schema.children,
      child.reread.augmentNode none = (child.augmentNode none).reread) :
    schema.reread.augmentedProperties slot =
      (schema.augmentedProperties slot).map rereadProperty := by
  rw [augmentedProperties, augmentedProperties, (sameTraits_reread schema).describesObject]
  dsimp only
  rw [keys_append_properties_reread, selfReasoning?_reread, properties_reread,
    augmentProperties_reread _ fun property mem => same _ (mem_children_of_properties mem)]
  split
  · have self : (schema.selfReasoning? slot).toList.map rereadProperty =
        (schema.selfReasoning? slot).toList := by
      cases found : schema.selfReasoning? slot with
      | none => rfl
      | some own => exact congrArg List.singleton (added_of_selfReasoning? found).rereadProperty_eq
    rw [List.map_append, self]
  · rfl

theorem augmentedRequired_reread (slot : Option String) (schema : Schema) :
    schema.reread.augmentedRequired slot = schema.augmentedRequired slot := by
  have required : schema.reread.required = schema.required := by rw [reread_eq]
  rw [augmentedRequired, augmentedRequired, (sameTraits_reread schema).describesObject]
  dsimp only
  rw [keys_append_properties_reread, selfReasoning?_reread, properties_reread, required,
    foldl_requireSiblings_reread]

theorem augmentItems_reread {items : Option Schema}
    (same : ∀ item, items = some item → ∀ slot,
      item.reread.augmentNode slot = (item.augmentNode slot).reread) :
    augmentItems (items.map reread) = (augmentItems items).map reread := by
  cases items with
  | none => rfl
  | some item =>
      rw [augmentItems_eq_map, augmentItems_eq_map]
      simp only [Option.map_some, (sameTraits_reread item).isLeaf, same item rfl]
      split
      · rw [reread_withoutMarker]
      · rfl

theorem memberSlot_reread (slot : Option String) (schema : Schema) :
    schema.reread.memberSlot slot = schema.memberSlot slot := by
  have count (members : List Schema) :
      (members.map reread).countP describesObject = members.countP describesObject := by
    rw [List.countP_map]
    exact List.countP_congr fun member _ => by
      rw [Function.comp_apply, (sameTraits_reread member).describesObject]
  rw [memberSlot, memberSlot, (sameTraits_reread schema).describesObject, reread_eq]
  simp only [unionMembers, List.countP_append, count]

/-- Whether a schema is read back before it is augmented or after makes no difference. -/
theorem augmentNode_reread (slot : Option String) (schema : Schema) :
    schema.reread.augmentNode slot = (schema.augmentNode slot).reread := by
  induction schema using Schema.induct generalizing slot with
  | node schema ih =>
      have items : augmentItems schema.reread.items = (augmentItems schema.items).map reread := by
        rw [reread_eq]
        exact augmentItems_reread fun item own => ih item (mem_children_of_items own)
      have members {members : List Schema} (below : ∀ member ∈ members, member ∈ schema.children)
          (slot : Option String) : (members.map reread).map (augmentNode slot) =
            (members.map (augmentNode slot)).map reread := by
        rw [List.map_map, List.map_map]
        exact List.map_congr_left fun member mem => ih member (below member mem) slot
      rw [augmentNode_eq, augmentedProperties_reread slot fun child mem => ih child mem none,
        augmentedRequired_reread, items, memberSlot_reread, reread_eq schema,
        reread_eq (schema.augmentNode slot), augmentNode_eq slot schema]
      simp only [members fun _ => mem_children_of_anyOf, members fun _ => mem_children_of_oneOf]
      rfl

end Schema

end SchemaStream
