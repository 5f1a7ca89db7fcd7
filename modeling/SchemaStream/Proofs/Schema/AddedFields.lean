import SchemaStream.Proofs.Schema.AugmentedRequired
import Mathlib.Data.List.Flatten

/-!
# Where augmentation puts fields

A field that augmentation adds to an object is the field for the reasoning about the object
itself, which comes first, or it stands beside the property that asks for it.  What is required
is in the same order.  The properties that were there before stay in their order, and no added
field has a name of theirs.
-/

namespace SchemaStream

namespace Schema

variable {schema : Schema} {slot : Option String} {name : String}
  {existing required : List String} {properties : List (String × Schema)}
  {property sibling : String × Schema}

/-! ## When a field is added -/

theorem selfReasoning?_eq_some_iff : schema.selfReasoning? slot = some property ↔
    ∃ name prompt, slot = some name ∧ schema.prompt? .reasoningPrompt = some prompt ∧
      Auxiliary.reasoningField name ∉ Members.keys schema.properties ∧
        property = (Auxiliary.reasoningField name, textField prompt) := by
  simp only [selfReasoning?, Option.bind_eq_bind, Option.bind_eq_some_iff,
    ← Members.has_iff_mem_keys, Option.ite_none_left_eq_some, Option.some.injEq]
  grind

theorem leading?_eq_some_iff : leading? existing property = some sibling ↔
    Auxiliary.isAuxiliary property.1 = false ∧
      Auxiliary.reasoningField property.1 ∉ existing ∧
        ∃ prompt, property.2.reasoningPrompt? = some prompt ∧
          sibling = (Auxiliary.reasoningField property.1, textField prompt) := by
  simp only [leading?, reasoningSibling?, Option.ite_none_left_eq_some, Option.map_eq_some_iff,
    List.contains_iff_mem, Bool.not_eq_true]
  grind

theorem trailing?_eq_some_iff : trailing? existing property = some sibling ↔
    Auxiliary.isAuxiliary property.1 = false ∧
      Auxiliary.sourceField property.1 ∉ existing ∧
        property.2.wantsSourceQuote = true ∧ property.2.isLeaf = true ∧
          sibling =
            (Auxiliary.sourceField property.1, textField (quoteDescription property.1)) := by
  simp only [trailing?, sourceSibling?, Option.ite_none_left_eq_some, Bool.not_eq_true]
  grind

/-! ## Properties with their siblings -/

/-- A property as it is placed, between its siblings. -/
def placed (existing : List String) (property : String × Schema) : List (String × Schema) :=
  (leading? existing property).toList ++ [augmentedProperty property] ++
    (trailing? existing property).toList

theorem augmentProperties_eq_flatMap_placed (existing : List String)
    (properties : List (String × Schema)) :
    augmentProperties existing properties = properties.flatMap (placed existing) :=
  augmentProperties_eq_flatMap existing properties

theorem keys_placed (existing : List String) (property : String × Schema) :
    Members.keys (placed existing property) =
      Members.keys (leading? existing property).toList ++ [property.1] ++
        Members.keys (trailing? existing property).toList := by
  rw [placed, Members.keys, List.map_append, List.map_append]
  rfl

theorem keys_placed_perm (existing : List String) (property : String × Schema) :
    (Members.keys (placed existing property)).Perm
      (property.1 :: siblingNames existing property) := by
  rw [keys_placed, siblingNames, Members.keys, Members.keys, Members.keys, List.map_append,
    List.append_assoc, List.singleton_append]
  exact List.perm_middle

/-- Of the names of a property and its siblings, a choice that drops the siblings leaves the
property. -/
theorem filter_keys_placed {keep : String → Bool} (own : keep property.1 = true)
    (dropped : ∀ name ∈ siblingNames existing property, keep name = false) :
    (Members.keys (placed existing property)).filter keep = [property.1] := by
  rw [siblingNames] at dropped
  rw [keys_placed]
  generalize leading? existing property = before at *
  generalize trailing? existing property = after at *
  cases before <;> cases after <;> simp_all [Members.keys]

theorem get?_placed (taken : name ∈ existing) :
    Members.get? (placed existing property) name =
      if property.1 = name then some (augmentedProperty property).2 else none := by
  have apart {found : Option (String × Schema)}
      (fresh : ∀ sibling, found = some sibling → sibling.1 ∉ existing) :
      Members.get? found.toList name = none := by
    cases found with
    | none => rfl
    | some sibling =>
        have ne : sibling.1 ≠ name := fun same => fresh sibling rfl (same ▸ taken)
        simp [Members.get?, ne]
  have first : Members.get? (leading? existing property).toList name = none :=
    apart fun _ found => (name_of_leading? found).2
  have last : Members.get? (trailing? existing property).toList name = none :=
    apart fun _ found => (name_of_trailing? found).2
  rw [placed, Members.get?_append, Members.get?_append, first, last, Option.none_or, Option.or_none,
    augmentedProperty]
  rfl

/-! ## All properties with their siblings -/

theorem keys_augmentProperties_perm (existing : List String)
    (properties : List (String × Schema)) :
    (Members.keys (augmentProperties existing properties)).Perm
      (Members.keys properties ++ properties.flatMap (siblingNames existing)) := by
  have names : Members.keys properties = properties.flatMap fun property => [property.1] :=
    List.map_eq_flatMap
  have each (property : String × Schema) (_ : property ∈ properties) :
      (Members.keys (placed existing property)).Perm
        ([property.1] ++ siblingNames existing property) := keys_placed_perm existing property
  rw [augmentProperties_eq_flatMap_placed, Members.keys, List.map_flatMap, names]
  exact (List.Perm.flatMap_left properties each).trans (List.flatMap_append_perm ..).symm

theorem nodup_keys_augmentProperties (distinct : (Members.keys properties).Nodup)
    (taken : Members.keys properties ⊆ existing) :
    (Members.keys (augmentProperties existing properties)).Nodup := by
  refine (keys_augmentProperties_perm existing properties).nodup_iff.2
    (List.nodup_append.2 ⟨distinct, nodup_flatMap_siblingNames existing distinct, ?_⟩)
  rintro name own _ added rfl
  obtain ⟨property, -, beside⟩ := List.mem_flatMap.1 added
  exact (mem_siblingNames beside).1 (taken own)

theorem filter_keys_augmentProperties {keep : String → Bool}
    (own : ∀ property ∈ properties, keep property.1 = true)
    (dropped : ∀ property ∈ properties, ∀ name ∈ siblingNames existing property,
      keep name = false) :
    (Members.keys (augmentProperties existing properties)).filter keep =
      Members.keys properties := by
  rw [augmentProperties_eq_flatMap_placed]
  induction properties with
  | nil => rfl
  | cons property rest ih =>
      obtain ⟨first, others⟩ := List.forall_mem_cons.1 own
      obtain ⟨beside, more⟩ := List.forall_mem_cons.1 dropped
      rw [List.flatMap_cons, Members.keys, List.map_append, List.filter_append]
      exact congrArg₂ (· ++ ·) (filter_keys_placed first beside) (ih others more)

theorem get?_augmentProperties (taken : name ∈ existing) :
    Members.get? (augmentProperties existing properties) name =
      (Members.get? properties name).map fun child => (augmentedProperty (name, child)).2 := by
  rw [augmentProperties_eq_flatMap_placed]
  induction properties with
  | nil => rfl
  | cons property rest ih =>
      obtain ⟨key, child⟩ := property
      rw [List.flatMap_cons, Members.get?_append, get?_placed taken, ih, Members.get?]
      by_cases same : key = name
      · subst same
        simp
      · simp [same]

/-! ## The properties of an object -/

/-- The names that no property gets a sibling of. -/
def takenNames (slot : Option String) (schema : Schema) : List String :=
  Members.keys ((schema.selfReasoning? slot).toList ++ schema.properties)

theorem keys_subset_takenNames (slot : Option String) (schema : Schema) :
    Members.keys schema.properties ⊆ schema.takenNames slot :=
  List.map_subset Prod.fst (List.subset_append_right _ _)

theorem augmentedProperties_of_describes (slot : Option String)
    (describes : schema.describesObject = true) :
    schema.augmentedProperties slot = (schema.selfReasoning? slot).toList ++
      augmentProperties (schema.takenNames slot) schema.properties := by
  rw [augmentedProperties, if_pos describes]
  rfl

theorem augmentedRequired_of_describes (slot : Option String)
    (describes : schema.describesObject = true) :
    schema.augmentedRequired slot = Members.keys (schema.selfReasoning? slot).toList ++
      schema.properties.foldl (requireSiblings (schema.takenNames slot)) schema.required := by
  rw [augmentedRequired, if_pos describes, takenNames]
  cases found : schema.selfReasoning? slot with
  | none => rfl
  | some self => exact foldl_requireSiblings_cons (added_of_selfReasoning? found).auxiliary _ _ _

theorem not_mem_of_selfReasoning? (found : schema.selfReasoning? slot = some property) :
    property.1 ∉ Members.keys schema.properties := by
  obtain ⟨name, prompt, -, -, fresh, rfl⟩ := selfReasoning?_eq_some_iff.1 found
  exact fresh

theorem not_mem_of_mem_siblingNames (mem : name ∈ siblingNames (schema.takenNames slot) property) :
    name ∉ Members.keys schema.properties :=
  fun own => (mem_siblingNames mem).1 (keys_subset_takenNames slot schema own)

theorem nodup_keys_augmentedProperties (named : schema.Named) (slot : Option String) :
    (Members.keys (schema.augmentedProperties slot)).Nodup := by
  by_cases describes : schema.describesObject = true
  · rw [augmentedProperties_of_describes slot describes, Members.keys, List.map_append]
    have others := nodup_keys_augmentProperties named (keys_subset_takenNames slot schema)
    cases found : schema.selfReasoning? slot with
    | none => exact others
    | some self =>
        refine List.nodup_cons.2 ⟨fun mem => ?_, others⟩
        rcases List.mem_append.1 ((keys_augmentProperties_perm _ _).mem_iff.1 mem) with own | added
        · exact not_mem_of_selfReasoning? found own
        · obtain ⟨property, -, beside⟩ := List.mem_flatMap.1 added
          refine (mem_siblingNames beside).1 ?_
          rw [takenNames, found]
          exact List.mem_cons_self
  · rw [augmentedProperties, if_neg describes]
    exact named

theorem get?_augmentedProperties (slot : Option String) (describes : schema.describesObject = true)
    (own : name ∈ Members.keys schema.properties) :
    Members.get? (schema.augmentedProperties slot) name =
      (Members.get? schema.properties name).map fun child =>
        (augmentedProperty (name, child)).2 := by
  have taken := keys_subset_takenNames slot schema own
  rw [augmentedProperties_of_describes slot describes, Members.get?_append,
    get?_augmentProperties taken]
  cases found : schema.selfReasoning? slot with
  | none => rfl
  | some self =>
      have ne : self.1 ≠ name := fun same => not_mem_of_selfReasoning? found (same ▸ own)
      simp [Members.get?, ne]

theorem filter_keys_augmentedProperties (slot : Option String) (schema : Schema) :
    (Members.keys (schema.augmentedProperties slot)).filter (Members.has schema.properties) =
      Members.keys schema.properties := by
  have own (property : String × Schema) (mem : property ∈ schema.properties) :
      Members.has schema.properties property.1 = true :=
    Members.has_iff_mem_keys.2 (List.mem_map.2 ⟨property, mem, rfl⟩)
  have dropped {name : String} (fresh : name ∉ Members.keys schema.properties) :
      Members.has schema.properties name = false :=
    Bool.eq_false_iff.2 (mt Members.has_iff_mem_keys.1 fresh)
  by_cases describes : schema.describesObject = true
  · have others : (Members.keys (augmentProperties (schema.takenNames slot)
        schema.properties)).filter (Members.has schema.properties) =
          Members.keys schema.properties :=
      filter_keys_augmentProperties own fun property _ name beside =>
        dropped (not_mem_of_mem_siblingNames beside)
    rw [augmentedProperties_of_describes slot describes, Members.keys, List.map_append,
      List.filter_append]
    cases found : schema.selfReasoning? slot with
    | none => exact others
    | some self =>
        have self := dropped (not_mem_of_selfReasoning? found)
        simpa [Members.keys, self] using others
  · rw [augmentedProperties, if_neg describes, List.filter_eq_self]
    exact fun name mem => Members.has_iff_mem_keys.2 mem

theorem placed_infix_augmentedProperties (slot : Option String)
    (describes : schema.describesObject = true) (mem : property ∈ schema.properties) :
    placed (schema.takenNames slot) property <:+: schema.augmentedProperties slot := by
  have block := List.infix_flatMap_of_mem mem (placed (schema.takenNames slot))
  rw [augmentedProperties_of_describes slot describes, augmentProperties_eq_flatMap_placed]
  exact block.trans (List.suffix_append _ _).isInfix

/-! ## What an object requires -/

/-- The names that augmentation adds to what an object requires. -/
def addedRequired (slot : Option String) (schema : Schema) : List String :=
  Members.keys (schema.selfReasoning? slot).toList ++
    schema.properties.flatMap (requiredSiblings (schema.takenNames slot) schema.required)

theorem augmentedRequired_perm (slot : Option String) (describes : schema.describesObject = true) :
    (schema.augmentedRequired slot).Perm (schema.addedRequired slot ++ schema.required) := by
  rw [augmentedRequired_of_describes slot describes, addedRequired, List.append_assoc]
  exact (foldl_requireSiblings_perm _ _ _).append_left _

theorem mem_addedRequired (mem : name ∈ schema.addedRequired slot) :
    Auxiliary.isAuxiliary name = true ∧ name ∉ Members.keys schema.properties := by
  rcases List.mem_append.1 mem with self | beside
  · obtain ⟨field, own, rfl⟩ := List.mem_map.1 self
    have found := Option.mem_toList.1 own
    exact ⟨(added_of_selfReasoning? found).auxiliary, not_mem_of_selfReasoning? found⟩
  · obtain ⟨property, -, required⟩ := List.mem_flatMap.1 beside
    have sibling := (mem_requiredSiblings_iff.1 required).2
    exact ⟨isAuxiliary_of_mem_siblingNames sibling, not_mem_of_mem_siblingNames sibling⟩

/-- A field that is added and required stands among the properties. -/
theorem mem_keys_augmentedProperties_of_addedRequired (describes : schema.describesObject = true)
    (mem : name ∈ schema.addedRequired slot) :
    name ∈ Members.keys (schema.augmentedProperties slot) := by
  rw [augmentedProperties_of_describes slot describes, Members.keys, List.map_append,
    List.mem_append]
  refine (List.mem_append.1 mem).imp_right fun beside => ?_
  obtain ⟨property, own, required⟩ := List.mem_flatMap.1 beside
  exact (keys_augmentProperties_perm _ _).mem_iff.2 (List.mem_append_right _
    (List.mem_flatMap.2 ⟨property, own, (mem_requiredSiblings_iff.1 required).2⟩))

theorem nodup_addedRequired (named : schema.Named) (slot : Option String) :
    (schema.addedRequired slot).Nodup := by
  have self : (Members.keys (schema.selfReasoning? slot).toList).Nodup := by
    cases schema.selfReasoning? slot <;> simp [Members.keys]
  have beside : (schema.properties.flatMap
      (requiredSiblings (schema.takenNames slot) schema.required)).Nodup := by
    have all := nodup_flatMap_siblingNames (schema.takenNames slot) named
    refine all.sublist (List.Sublist.flatMap_right _ fun property _ => ?_)
    rw [requiredSiblings]
    split
    · exact .refl _
    · exact List.nil_sublist _
  refine List.nodup_append.2 ⟨self, beside, ?_⟩
  rintro name own _ mem rfl
  obtain ⟨property, -, required⟩ := List.mem_flatMap.1 mem
  refine (mem_siblingNames (mem_requiredSiblings_iff.1 required).2).1 ?_
  exact List.map_subset Prod.fst (List.subset_append_left _ _) own

/-- Nothing comes to be required twice but a field that was required without being there. -/
theorem nodup_augmentedRequired_iff (named : schema.Named) (slot : Option String)
    (describes : schema.describesObject = true) :
    (schema.augmentedRequired slot).Nodup ↔
      schema.required.Nodup ∧ ∀ name ∈ schema.addedRequired slot, name ∉ schema.required := by
  rw [(augmentedRequired_perm slot describes).nodup_iff, List.nodup_append,
    and_iff_right (nodup_addedRequired named slot)]
  refine and_congr_right fun _ => forall₂_congr fun name _ => ?_
  exact ⟨fun apart own => apart name own rfl, fun absent other own same => absent (same ▸ own)⟩

/-- A node that requires no auxiliary field requires each name once after augmentation. -/
theorem nodup_augmentedRequired (named : schema.Named)
    (plain : ∀ name ∈ schema.required, Auxiliary.isAuxiliary name = false)
    (distinct : schema.required.Nodup) (slot : Option String) :
    (schema.augmentedRequired slot).Nodup := by
  by_cases describes : schema.describesObject = true
  · refine (nodup_augmentedRequired_iff named slot describes).2 ⟨distinct, fun name mem own => ?_⟩
    exact absurd (mem_addedRequired mem).1 (by simp [plain name own])
  · rw [augmentedRequired, if_neg describes]
    exact distinct

/-! ## How a field comes to stand in an object -/

/-- An auxiliary field that a node requires is one of its properties. -/
def RequiresOwn (schema : Schema) : Prop :=
  ∀ name ∈ schema.required, Auxiliary.isAuxiliary name = true →
    name ∈ Members.keys schema.properties

instance : DecidablePred RequiresOwn := fun schema =>
  inferInstanceAs (Decidable (∀ name ∈ schema.required, Auxiliary.isAuxiliary name = true →
    name ∈ Members.keys schema.properties))

/-- A field that a node has come to have: the reasoning about the node itself, in front of all, the
reasoning behind a property, right before it, or a quote for a property, right after it. -/
inductive Inserted (own result : Schema) : String × Schema → Prop
  | self {slot prompt : String} (slots : slot = rootSlot ∨ slot = itemSlot)
      (asked : own.prompt? .reasoningPrompt = some prompt)
      (first : (Members.keys result.properties).head? = some (Auxiliary.reasoningField slot))
      (required : result.required.head? = some (Auxiliary.reasoningField slot)) :
      Inserted own result (Auxiliary.reasoningField slot, textField prompt)
  | reasoning {name prompt : String} {child : Schema} (mem : (name, child) ∈ own.properties)
      (asked : child.reasoningPrompt? = some prompt)
      (before : [Auxiliary.reasoningField name, name] <:+: Members.keys result.properties)
      (required : Auxiliary.reasoningField name ∈ result.required ↔ name ∈ own.required)
      (requiredBefore : name ∈ own.required →
        [Auxiliary.reasoningField name, name] <:+: result.required) :
      Inserted own result (Auxiliary.reasoningField name, textField prompt)
  | source {name : String} {child : Schema} (mem : (name, child) ∈ own.properties)
      (leaf : child.isLeaf = true) (asked : child.wantsSourceQuote = true)
      (after : [name, Auxiliary.sourceField name] <:+: Members.keys result.properties)
      (required : Auxiliary.sourceField name ∈ result.required ↔ name ∈ own.required)
      (requiredAfter : name ∈ own.required →
        [name, Auxiliary.sourceField name] <:+: result.required) :
      Inserted own result (Auxiliary.sourceField name, textField (quoteDescription name))

section

variable (named : schema.Named) (owns : schema.RequiresOwn)
  (describes : schema.describesObject = true) (mem : property ∈ schema.properties)
include describes mem

theorem leading_infix_keys (found : leading? (schema.takenNames slot) property = some sibling) :
    [sibling.1, property.1] <:+: Members.keys (schema.augmentedProperties slot) := by
  have block := (placed_infix_augmentedProperties slot describes mem).map Prod.fst
  refine .trans ⟨[], Members.keys (trailing? (schema.takenNames slot) property).toList, ?_⟩ block
  rw [← Members.keys, keys_placed, found]
  rfl

theorem trailing_infix_keys (found : trailing? (schema.takenNames slot) property = some sibling) :
    [property.1, sibling.1] <:+: Members.keys (schema.augmentedProperties slot) := by
  have block := (placed_infix_augmentedProperties slot describes mem).map Prod.fst
  refine .trans ⟨Members.keys (leading? (schema.takenNames slot) property).toList, [], ?_⟩ block
  rw [← Members.keys, keys_placed, found]
  simp [Members.keys]

include owns in
theorem mem_augmentedRequired_of_siblingNames
    (beside : name ∈ siblingNames (schema.takenNames slot) property) :
    name ∈ schema.augmentedRequired slot ↔ property.1 ∈ schema.required := by
  have fresh := (mem_siblingNames beside).1
  have notSelf : name ∉ Members.keys (schema.selfReasoning? slot).toList := fun own =>
    fresh (List.map_subset Prod.fst (List.subset_append_left _ _) own)
  have notRequired : name ∉ schema.required := fun own =>
    not_mem_of_mem_siblingNames beside (owns name own (isAuxiliary_of_mem_siblingNames beside))
  rw [augmentedRequired_of_describes slot describes, List.mem_append, or_iff_right notSelf,
    mem_foldl_requireSiblings_iff_or, or_iff_right notRequired]
  constructor
  · rintro ⟨other, -, requires, beside'⟩
    exact eq_of_mem_siblingNames beside beside' ▸ requires
  · exact fun requires => ⟨property, mem, requires, beside⟩

include named

theorem infix_augmentedRequired {first second : String}
    (plain : Auxiliary.isAuxiliary property.1 = false) (requires : property.1 ∈ schema.required)
    (step : ∀ required, property.1 ∈ required →
      [first, second] <:+: requireSiblings (schema.takenNames slot) required property)
    (apart : ∀ other ∈ schema.properties, other.1 ≠ property.1 →
      second ≠ other.1 ∧ first ≠ other.1) :
    [first, second] <:+: schema.augmentedRequired slot := by
  rw [augmentedRequired_of_describes slot describes]
  exact (infix_foldl_requireSiblings_of_mem named mem plain requires step apart).trans
    (List.suffix_append _ _).isInfix

theorem leading_infix_augmentedRequired
    (found : leading? (schema.takenNames slot) property = some sibling)
    (requires : property.1 ∈ schema.required) :
    [sibling.1, property.1] <:+: schema.augmentedRequired slot := by
  have plain := (leading?_eq_some_iff.1 found).1
  refine infix_augmentedRequired named describes mem plain requires
    (fun required requires => infix_requireSiblings_leading found requires)
    fun other below ne => ⟨ne.symm, fun same => (name_of_leading? found).2 ?_⟩
  exact keys_subset_takenNames slot schema (same ▸ List.mem_map_of_mem below)

theorem trailing_infix_augmentedRequired
    (found : trailing? (schema.takenNames slot) property = some sibling)
    (requires : property.1 ∈ schema.required) :
    [property.1, sibling.1] <:+: schema.augmentedRequired slot := by
  have plain := (trailing?_eq_some_iff.1 found).1
  refine infix_augmentedRequired named describes mem plain requires
    (fun required requires => infix_requireSiblings_trailing found requires)
    fun other below ne => ⟨fun same => (name_of_trailing? found).2 ?_, ne.symm⟩
  exact keys_subset_takenNames slot schema (same ▸ List.mem_map_of_mem below)

end

/-- If a node is handed a slot, it is the slot of the root or the one of items. -/
def SlotHanded (slot : Option String) : Prop :=
  ∀ name, slot = some name → name = rootSlot ∨ name = itemSlot

theorem SlotHanded.root : SlotHanded (some rootSlot) :=
  fun _ same => .inl (Option.some.inj same).symm

/-- Each new property of an augmented node is put in for a reason, and at its place. -/
theorem inserted_of_mem_augmentedProperties (named : schema.Named) (owns : schema.RequiresOwn)
    (handed : SlotHanded slot) (mem : property ∈ schema.augmentedProperties slot)
    (new : property.1 ∉ Members.keys schema.properties) :
    Inserted schema (schema.augmentNode slot) property := by
  have describes : schema.describesObject = true := by
    by_contra plain
    rw [augmentedProperties, if_neg plain] at mem
    exact new (List.mem_map_of_mem mem)
  have properties : (schema.augmentNode slot).properties = schema.augmentedProperties slot := by
    rw [augmentNode_eq]
  have required : (schema.augmentNode slot).required = schema.augmentedRequired slot := by
    rw [augmentNode_eq]
  rw [augmentedProperties_of_describes slot describes] at mem
  rcases List.mem_append.1 mem with self | added
  · have found := Option.mem_toList.1 self
    obtain ⟨name, prompt, own, asked, -, rfl⟩ := selfReasoning?_eq_some_iff.1 found
    refine .self (handed name own) asked ?_ ?_
    · rw [properties, augmentedProperties_of_describes slot describes, found]
      rfl
    · rw [required, augmentedRequired_of_describes slot describes, found]
      rfl
  · obtain ⟨own, below, found | rfl | found⟩ := mem_augmentProperties_iff.1 added
    · have beside : property.1 ∈ siblingNames (schema.takenNames slot) own := by
        simp [siblingNames, found, Members.keys]
      have before := leading_infix_keys describes below found
      have requires := mem_augmentedRequired_of_siblingNames owns describes below beside
      have requiredBefore := leading_infix_augmentedRequired named describes below found
      obtain ⟨-, -, prompt, asked, rfl⟩ := leading?_eq_some_iff.1 found
      rw [← properties] at before
      rw [← required] at requires requiredBefore
      exact .reasoning below asked before requires requiredBefore
    · exact absurd (List.mem_map_of_mem below) new
    · have beside : property.1 ∈ siblingNames (schema.takenNames slot) own := by
        simp [siblingNames, found, Members.keys]
      have after := trailing_infix_keys describes below found
      have requires := mem_augmentedRequired_of_siblingNames owns describes below beside
      have requiredAfter := trailing_infix_augmentedRequired named describes below found
      obtain ⟨-, -, asked, leaf, rfl⟩ := trailing?_eq_some_iff.1 found
      rw [← properties] at after
      rw [← required] at requires requiredAfter
      exact .source below leaf asked after requires requiredAfter

end Schema

end SchemaStream
