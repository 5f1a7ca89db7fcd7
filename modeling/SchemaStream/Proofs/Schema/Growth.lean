import SchemaStream.Proofs.Schema.AugmentedAgain
import SchemaStream.Proofs.Schema.Obtained
import SchemaStream.Proofs.Schema.Visits

/-!
# What augmentation leaves as it is

A schema that has grown still has all its nodes where they were.  Each of them says what it said
before, but for a quote marker that may be gone and for the properties that were put in.  So the
schema is there again, except for some quote markers, once these properties are deleted.
-/

namespace SchemaStream

namespace Schema

variable {schema own result source child : Schema} {change : Schema → Schema}
  {slot : Option String} {step : Slot} {path : List Slot}

/-! ## Deleting what is new -/

/-- Whether a property is there that was not there originally. -/
def isNew (original properties : List (String × Schema)) (name : String) : Bool :=
  Members.has properties name && !Members.has original name

theorem isNew_eq_true_iff {original properties : List (String × Schema)} {name : String} :
    isNew original properties name = true ↔
      name ∈ Members.keys properties ∧ name ∉ Members.keys original := by
  rw [isNew, Bool.and_eq_true, Bool.not_eq_true', ← Bool.not_eq_true, Members.has_iff_mem_keys,
    Members.has_iff_mem_keys]

mutual

/-- A node without the properties that it has more than another one, and without their names in
what it requires; its children are compared with those of the other node. -/
def reducedTo (result original : Schema) : Schema :=
  match result with
  | { types, typesListed, properties, required, items, anyOf, oneOf, allOf, enumeration,
      reference, description, extensions, keywords } =>
    { types, typesListed
      properties := reducedProperties original.properties properties
      required := required.filter fun name => !isNew original.properties properties name
      items := reducedItems original.items items
      anyOf := reducedMembers original.anyOf anyOf
      oneOf := reducedMembers original.oneOf oneOf
      allOf := reducedMembers original.allOf allOf
      enumeration, reference, description, extensions, keywords }
termination_by structural result

def reducedProperties (original : List (String × Schema)) :
    List (String × Schema) → List (String × Schema)
  | [] => []
  | (name, schema) :: rest =>
      match Members.get? original name with
      | some own => (name, schema.reducedTo own) :: reducedProperties original rest
      | none => reducedProperties original rest
termination_by structural properties => properties

def reducedItems (original : Option Schema) : Option Schema → Option Schema
  | none => none
  | some schema =>
      match original with
      | some own => some (schema.reducedTo own)
      | none => some schema
termination_by structural items => items

/-- Members are compared in their order. -/
def reducedMembers (original : List Schema) : List Schema → List Schema
  | [] => []
  | schema :: rest =>
      match original with
      | [] => schema :: rest
      | own :: others => schema.reducedTo own :: reducedMembers others rest
termination_by structural members => members

end

theorem keys_reducedProperties (original properties : List (String × Schema)) :
    Members.keys (reducedProperties original properties) =
      (Members.keys properties).filter (Members.has original) := by
  induction properties with
  | nil => rfl
  | cons property rest ih =>
      obtain ⟨name, schema⟩ := property
      change _ = List.filter (Members.has original) (name :: Members.keys rest)
      rw [reducedProperties, List.filter_cons, Members.has]
      cases Members.get? original name with
      | none => exact ih
      | some own => exact congrArg _ ih

theorem get?_reducedProperties {original : List (String × Schema)} {name : String}
    (found : Members.get? original name = some own) (properties : List (String × Schema)) :
    Members.get? (reducedProperties original properties) name =
      (Members.get? properties name).map fun schema => schema.reducedTo own := by
  induction properties with
  | nil => rfl
  | cons property rest ih =>
      obtain ⟨key, schema⟩ := property
      rw [reducedProperties, Members.get?]
      by_cases here : key = name
      · subst here
        simp [found, Members.get?]
      · cases Members.get? original key <;> simp [here, ih, Members.get?]

/-- A schema in which some nodes may have lost their quote markers, and nothing else is changed. -/
inductive Unmarked : Schema → Schema → Prop
  | node {schema other : Schema}
      (same : other.hollow = schema.hollow ∨
        other.hollow = schema.hollow.withoutMarker .sourceQuote)
      (children : List.Forall₂ Unmarked schema.children other.children) : Unmarked schema other

/-! ## Schemas that have grown -/

/-- What a node says itself, apart from its properties. -/
def trunk (schema : Schema) : Schema := { schema.hollow with properties := [], required := [] }

/-- A node that may have lost its quote marker, and has come to have more properties. -/
structure GrownAt (own result : Schema) : Prop where
  alike : result.trunk = own.trunk ∨ result.trunk = own.trunk.withoutMarker .sourceQuote
  names : (Members.keys result.properties).filter (Members.has own.properties) =
    Members.keys own.properties
  required : (result.required.filter fun name => !isNew own.properties result.properties name) =
    own.required
  inserted : ∀ property ∈ result.properties, property.1 ∉ Members.keys own.properties →
    Inserted own result property

/-- Every node of a schema is still at its place, and may have grown. -/
def Grown (own result : Schema) : Prop :=
  ∀ path node, own.at? path = some node →
    ∃ grown, result.at? path = some grown ∧ GrownAt node grown

theorem filter_isNew_eq_self {original properties : List (String × Schema)} {names : List String}
    (old : ∀ name ∈ names, name ∈ Members.keys properties → name ∈ Members.keys original) :
    (names.filter fun name => !isNew original properties name) = names := by
  rw [List.filter_eq_self]
  intro name mem
  rw [Bool.not_eq_true', ← Bool.not_eq_true, isNew_eq_true_iff]
  exact fun new => new.2 (old name mem new.1)

theorem GrownAt.of_hollow (same : result.hollow = own.hollow) : GrownAt own result := by
  have names := keys_properties_of_hollow same
  have required : result.required = own.required := congrArg (fun node => node.required) same
  refine ⟨.inl ?_, ?_, ?_, fun property mem new => absurd ?_ new⟩
  · rw [trunk, trunk, same]
  · rw [names, List.filter_eq_self]
    exact fun name mem => Members.has_iff_mem_keys.2 mem
  · rw [filter_isNew_eq_self fun name _ mem => names ▸ mem, required]
  · exact names ▸ List.mem_map_of_mem mem

namespace Grown

theorem of_children (top : GrownAt own result)
    (children : ∀ step child, own.child? step = some child →
      ∃ after, result.child? step = some after ∧ Grown child after) : Grown own result := by
  intro path node found
  cases path with
  | nil =>
      cases found
      exact ⟨result, rfl, top⟩
  | cons step path =>
      obtain ⟨child, first, found⟩ := Option.bind_eq_some_iff.1 found
      obtain ⟨after, there, grown⟩ := children step child first
      obtain ⟨last, found', grown'⟩ := grown path node found
      exact ⟨last, by rw [at?, there]; exact found', grown'⟩

theorem here (grown : Grown own result) : GrownAt own result := by
  obtain ⟨_, ⟨⟩, grown⟩ := grown [] own rfl
  exact grown

theorem below (grown : Grown own result) (found : own.child? step = some child) :
    ∃ after, result.child? step = some after ∧ Grown child after := by
  have first : own.at? [step] = some child := by rw [at?, found]; rfl
  obtain ⟨after, there, -⟩ := grown [step] child first
  obtain ⟨_, there, ⟨⟩⟩ := Option.bind_eq_some_iff.1 there
  refine ⟨_, there, fun path node found' => ?_⟩
  obtain ⟨last, found', grown'⟩ := grown (step :: path) node (by rw [at?, found]; exact found')
  rw [at?, there] at found'
  exact ⟨last, found', grown'⟩

theorem refl (schema : Schema) : Grown schema schema :=
  fun _ node found => ⟨node, found, .of_hollow rfl⟩

theorem modifyChild
    (changed : ∀ child, schema.child? step = some child → Grown child (change child)) :
    Grown schema (schema.modifyChild step change) := by
  refine of_children (.of_hollow (hollow_modifyChild schema step change))
    fun other child found => ?_
  rw [child?_modifyChild, found]
  split
  · next same =>
      subst same
      exact ⟨_, rfl, changed child found⟩
  · exact ⟨_, rfl, refl child⟩

theorem modify (changed : ∀ node, schema.at? path = some node → Grown node (change node)) :
    Grown schema (schema.modify path change) := by
  induction path generalizing schema with
  | nil => exact changed schema rfl
  | cons step path ih =>
      refine modifyChild fun child found => ih fun node below => changed node ?_
      rw [at?, found]
      exact below

theorem withChildrenOf {slots : List Slot}
    (taken : ∀ step ∈ slots, ∀ child after, schema.child? step = some child →
      source.child? step = some after → Grown child after) :
    Grown schema (schema.withChildrenOf source slots) := by
  refine of_children (.of_hollow (hollow_withChildrenOf schema source slots))
    fun step child found => ?_
  rw [child?_withChildrenOf, found]
  split
  · next mem =>
      refine ⟨_, rfl, ?_⟩
      cases after : source.child? step with
      | none => exact refl child
      | some after' => exact taken step mem child after' found after
  · exact ⟨_, rfl, refl child⟩

end Grown

/-! ## Augmented schemas have grown -/

theorem mem_keys_of_augmentedProperties {name : String}
    (plain : Auxiliary.isAuxiliary name = false)
    (mem : name ∈ Members.keys (schema.augmentedProperties slot)) :
    name ∈ Members.keys schema.properties := by
  obtain ⟨property, below, rfl⟩ := List.mem_map.1 mem
  rcases mem_augmentedProperties below with added | ⟨property, within, rfl | rfl⟩
  · rw [added.auxiliary] at plain
    cases plain
  · exact List.mem_map_of_mem within
  · exact List.mem_map.2 ⟨property, within, rfl⟩

theorem filter_augmentedRequired (owns : schema.RequiresOwn) (slot : Option String) :
    ((schema.augmentedRequired slot).filter fun name =>
      !isNew schema.properties (schema.augmentedProperties slot) name) = schema.required := by
  have old : (schema.required.filter fun name =>
      !isNew schema.properties (schema.augmentedProperties slot) name) = schema.required := by
    refine filter_isNew_eq_self fun name requires mem => ?_
    by_cases auxiliary : Auxiliary.isAuxiliary name = true
    · exact owns name requires auxiliary
    · exact mem_keys_of_augmentedProperties (Bool.eq_false_iff.2 auxiliary) mem
  by_cases describes : schema.describesObject = true
  · have new {name : String} (mem : name ∈ Members.keys (schema.augmentedProperties slot))
        (fresh : name ∉ Members.keys schema.properties) :
        (!isNew schema.properties (schema.augmentedProperties slot) name) = false := by
      rw [Bool.not_eq_false', isNew_eq_true_iff]
      exact ⟨mem, fresh⟩
    have siblings (property : String × Schema) (mem : property ∈ schema.properties) (name : String)
        (beside : name ∈ siblingNames (schema.takenNames slot) property) :
        name ∈ Members.keys (schema.augmentedProperties slot) := by
      rw [augmentedProperties_of_describes slot describes, Members.keys, List.map_append]
      refine List.mem_append_right _ ((keys_augmentProperties_perm _ _).mem_iff.2 ?_)
      exact List.mem_append_right _ (List.mem_flatMap.2 ⟨property, mem, beside⟩)
    rw [augmentedRequired_of_describes slot describes, List.filter_append,
      filter_foldl_requireSiblings (fun property mem name beside =>
        new (siblings property mem name beside) (not_mem_of_mem_siblingNames beside)), old]
    refine List.append_left_eq_self.2 (List.filter_eq_nil_iff.2 fun name mem => ?_)
    obtain ⟨self, own, rfl⟩ := List.mem_map.1 mem
    have found := Option.mem_toList.1 own
    rw [new ?_ (not_mem_of_selfReasoning? found)]
    · exact Bool.false_ne_true
    · rw [augmentedProperties_of_describes slot describes]
      exact List.mem_map_of_mem (List.mem_append_left _ own)
  · rw [augmentedRequired, if_neg describes]
    exact old

theorem trunk_augmentNode (slot : Option String) (schema : Schema) :
    (schema.augmentNode slot).trunk = schema.trunk := by
  rw [augmentNode_eq, trunk, trunk, hollow, hollow, augmentItems_eq_map]
  simp [Function.comp_def]

theorem GrownAt.withoutMarker (grown : GrownAt own result)
    (same : result.trunk = own.trunk) : GrownAt own (result.withoutMarker .sourceQuote) where
  alike := .inr (congrArg (fun node => node.withoutMarker .sourceQuote) same)
  names := grown.names
  required := grown.required
  inserted := fun property mem new => by
    cases grown.inserted property mem new with
    | self slots asked first required => exact .self slots asked first required
    | reasoning own asked before required requiredBefore =>
        exact .reasoning own asked before required requiredBefore
    | source own leaf asked after required requiredAfter =>
        exact .source own leaf asked after required requiredAfter

theorem grownAt_augmentNode (named : schema.Named) (owns : schema.RequiresOwn)
    (handed : SlotHanded slot) : GrownAt schema (schema.augmentNode slot) where
  alike := .inl (trunk_augmentNode slot schema)
  names := by
    rw [properties_augmentNode]
    exact filter_keys_augmentedProperties slot schema
  required := by
    rw [augmentNode_eq]
    exact filter_augmentedRequired owns slot
  inserted := by
    rw [properties_augmentNode]
    exact fun property mem new => inserted_of_mem_augmentedProperties named owns handed mem new

theorem grownAt_of_augments (named : schema.Named) (owns : schema.RequiresOwn)
    (handed : SlotHanded slot) (placed : Augments slot schema result) : GrownAt schema result := by
  have grown := grownAt_augmentNode named owns handed
  rcases placed with rfl | rfl
  · exact grown
  · exact grown.withoutMarker (trunk_augmentNode slot schema)

theorem grown_of_augments (named : schema.Everywhere Named) (owns : schema.Everywhere RequiresOwn)
    (handed : SlotHanded slot) (placed : Augments slot schema result) : Grown schema result := by
  induction schema using Schema.induct generalizing slot result with
  | node schema ih =>
      obtain ⟨name, names⟩ := everywhere_iff.1 named
      obtain ⟨own, below⟩ := everywhere_iff.1 owns
      refine .of_children (grownAt_of_augments name own handed placed) fun step child found => ?_
      have mem := mem_children_of_child? found
      obtain ⟨after, there, made⟩ := exists_child?_augmentNode found slot
      rw [← placed.child?] at there
      refine ⟨after, there, ?_⟩
      cases goes : schema.handed? slot step with
      | none =>
          rw [goes] at made
          exact made ▸ .refl child
      | some next =>
          rw [goes] at made
          exact ih child mem (names child mem) (below child mem) (handed.handedOn goes) made

/-! ## Deleting what has grown -/

theorem reducedTo_eq (result original : Schema) :
    result.reducedTo original =
      { result with
        properties := reducedProperties original.properties result.properties
        required := result.required.filter fun name =>
          !isNew original.properties result.properties name
        items := reducedItems original.items result.items
        anyOf := reducedMembers original.anyOf result.anyOf
        oneOf := reducedMembers original.oneOf result.oneOf
        allOf := reducedMembers original.allOf result.allOf } := by
  obtain ⟨⟩ := result
  rw [reducedTo]

theorem reducedMembers_eq_zipWith {original members : List Schema}
    (same : original.length = members.length) :
    reducedMembers original members = List.zipWith reducedTo members original := by
  induction members generalizing original with
  | nil =>
      rw [reducedMembers]
      rfl
  | cons schema rest ih =>
      cases original with
      | nil => cases same
      | cons own others =>
          rw [reducedMembers, ih (Nat.succ.inj same), List.zipWith_cons_cons]

theorem hollow_eq_trunk (schema : Schema) :
    schema.hollow = { schema.trunk with
      properties := (Members.keys schema.properties).map fun name => (name, {})
      required := schema.required } := by
  simp [hollow, trunk, Members.mapValues, Members.keys]

theorem lengths_of_trunk
    (alike : result.trunk = own.trunk ∨ result.trunk = own.trunk.withoutMarker .sourceQuote) :
    own.items.isSome = result.items.isSome ∧ own.anyOf.length = result.anyOf.length ∧
      own.oneOf.length = result.oneOf.length ∧ own.allOf.length = result.allOf.length := by
  have parts : result.trunk.items = own.trunk.items ∧ result.trunk.anyOf = own.trunk.anyOf ∧
      result.trunk.oneOf = own.trunk.oneOf ∧ result.trunk.allOf = own.trunk.allOf := by
    rcases alike with same | same <;> rw [same] <;> exact ⟨rfl, rfl, rfl, rfl⟩
  obtain ⟨items, anyOf, oneOf, allOf⟩ := parts
  refine ⟨?_, ?_, ?_, ?_⟩
  · simpa [trunk, hollow] using (congrArg Option.isSome items).symm
  · simpa [trunk, hollow] using (congrArg List.length anyOf).symm
  · simpa [trunk, hollow] using (congrArg List.length oneOf).symm
  · simpa [trunk, hollow] using (congrArg List.length allOf).symm

theorem trunk_reducedTo (grown : GrownAt own result) :
    (result.reducedTo own).trunk = result.trunk := by
  obtain ⟨items, anyOf, oneOf, allOf⟩ := lengths_of_trunk grown.alike
  have members {original members : List Schema} (same : original.length = members.length) :
      (reducedMembers original members).map (fun _ => ({} : Schema)) = members.map fun _ => {} := by
    rw [reducedMembers_eq_zipWith same, List.map_const', List.map_const', List.length_zipWith, same,
      Nat.min_self]
  rw [reducedTo_eq, trunk, trunk, hollow, hollow]
  simp only [members anyOf, members oneOf, members allOf]
  congr 1
  cases result.items <;> cases own.items <;> rfl

theorem GrownAt.hollow_reducedTo (grown : GrownAt own result) :
    (result.reducedTo own).hollow = own.hollow ∨
      (result.reducedTo own).hollow = own.hollow.withoutMarker .sourceQuote := by
  have names : Members.keys (result.reducedTo own).properties = Members.keys own.properties := by
    rw [reducedTo_eq]
    exact (keys_reducedProperties _ _).trans grown.names
  have required : (result.reducedTo own).required = own.required := by
    rw [reducedTo_eq]
    exact grown.required
  rw [hollow_eq_trunk, hollow_eq_trunk own, names, required, trunk_reducedTo grown]
  refine grown.alike.imp (fun same => ?_) fun same => ?_
  · rw [same]
  · rw [same]
    rfl

theorem forall₂_reducedMembers {R : Schema → Schema → Prop} {original members : List Schema}
    (same : original.length = members.length)
    (each : ∀ (index : Nat) child, original[index]? = some child →
      ∃ after : Schema, members[index]? = some after ∧ R child (after.reducedTo child)) :
    List.Forall₂ R original (reducedMembers original members) := by
  rw [reducedMembers_eq_zipWith same]
  induction original generalizing members with
  | nil =>
      rw [List.zipWith_nil_right]
      exact .nil
  | cons own others ih =>
      cases members with
      | nil => cases same
      | cons schema rest =>
          obtain ⟨_, ⟨⟩, first⟩ := each 0 own rfl
          exact .cons first (ih (Nat.succ.inj same) fun index child found =>
            each (index + 1) child found)

/-- Deleting what is new from a schema that has grown gives the schema without some of its quote
markers. -/
theorem Grown.unmarked (grown : Grown own result) (named : own.Everywhere Named) :
    Unmarked own (result.reducedTo own) := by
  induction own using Schema.induct generalizing result with
  | node own ih =>
      obtain ⟨distinct, names⟩ := everywhere_iff.1 named
      have each (step : Slot) (child : Schema) (found : own.child? step = some child) :
          ∃ after, result.child? step = some after ∧ Unmarked child (after.reducedTo child) := by
        obtain ⟨after, there, below⟩ := grown.below found
        have mem := mem_children_of_child? found
        exact ⟨after, there, ih child mem below (names child mem)⟩
      obtain ⟨items, anyOf, oneOf, allOf⟩ := lengths_of_trunk grown.here.alike
      refine .node grown.here.hollow_reducedTo ?_
      rw [reducedTo_eq]
      refine List.rel_append (List.rel_append (List.rel_append (List.rel_append ?_ ?_) ?_) ?_) ?_
      · have keys : Members.keys own.properties =
            Members.keys (reducedProperties own.properties result.properties) :=
          grown.here.names.symm.trans (keys_reducedProperties _ _).symm
        refine (Members.forall₂_iff.1 (Members.forall₂_of_rel_get? keys distinct fun name => ?_)).2
        cases found : Members.get? own.properties name with
        | none =>
            rw [Members.get?_eq_none_iff.2 (keys ▸ Members.get?_eq_none_iff.1 found)]
            exact .none
        | some child =>
            obtain ⟨after, there, unmarked⟩ := each (.property name) child found
            have there : Members.get? result.properties name = some after := there
            rw [get?_reducedProperties found, there]
            exact .some unmarked
      · cases found : own.items with
        | none =>
            have none : result.items = none := by simpa [found] using items
            rw [none, reducedItems]
            exact .nil
        | some child =>
            obtain ⟨after, there, unmarked⟩ := each .items child found
            have there : result.items = some after := there
            rw [there, reducedItems]
            exact .cons unmarked .nil
      · exact forall₂_reducedMembers anyOf fun index => each (.anyOf index)
      · exact forall₂_reducedMembers oneOf fun index => each (.oneOf index)
      · exact forall₂_reducedMembers allOf fun index => each (.allOf index)

end Schema

end SchemaStream
