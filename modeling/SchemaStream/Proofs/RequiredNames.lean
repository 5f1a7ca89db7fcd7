import SchemaStream.Proofs.Schema.AugmentedDocuments

/-!
# Names that are required once

What is read requires no name twice, and expansion keeps it so.  Augmentation decides by the
properties of an object which fields to add, and puts the names of the added ones into what is
required without looking there.  So a name comes to be required twice just if it was required
before without being the name of a property.
-/

namespace SchemaStream

namespace Schema

variable {schema child : Schema} {slot : Option String}

def RequiresOnce (schema : Schema) : Prop := schema.required.Nodup

instance : DecidablePred RequiresOnce := fun schema =>
  inferInstanceAs (Decidable schema.required.Nodup)

/-- No name that augmentation adds to what an object requires is required already. -/
def AddsApart (slot : Option String) (schema : Schema) : Prop :=
  schema.describesObject = true → ∀ name ∈ schema.addedRequired slot, name ∉ schema.required

theorem requiresOnce_augmentNode_iff (named : schema.Named) (slot : Option String) :
    (schema.augmentNode slot).RequiresOnce ↔ schema.RequiresOnce ∧ schema.AddsApart slot := by
  rw [RequiresOnce, RequiresOnce, AddsApart, augmentNode_eq]
  by_cases describes : schema.describesObject = true
  · exact (nodup_augmentedRequired_iff named slot describes).trans (by simp [describes])
  · rw [augmentedRequired, if_neg describes]
    simp [describes]

theorem requiresOnce_of_augments {result : Schema} (placed : Augments slot schema result) :
    result.RequiresOnce ↔ (schema.augmentNode slot).RequiresOnce := by
  rcases placed with rfl | rfl <;> rfl

/-- A child of an augmented node is an added field, a child that the node had, or what augmentation
makes of one. -/
theorem exists_of_mem_children_augmentNode (named : schema.Named)
    (mem : child ∈ (schema.augmentNode slot).children) :
    (∃ description, child = textField description) ∨ child ∈ schema.children ∨
      ∃ step own next, schema.child? step = some own ∧ schema.handed? slot step = some next ∧
        Augments next own child := by
  rw [augmentNode_eq] at mem
  have members {members : List Schema} (place : Nat → Slot)
      (at_ : ∀ index, schema.child? (place index) = members[index]?)
      (goes : ∀ index, schema.handed? slot (place index) = some (schema.memberSlot slot))
      (mem : child ∈ members.map (augmentNode (schema.memberSlot slot))) :
      ∃ step own next, schema.child? step = some own ∧ schema.handed? slot step = some next ∧
        Augments next own child := by
    obtain ⟨own, below, rfl⟩ := List.mem_map.1 mem
    obtain ⟨index, found⟩ := List.getElem?_of_mem below
    exact ⟨place index, own, _, (at_ index).trans found, goes index, .inl rfl⟩
  rcases mem_children_iff.1 mem with mem | mem | mem | mem | mem
  · obtain ⟨property, below, rfl⟩ := List.mem_map.1 mem
    by_cases describes : schema.describesObject = true
    · rcases List.mem_append.1 (augmentedProperties_of_describes slot describes ▸ below) with
        self | beside
      · obtain ⟨description, text⟩ := (added_of_selfReasoning? (Option.mem_toList.1 self)).text
        exact .inl ⟨description, text⟩
      · rcases mem_augmentProperties beside with added | ⟨own, there, rfl⟩
        · obtain ⟨description, text⟩ := added.text
          exact .inl ⟨description, text⟩
        · refine .inr (.inr ⟨.property own.1, own.2, none, ?_, ?_, ?_⟩)
          · exact Members.get?_eq_some_of_mem named there
          · rw [handed?, if_pos describes]
          · exact augments_augmentedProperty own
    · rw [augmentedProperties, if_neg describes] at below
      exact .inr (.inl (mem_children_of_properties below))
  · obtain ⟨own, found, placed⟩ := exists_of_augmentItems mem
    exact .inr (.inr ⟨.items, own, _, found, rfl, placed⟩)
  · exact .inr (.inr (members .anyOf (fun _ => rfl) (fun _ => rfl) mem))
  · exact .inr (.inr (members .oneOf (fun _ => rfl) (fun _ => rfl) mem))
  · exact .inr (.inl (mem_children_of_allOf mem))

/-- If the nodes that augmentation comes to have their new names added apart, all nodes require
each name once. -/
theorem everywhere_requiresOnce_augmentNode (named : schema.Everywhere Named)
    (once : schema.Everywhere RequiresOnce)
    (apart : ∀ path next node, schema.visit? slot path = some (next, node) →
      node.AddsApart next) :
    (schema.augmentNode slot).Everywhere RequiresOnce := by
  induction schema using Schema.induct generalizing slot with
  | node schema ih =>
      obtain ⟨ownNamed, childrenNamed⟩ := everywhere_iff.1 named
      obtain ⟨ownOnce, childrenOnce⟩ := everywhere_iff.1 once
      refine everywhere_iff.2 ⟨?_, fun child mem => ?_⟩
      · exact (requiresOnce_augmentNode_iff ownNamed slot).2 ⟨ownOnce, apart [] _ _ rfl⟩
      · rcases exists_of_mem_children_augmentNode ownNamed mem with
          ⟨description, rfl⟩ | stays | ⟨step, own, next, found, goes, placed⟩
        · exact everywhere_iff.2 ⟨List.nodup_nil, List.forall_mem_nil _⟩
        · exact childrenOnce child stays
        · have below := mem_children_of_child? found
          have apartBelow (path : List Slot) (last : Option String) (node : Schema)
              (visited : own.visit? next path = some (last, node)) : node.AddsApart last :=
            apart (step :: path) last node (by simp [visit?, goes, found, visited])
          have augmented := ih own below (childrenNamed own below) (childrenOnce own below)
            apartBelow
          rcases placed with rfl | rfl
          · exact augmented
          · obtain ⟨once, others⟩ := everywhere_iff.1 augmented
            exact everywhere_iff.2 ⟨once, others⟩

theorem addsApart_of_visit? {path : List Slot} {next : Option String} {node : Schema}
    (named : schema.Everywhere Named)
    (once : (schema.augmentNode slot).Everywhere RequiresOnce)
    (visited : schema.visit? slot path = some (next, node)) : node.AddsApart next := by
  obtain ⟨after, there, placed⟩ := exists_at?_of_visit? (.inl rfl) visited
  have own := (everywhere_iff.1 (named.at? (at?_of_visit? visited))).1
  have result := (everywhere_iff.1 (once.at? there)).1
  exact ((requiresOnce_augmentNode_iff own next).1 ((requiresOnce_of_augments placed).1 result)).2

/-- A node that requires added fields only if it has them gets them once. -/
theorem RequiresOwn.addsApart (owns : schema.RequiresOwn) (slot : Option String) :
    schema.AddsApart slot := fun _ name mem required =>
  (mem_addedRequired mem).2 (owns name required (mem_addedRequired mem).1)

theorem augmentable_requiresOwn : Augmentable RequiresOwn RequiresOwn where
  stays own := own
  added _ := nofun
  augmented := by
    intro schema slot owns name mem auxiliary
    rw [augmentNode_eq] at mem ⊢
    have stays (own : name ∈ schema.required) :
        name ∈ Members.keys (schema.augmentedProperties slot) := by
      have kept := owns name own auxiliary
      rw [← filter_keys_augmentedProperties slot schema] at kept
      exact (List.mem_filter.1 kept).1
    by_cases describes : schema.describesObject = true
    · rw [(augmentedRequired_perm slot describes).mem_iff, List.mem_append] at mem
      exact mem.elim (mem_keys_augmentedProperties_of_addedRequired describes) stays
    · rw [augmentedRequired, if_neg describes] at mem
      exact stays mem
  withoutMarker own := own

end Schema

namespace Expansion

theorem keeps_requiresOnce : Keeps Schema.RequiresOnce where
  overlaid own _ := own
  placed _ own _ := own
  folded own _ := Schema.nodup_addRequired own _

theorem keeps_requiresOwn : Keeps Schema.RequiresOwn where
  overlaid own _ := own
  placed parts own names := by
    intro name mem auxiliary
    change name ∈ Members.keys parts.properties
    rw [names]
    exact own name mem auxiliary
  folded own member := by
    intro name mem auxiliary
    exact Members.mem_keys_insertAllNew.2 ((Schema.mem_of_mem_addRequired mem).imp
      (fun mem => own name mem auxiliary) fun mem => member name mem auxiliary)

end Expansion

namespace Document

variable {start document result : Document}

/-- What a document becomes when it is expanded and augmented any number of times, in any order. -/
inductive Passes (start : Document) : Document → Prop
  | start : Passes start start
  | expanded {document result : Document} (passes : Passes start document)
      (expands : document.expand = .ok result) : Passes start result
  | augmented {document : Document} (passes : Passes start document) :
      Passes start document.augment

/-- In no node that augmentation comes to is a name required already that it adds there to what is
required. -/
def AddsApart (document : Document) : Prop :=
  ∀ path slot node, document.schema.visit? (some Schema.rootSlot) path = some (slot, node) →
    node.AddsApart slot

theorem Passes.sound (passes : start.Passes document) (sound : start.Sound)
    (root : start.root = .apart start.schema) :
    document.Sound ∧ document.root = .apart document.schema := by
  induction passes with
  | start => exact ⟨sound, root⟩
  | expanded _ expands ih =>
      obtain ⟨sound, root⟩ := ih
      exact ⟨sound.expand expands, (expanded_of_expand root sound.distinct expands).1.root⟩
  | augmented _ ih =>
      obtain ⟨sound, root⟩ := ih
      refine ⟨sound.augment, ?_⟩
      rw [augment_of_apart root]
      rfl

theorem Passes.everywhere {P : Schema → Prop} (keeps : Expansion.Keeps P)
    (augments : ∀ document, start.Passes document → document.Everywhere P →
      (document.schema.augmentNode (some Schema.rootSlot)).Everywhere P)
    (sound : start.Sound) (root : start.root = .apart start.schema)
    (begins : start.Everywhere P) (passes : start.Passes document) : document.Everywhere P := by
  induction passes with
  | start => exact begins
  | expanded passes expands ih => exact ih.expand keeps (passes.sound sound root).2 expands
  | augmented passes ih =>
      rw [augment_of_apart (passes.sound sound root).2]
      exact ⟨augments _ passes ih, ih.definitions⟩

/-- All that a document becomes requires each name once if and only if no augmentation on the way
adds to what is required a name that is there already.  That is so if at the start auxiliary names
are required only of nodes that have properties of these names. -/
theorem names_stay_required_once_iff {raw : Json} (distinct : raw.distinct = true)
    (read : ofJson raw = .ok start) :
    ((∀ document, start.Passes document → document.Everywhere Schema.RequiresOnce) ↔
        ∀ document, start.Passes document → document.AddsApart) ∧
      (start.Everywhere Schema.RequiresOwn →
        ∀ document, start.Passes document → document.Everywhere Schema.RequiresOnce) := by
  have sound := sound_of_ofJson distinct read
  have root := root_eq_apart read
  have named {document : Document} (passes : start.Passes document) :
      document.schema.Everywhere Schema.Named :=
    (passes.sound sound root).1.named.schema Schema.lasting_named
  have begins : start.Everywhere Schema.RequiresOnce := by
    have tidy := everywhere_of_ofJson Schema.preserved_tidy trivial read
    exact ⟨tidy.schema.imp fun _ => Schema.Tidy.required,
      fun definition mem => (tidy.definitions definition mem).imp fun _ => Schema.Tidy.required⟩
  have stays (apart : ∀ document, start.Passes document → document.AddsApart)
      (document : Document) (passes : start.Passes document) :
      document.Everywhere Schema.RequiresOnce :=
    passes.everywhere Expansion.keeps_requiresOnce
      (fun document passes once => Schema.everywhere_requiresOnce_augmentNode (named passes)
        once.schema (apart document passes)) sound root begins
  refine ⟨⟨fun once document passes path slot node visited => ?_, stays⟩, fun owns => stays ?_⟩
  · have augmented := (once _ passes.augmented).schema
    rw [augment_of_apart (passes.sound sound root).2] at augmented
    exact Schema.addsApart_of_visit? (named passes) augmented visited
  · intro document passes path slot node visited
    have everywhere := passes.everywhere Expansion.keeps_requiresOwn
      (fun _ _ own => Schema.augmentable_requiresOwn.augmentNode own.schema _) sound root owns
    have own := everywhere.schema.at? (Schema.at?_of_visit? visited)
    exact (Schema.everywhere_iff.1 own).1.addsApart slot

/-- An invoice that requires its total and the reasoning behind it, both of which it has. -/
def invoiceJson : Json :=
  .object
    [("type", .string "object"),
      ("properties", .object
        [("reasoning___total", .object [("type", .string "string")]),
          ("total", .object
            [("type", .string "number"), ("X-ReasoningPrompt", .string "Add up the lines."),
              ("X-SourceQuote", .bool true)])]),
      ("required", .strings ["reasoning___total", "total"])]

def invoice : Document where
  root := .apart
    { types := [.object]
      properties :=
        [("reasoning___total", { types := [.string] }),
          ("total",
            { types := [.number]
              extensions :=
                [("X-ReasoningPrompt", .string "Add up the lines."),
                  ("X-SourceQuote", .bool true)] })]
      required := ["reasoning___total", "total"] }

theorem names_of_invoice_stay_required_once :
    invoiceJson.distinct = true ∧ ofJson invoiceJson = .ok invoice ∧
      ∀ document, invoice.Passes document → document.Everywhere Schema.RequiresOnce := by
  have distinct : invoiceJson.distinct = true := by decide
  have read : ofJson invoiceJson = .ok invoice := rfl
  exact ⟨distinct, read,
    (names_stay_required_once_iff distinct read).2 ⟨by decide, List.forall_mem_nil _⟩⟩

/-- The invoice without the property for the reasoning, which it still requires. -/
def bareInvoiceJson : Json :=
  .object
    [("type", .string "object"),
      ("properties", .object
        [("total", .object
            [("type", .string "number"), ("X-ReasoningPrompt", .string "Add up the lines.")])]),
      ("required", .strings ["reasoning___total", "total"])]

def bareInvoice : Document where
  root := .apart
    { types := [.object]
      properties :=
        [("total",
            { types := [.number]
              extensions := [("X-ReasoningPrompt", .string "Add up the lines.")] })]
      required := ["reasoning___total", "total"] }

theorem not_always_names_stay_required_once :
    ¬ ∀ (raw : Json) (start document : Document), raw.distinct = true → ofJson raw = .ok start →
      start.Passes document → document.Everywhere Schema.RequiresOnce := by
  intro always
  have once := always bareInvoiceJson bareInvoice bareInvoice.augment (by decide) rfl
    (.augmented .start)
  have root : bareInvoice.augment.schema.RequiresOnce := (Schema.everywhere_iff.1 once.schema).1
  have required : bareInvoice.augment.schema.required =
      ["reasoning___total", "reasoning___total", "total"] := rfl
  rw [Schema.RequiresOnce, required] at root
  exact absurd root (by decide)

end Document

end SchemaStream
