import SchemaStream.Proofs.Schema.Sound

/-!
# Augmented documents

Wherever the root of a document stands, augmentation makes the same of it.  If the root is a node
of a definition, or stands beside one, the definition has grown with it.
-/

namespace SchemaStream

namespace Schema

variable {schema source : Schema} {slot : Slot} {slots : List Slot}

/-! ## Changing a node twice -/

theorem modifyChild_congr {first second : Schema → Schema}
    (same : ∀ child ∈ schema.children, first child = second child) (slot : Slot) :
    schema.modifyChild slot first = schema.modifyChild slot second := by
  have list {children : List Schema} (same : ∀ child ∈ children, first child = second child)
      (index : Nat) : children.modify index first = children.modify index second := by
    refine List.ext_getElem? fun position => ?_
    rw [List.getElem?_modify, List.getElem?_modify]
    refine Option.map_congr fun child found => ?_
    rw [same child (List.mem_of_getElem? found)]
  cases slot with
  | property name =>
      rw [modifyChild, modifyChild]
      congr 1
      exact List.map_congr_left fun property mem => by
        rw [same property.2 (mem_children_of_properties mem)]
  | items =>
      rw [modifyChild, modifyChild,
        Option.map_congr fun child found => same child (mem_children_of_items found)]
  | anyOf index =>
      rw [modifyChild, modifyChild, list fun child mem => same child (mem_children_of_anyOf mem)]
  | oneOf index =>
      rw [modifyChild, modifyChild, list fun child mem => same child (mem_children_of_oneOf mem)]
  | allOf index =>
      rw [modifyChild, modifyChild, list fun child mem => same child (mem_children_of_allOf mem)]

theorem modify_congr {P : Schema → Prop} {first second : Schema → Schema}
    (everywhere : schema.Everywhere P)
    (same : ∀ node : Schema, P node → first node = second node) (path : List Slot) :
    schema.modify path first = schema.modify path second := by
  induction path generalizing schema with
  | nil => exact same schema (everywhere_iff.1 everywhere).1
  | cons slot path ih =>
      exact modifyChild_congr (fun child mem => ih ((everywhere_iff.1 everywhere).2 child mem)) slot

theorem modifyChild_modifyChild (schema : Schema) (slot : Slot) (first second : Schema → Schema) :
    (schema.modifyChild slot first).modifyChild slot second =
      schema.modifyChild slot fun child => second (first child) := by
  cases slot with
  | property name =>
      simp only [modifyChild, List.map_map]
      congr 1
      refine List.map_congr_left fun property _ => ?_
      by_cases here : property.1 = name <;> simp [here]
  | _ => simp [modifyChild, List.modify_modify_eq, Function.comp_def]

theorem modify_modify (schema : Schema) (path : List Slot) (first second : Schema → Schema) :
    (schema.modify path first).modify path second =
      schema.modify path fun node => second (first node) := by
  induction path generalizing schema with
  | nil => rfl
  | cons slot path ih =>
      simp only [modify, modifyChild_modifyChild, ih]

/-! ## Children that a node has already -/

theorem modifyChild_eq_self {change : Schema → Schema} (named : schema.Named)
    (same : ∀ child, schema.child? slot = some child → change child = child) :
    schema.modifyChild slot change = schema := by
  have option {found : Option Schema} (same : ∀ child, found = some child → change child = child) :
      found.map change = found := by
    cases found with
    | none => rfl
    | some child => exact congrArg some (same child rfl)
  have list {children : List Schema} {index : Nat}
      (same : ∀ child, children[index]? = some child → change child = child) :
      children.modify index change = children := by
    refine List.ext_getElem? fun position => ?_
    rw [List.getElem?_modify]
    split
    · next here => exact option (here ▸ same)
    · exact congrFun Option.map_id _
  obtain ⟨⟩ := schema
  cases slot with
  | property name =>
      simp only [modifyChild, mk.injEq, true_and, and_true]
      refine (List.map_congr_left fun property mem => ?_).trans (List.map_id' _)
      split
      · next here =>
          exact Prod.ext rfl (same property.2 (here ▸ Members.get?_eq_some_of_mem named mem))
      · rfl
  | items =>
      simp only [modifyChild, mk.injEq, true_and, and_true]
      exact option same
  | anyOf index | oneOf index | allOf index =>
      simp only [modifyChild, mk.injEq, true_and, and_true]
      exact list same

theorem withChildrenOf_eq_self (named : schema.Named)
    (same : ∀ slot ∈ slots, ∀ child after, schema.child? slot = some child →
      source.child? slot = some after → after = child) :
    schema.withChildrenOf source slots = schema := by
  induction slots with
  | nil => rfl
  | cons slot rest ih =>
      obtain ⟨first, others⟩ := List.forall_mem_cons.1 same
      have below := ih others
      rw [withChildrenOf] at below
      rw [withChildrenOf, List.foldl_cons]
      split
      · next after taken =>
          have own : schema.modifyChild slot (fun _ => after) = schema :=
            modifyChild_eq_self named fun child found => first child after found taken
          rw [own, below]
      · exact below

/-- Two nodes that have taken children from each other have them in common. -/
theorem withChildrenOf_withChildrenOf (named : schema.Named) (source : Schema)
    (slots : List Slot) :
    schema.withChildrenOf (source.withChildrenOf schema slots) slots = schema := by
  refine withChildrenOf_eq_self named fun slot mem child after found there => ?_
  rw [child?_withChildrenOf, if_pos mem, found, Option.map_eq_some_iff] at there
  obtain ⟨own, -, rfl⟩ := there
  rfl

theorem withChildrenOf_self (named : schema.Named) (source : Schema) (slots : List Slot) :
    (schema.withChildrenOf source slots).withChildrenOf source slots =
      schema.withChildrenOf source slots := by
  have after : (schema.withChildrenOf source slots).Named := by
    rw [Named, keys_withChildrenOf]
    exact named
  refine withChildrenOf_eq_self after fun slot mem child taken found there => ?_
  rw [child?_withChildrenOf, if_pos mem, there, Option.map_eq_some_iff] at found
  obtain ⟨own, -, rfl⟩ := found
  rfl

theorem child?_empty (slot : Slot) : child? {} slot = none := by
  cases slot <;> rfl

end Schema

namespace Document

variable {document : Document}

theorem augment_of_within {name : String} {path : List Slot}
    (root : document.root = .within name path) :
    document.augment = document.modifyDefinition name fun body =>
      body.modify path (Schema.augmentNode (some Schema.rootSlot)) := by
  simp only [augment, modifySchema, root]

theorem augment_of_beside {own : Schema} {name : String} {path slots : List Slot}
    (root : document.root = .beside own name path slots) :
    document.augment =
      let result := document.schema.augmentNode (some Schema.rootSlot)
      { document.modifyDefinition name fun body =>
          body.modify path fun node => node.withChildrenOf result slots with
        root := .beside result name path slots } := by
  simp only [augment, modifySchema, root]

/-- Wherever its root stands, the root of an augmented document is the augmented root. -/
theorem schema_augment (named : document.schema.Named) :
    document.augment.schema = document.schema.augmentNode (some Schema.rootSlot) := by
  cases root : document.root with
  | apart own => simp only [augment, modifySchema, schema, root]
  | within name path =>
      have changed := bind_at?_modifyDefinition document name path
        (Schema.augmentNode (some Schema.rootSlot))
      rw [augment_of_within root]
      simp only [schema, root, node, modifyDefinition] at changed ⊢
      rw [changed]
      cases (Members.get? document.definitions name).bind fun body => body.at? path <;> rfl
  | beside own name path slots =>
      have after : (document.schema.augmentNode (some Schema.rootSlot)).Named := by
        rw [Schema.Named, Schema.properties_augmentNode]
        exact Schema.nodup_keys_augmentedProperties named _
      rw [augment_of_beside root]
      generalize document.schema.augmentNode (some Schema.rootSlot) = result at after ⊢
      have changed := bind_at?_modifyDefinition document name path fun node =>
        node.withChildrenOf result slots
      simp only [schema, node, modifyDefinition] at changed ⊢
      rw [changed]
      cases (Members.get? document.definitions name).bind fun body => body.at? path with
      | none =>
          exact Schema.withChildrenOf_eq_self after fun slot _ child _ _ there => by
            rw [Option.map_none, Option.getD_none, Schema.child?_empty] at there
            cases there
      | some node => exact Schema.withChildrenOf_withChildrenOf after node slots

/-! ## Augmenting twice -/

theorem modifyDefinition_modifyDefinition (document : Document) (name : String)
    (first second : Schema → Schema) :
    (document.modifyDefinition name first).modifyDefinition name second =
      document.modifyDefinition name fun body => second (first body) := by
  simp only [modifyDefinition, List.map_map]
  congr 1
  refine List.map_congr_left fun entry _ => ?_
  by_cases here : entry.1 = name <;> simp [here]

theorem modifyDefinition_congr {first second : Schema → Schema}
    (same : ∀ entry ∈ document.definitions, first entry.2 = second entry.2) (name : String) :
    document.modifyDefinition name first = document.modifyDefinition name second := by
  rw [modifyDefinition, modifyDefinition]
  congr 1
  exact List.map_congr_left fun entry mem => by rw [same entry mem]

/-- Changing the node at a path of a definition a second time makes no difference if it makes none
for nodes whose properties are named once. -/
theorem modifyDefinition_again (named : document.Holds Schema.Named) (change : Schema → Schema)
    (again : ∀ node : Schema, node.Named → change (change node) = change node) (name : String)
    (path : List Slot) :
    (document.modifyDefinition name fun body => body.modify path change).modifyDefinition name
        (fun body => body.modify path change) =
      document.modifyDefinition name fun body => body.modify path change := by
  rw [modifyDefinition_modifyDefinition]
  refine modifyDefinition_congr (fun entry mem => ?_) name
  rw [Schema.modify_modify]
  exact Schema.modify_congr (named.definitions entry mem) again path

/-- Augmenting an augmented document changes nothing, wherever its root stands. -/
theorem augmentation_is_idempotent (named : document.Holds Schema.Named) :
    document.augment.augment = document.augment := by
  have own := named.named
  have again : document.augment.schema.augmentNode (some Schema.rootSlot) =
      document.schema.augmentNode (some Schema.rootSlot) := by
    rw [schema_augment own, Schema.augmentNode_augmentNode]
  cases root : document.root with
  | apart schema =>
      have same : document.schema = schema := by rw [Document.schema, root]
      exact augment_augment (same ▸ root)
  | within name path =>
      have after : document.augment.root = .within name path := by
        rw [augment_of_within root]
        exact root
      rw [augment_of_within after, augment_of_within root]
      exact modifyDefinition_again named _
        (fun node _ => Schema.augmentNode_augmentNode _ node) name path
  | beside schema name path slots =>
      have after : document.augment.root =
          .beside (document.schema.augmentNode (some Schema.rootSlot)) name path slots := by
        rw [augment_of_beside root]
      rw [augment_of_beside after, again, augment_of_beside root]
      generalize document.schema.augmentNode (some Schema.rootSlot) = result
      have definitions := modifyDefinition_again named
        (fun node => node.withChildrenOf result slots)
        (fun node distinct => Schema.withChildrenOf_self distinct result slots) name path
      exact congrArg (fun changed : Document =>
        { changed with root := .beside result name path slots }) definitions

/-- Points that ask for reasoning about each of them, and for a quote of its text. -/
def pointsNode : Schema where
  types := [.array]
  items := some
    { types := [.object]
      properties :=
        [("text", { types := [.string], extensions := [("X-SourceQuote", .bool true)] })]
      required := ["text"]
      extensions := [("X-ReasoningPrompt", .string "Why this point?")] }

/-- A report beside a node of a definition that has the same points. -/
def reportDocument : Document where
  root := .beside
    { types := [.object]
      properties :=
        [("title",
            { types := [.string]
              extensions := [("X-ReasoningPrompt", .string "Why this title?")] }),
          ("points", pointsNode)]
      required := ["title"]
      extensions := [("X-ReasoningPrompt", .string "Sum it up.")] }
    "Report" [.property "body"] [.property "points"]
  definitions :=
    [("Report",
      { types := [.object]
        properties :=
          [("body",
            { types := [.object]
              properties := [("title", { types := [.string] }), ("points", pointsNode)] })] })]

theorem holds_named_reportDocument : reportDocument.Holds Schema.Named := by
  refine ⟨?_, by decide⟩
  rintro _ ⟨⟩
  decide

theorem augmentation_of_report_is_idempotent :
    reportDocument.Holds Schema.Named ∧
      reportDocument.augment.augment = reportDocument.augment :=
  ⟨holds_named_reportDocument, augmentation_is_idempotent holds_named_reportDocument⟩

end Document

end SchemaStream
