import SchemaStream.Proofs.Completeness

/-!
# Quote markers that are left

Augmentation takes the quote marker off a named property, and off an item if the item is a leaf.
The root, the members of unions and the items that are no leaves keep theirs.  So the markers of an
augmented document are those that stood at such places, and all of these.
-/

namespace SchemaStream

namespace Schema

variable {schema own after node : Schema} {slot next handed : Option String} {step : Slot}
  {last : Option Slot} {path : List Slot} {name : String} {value : Json}

/-- A node whose quote marker is not taken off where it stands: at the last step of a path, or at
the root. -/
def keepsQuote (schema : Schema) : Option Slot → Bool
  | none | some (.anyOf _) | some (.oneOf _) | some (.allOf _) => true
  | some (.property _) => false
  | some .items => !schema.isLeaf

/-- What augmentation makes of a node that stands at the last step of a path. -/
def augmentAt (last : Option Slot) (slot : Option String) (schema : Schema) : Schema :=
  if schema.keepsQuote last then schema.augmentNode slot
  else (schema.augmentNode slot).withoutMarker .sourceQuote

theorem augments_augmentAt (last : Option Slot) (slot : Option String) (schema : Schema) :
    Augments slot schema (schema.augmentAt last slot) := by
  rw [augmentAt]
  split
  · exact .inl rfl
  · exact .inr rfl

theorem quote_augmentAt_eq_some_iff :
    (schema.augmentAt last slot).marker? .sourceQuote = some value ↔
      schema.marker? .sourceQuote = some value ∧ schema.keepsQuote last = true := by
  have extensions : (schema.augmentNode slot).extensions = schema.extensions := by
    rw [augmentNode_eq]
  rw [augmentAt, marker?, marker?]
  split
  · next keeps => rw [extensions, and_iff_left keeps]
  · next taken =>
      rw [withoutMarker, Members.get?_erase, if_pos rfl]
      exact iff_of_false (Option.some_ne_none value).symm fun both => taken both.2

/-- Augmentation goes on from an augmented node as it does from the node itself. -/
theorem handed?_augmentAt (last : Option Slot) (slot : Option String) (schema : Schema)
    (step : Slot) : (schema.augmentAt last slot).handed? slot step = schema.handed? slot step := by
  have members : (schema.augmentAt last slot).memberSlot slot = schema.memberSlot slot := by
    rw [augmentAt]
    split
    · exact memberSlot_augmentNode slot schema
    · exact memberSlot_augmentNode slot schema
  have describes : (schema.augmentAt last slot).describesObject = schema.describesObject := by
    rw [augmentAt]
    split
    · exact describesObject_augmentNode slot schema
    · exact describesObject_augmentNode slot schema
  cases step with
  | property name => rw [handed?, handed?, describes]
  | items => rfl
  | anyOf index | oneOf index => rw [handed?, handed?, members]
  | allOf index => rfl

/-- What stands below an augmented node was there before, or is an added field. -/
theorem child?_augmentAt (plain : schema.PlainlyNamed)
    (goes : schema.handed? slot step = some next) (last : Option Slot) :
    (schema.augmentAt last slot).child? step =
        (schema.child? step).map (augmentAt (some step) next) ∨
      schema.child? step = none ∧
        ∃ description, (schema.augmentAt last slot).child? step = some (textField description) := by
  rw [(augments_augmentAt last slot schema).child?, augmentNode_eq]
  cases step with
  | property name =>
      rw [handed?, Option.ite_none_right_eq_some] at goes
      obtain ⟨describes, handed⟩ := goes
      cases handed
      cases own : Members.get? schema.properties name with
      | some child =>
          have mem : name ∈ Members.keys schema.properties :=
            Members.mem_keys_iff_exists_get?.2 ⟨child, own⟩
          have taken : (augmentedProperty (name, child)).2 =
              child.augmentAt (some (.property name)) none := by
            rw [augmentedProperty, plain name mem]
            rfl
          left
          rw [child?, child?, get?_augmentedProperties slot describes mem, own, Option.map_some,
            Option.map_some, taken]
      | none =>
          cases new : Members.get? (schema.augmentedProperties slot) name with
          | none => exact .inl (by rw [child?, child?, own, new, Option.map_none])
          | some field =>
              have absent : name ∉ Members.keys schema.properties := fun mem => by
                obtain ⟨child, there⟩ := Members.mem_keys_iff_exists_get?.1 mem
                rw [own] at there
                cases there
              obtain added | ⟨property, mem, same⟩ :=
                mem_augmentedProperties (Members.mem_of_get?_eq_some new)
              · obtain ⟨description, text⟩ := added.text
                exact .inr ⟨own, description, new.trans (congrArg some text)⟩
              · have called : name = property.1 := by
                  rcases same with same | same
                  · exact congrArg Prod.fst same
                  · exact congrArg Prod.fst same
                exact absurd (called ▸ List.mem_map_of_mem mem) absent
  | items =>
      cases goes
      left
      rw [child?, child?, augmentItems_eq_map]
      refine Option.map_congr fun item _ => ?_
      rw [augmentAt, keepsQuote]
      cases item.isLeaf <;> rfl
  | anyOf index =>
      cases goes
      exact .inl List.getElem?_map
  | oneOf index =>
      cases goes
      exact .inl List.getElem?_map
  | allOf index => cases goes

/-- Below an added field there is nothing to come to. -/
theorem visit?_textField {description : String}
    (visited : (textField description).visit? slot path = some (handed, node)) :
    node = textField description := by
  cases path with
  | nil =>
      cases visited
      rfl
  | cons step path =>
      have none : (textField description).child? step = none := by cases step <;> rfl
      rw [visit?, none] at visited
      cases found : (textField description).handed? slot step <;> rw [found] at visited <;>
        cases visited

/-- Where augmentation comes to in an augmented schema it came to before, save for the fields that
it added. -/
theorem visit?_augmentAt (plain : schema.Everywhere PlainlyNamed) (path : List Slot) :
    (schema.augmentAt last slot).visit? slot path =
        (schema.visit? slot path).map (fun visited =>
          (visited.1, visited.2.augmentAt (path.getLast?.or last) visited.1)) ∨
      schema.visit? slot path = none ∧ ∃ handed description,
        (schema.augmentAt last slot).visit? slot path = some (handed, textField description) := by
  -- whether a node keeps its marker is told by the step that leads to it, so that step is carried
  induction path generalizing schema slot last with
  | nil => exact .inl rfl
  | cons step path ih =>
      obtain ⟨own, below⟩ := everywhere_iff.1 plain
      have behind : (step :: path).getLast?.or last = path.getLast?.or (some step) := by
        rw [List.getLast?_cons]
        cases path.getLast? <;> rfl
      rw [visit?, visit?, handed?_augmentAt, behind]
      cases goes : schema.handed? slot step with
      | none => exact .inl rfl
      | some next =>
          rcases child?_augmentAt own goes last with kept | ⟨absent, description, new⟩
          · rw [kept]
            cases found : schema.child? step with
            | none => exact .inl rfl
            | some child => exact ih (below child (mem_children_of_child? found))
          · rw [absent, new]
            cases visited : (textField description).visit? next path with
            | none => exact .inl visited
            | some reached =>
                obtain ⟨handed, node⟩ := reached
                cases visit?_textField visited
                exact .inr ⟨rfl, handed, description, visited⟩

end Schema

namespace Document

open Schema (PlainlyNamed)

variable {document : Document}

/-- The quote markers of an augmented document are those of the root, of union members and of items
that are no leaves: each of these is left, and no other. -/
theorem left_quote_marker_iff (named : document.Holds Schema.Named)
    (plain : document.Everywhere PlainlyNamed) {path : List Slot} {value : Json} :
    (∃ handed node,
        document.augment.schema.visit? (some Schema.rootSlot) path = some (handed, node) ∧
          node.marker? .sourceQuote = some value) ↔
      ∃ handed own, document.schema.visit? (some Schema.rootSlot) path = some (handed, own) ∧
        own.marker? .sourceQuote = some value ∧ own.keepsQuote path.getLast? = true := by
  have root : document.augment.schema =
      document.schema.augmentAt none (some Schema.rootSlot) := schema_augment named.named
  rw [root]
  rcases Schema.visit?_augmentAt plain.schema path with kept | ⟨passed, handed, description, new⟩
  · rw [kept, Option.or_none]
    constructor
    · rintro ⟨handed, node, visited, marked⟩
      obtain ⟨⟨slot, own⟩, before, same⟩ := Option.map_eq_some_iff.1 visited
      cases same
      obtain ⟨asked, keeps⟩ := Schema.quote_augmentAt_eq_some_iff.1 marked
      exact ⟨slot, own, before, asked, keeps⟩
    · rintro ⟨handed, own, visited, asked, keeps⟩
      exact ⟨handed, _, by rw [visited, Option.map_some],
        Schema.quote_augmentAt_eq_some_iff.2 ⟨asked, keeps⟩⟩
  · constructor
    · rintro ⟨slot, node, visited, marked⟩
      cases new.symm.trans visited
      cases marked
    · rintro ⟨slot, own, visited, -⟩
      rw [passed] at visited
      cases visited

/-- Orders whose lines are to be quoted as a whole, and whose number is. -/
def ordersJson : Json :=
  .object
    [("type", .string "object"),
      ("properties", .object
        [("number", .object [("type", .string "string"), ("X-SourceQuote", .bool true)]),
          ("lines", .object
            [("type", .string "array"),
              ("items", .object
                [("type", .string "object"), ("X-SourceQuote", .bool true),
                  ("properties", .object
                    [("amount", .object [("type", .string "number")])])])])])]

def orderLine : Schema where
  types := [.object]
  properties := [("amount", { types := [.number] })]
  extensions := [("X-SourceQuote", .bool true)]

def orders : Document where
  root := .apart
    { types := [.object]
      properties :=
        [("number", { types := [.string], extensions := [("X-SourceQuote", .bool true)] }),
          ("lines", { types := [.array], items := some orderLine })] }

theorem ofJson_orders : ofJson ordersJson = .ok orders := rfl

theorem left_quote_marker_of_order_line :
    orders.Holds Schema.Named ∧ orders.Everywhere PlainlyNamed ∧
      (∃ handed node, orders.augment.schema.visit? (some Schema.rootSlot)
          [.property "lines", .items] = some (handed, node) ∧
        node.marker? .sourceQuote = some (.bool true)) ∧
      ¬ ∃ handed node, orders.augment.schema.visit? (some Schema.rootSlot)
          [.property "number"] = some (handed, node) ∧
        node.marker? .sourceQuote = some (.bool true) := by
  have named : orders.Holds Schema.Named := by
    refine ⟨?_, by decide⟩
    rintro _ ⟨⟩
    decide
  have plain : orders.Everywhere PlainlyNamed := ⟨by decide, by decide⟩
  refine ⟨named, plain, ?_, fun left => ?_⟩
  · exact (left_quote_marker_iff named plain).2
      ⟨some Schema.itemSlot, orderLine, rfl, rfl, by decide⟩
  · obtain ⟨handed, own, -, -, keeps⟩ := (left_quote_marker_iff named plain).1 left
    cases keeps

/-- An item that is no leaf keeps its marker. -/
theorem not_every_quote_marker_is_used_up :
    ¬ ∀ (raw : Json) (document : Document), raw.distinct = true → ofJson raw = .ok document →
      document.Everywhere PlainlyNamed → ∀ (path : List Slot) (handed : Option String)
        (node : Schema),
      document.augment.schema.visit? (some Schema.rootSlot) path = some (handed, node) →
      node.marker? .sourceQuote = none := by
  intro claim
  have used := claim ordersJson orders (by decide) ofJson_orders ⟨by decide, by decide⟩
    [.property "lines", .items] _ _ rfl
  cases used

end Document

end SchemaStream
