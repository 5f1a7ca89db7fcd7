import SchemaStream.Proofs.Schema.AugmentedDocuments

/-!
# What asks for a field

A property that asks for a quote gets it right behind it.  One that asks for reasoning gets the
field for it right before it, unless the object has that field for the reasoning about itself: the
two have the same name where a property is called like the slot that its object fills.
-/

namespace SchemaStream

namespace Schema

variable {schema child : Schema} {slot : Option String} {name prompt own : String}

/-- No property of a node is named like an auxiliary field. -/
def PlainlyNamed (schema : Schema) : Prop :=
  ∀ name ∈ Members.keys schema.properties, Auxiliary.isAuxiliary name = false

instance : DecidablePred PlainlyNamed := fun schema =>
  inferInstanceAs (Decidable (∀ name ∈ Members.keys schema.properties,
    Auxiliary.isAuxiliary name = false))

theorem PlainlyNamed.not_mem (plain : schema.PlainlyNamed)
    (auxiliary : Auxiliary.isAuxiliary name = true) : name ∉ Members.keys schema.properties :=
  fun mem => by simp [plain name mem] at auxiliary

/-- Only the field about the object itself can stand in the way of a reasoning field. -/
theorem PlainlyNamed.reasoningField_mem_takenNames_iff (plain : schema.PlainlyNamed) :
    Auxiliary.reasoningField name ∈ schema.takenNames slot ↔
      slot = some name ∧ ∃ own, schema.prompt? .reasoningPrompt = some own := by
  have fresh := plain.not_mem (Auxiliary.isAuxiliary_reasoningField name)
  rw [takenNames, Members.keys, List.map_append, List.mem_append]
  change _ ∨ Auxiliary.reasoningField name ∈ Members.keys schema.properties ↔ _
  rw [or_iff_left fresh, List.mem_map]
  constructor
  · rintro ⟨field, mem, same⟩
    obtain ⟨other, own, handed, asked, -, rfl⟩ :=
      selfReasoning?_eq_some_iff.1 (Option.mem_toList.1 mem)
    exact ⟨Auxiliary.reasoningField_inj.1 same ▸ handed, own, asked⟩
  · rintro ⟨handed, own, asked⟩
    exact ⟨_, Option.mem_toList.2
      (selfReasoning?_eq_some_iff.2 ⟨name, own, handed, asked, fresh, rfl⟩), rfl⟩

theorem PlainlyNamed.sourceField_not_mem_takenNames (plain : schema.PlainlyNamed) :
    Auxiliary.sourceField name ∉ schema.takenNames slot := by
  have fresh := plain.not_mem (Auxiliary.isAuxiliary_sourceField name)
  intro mem
  obtain ⟨field, below, same⟩ := List.mem_map.1 mem
  rcases List.mem_append.1 below with self | own
  · obtain ⟨other, prompt, -, -, -, rfl⟩ :=
      selfReasoning?_eq_some_iff.1 (Option.mem_toList.1 self)
    exact Auxiliary.reasoningField_ne_sourceField other name same
  · exact fresh (same ▸ List.mem_map_of_mem own)

section

variable (plain : schema.PlainlyNamed) (describes : schema.describesObject = true)
  (mem : (name, child) ∈ schema.properties)
include plain describes mem

theorem infix_of_wantsSourceQuote (leaf : child.isLeaf = true)
    (asked : child.wantsSourceQuote = true) (slot : Option String) :
    ∃ after, [(name, after), (Auxiliary.sourceField name, textField (quoteDescription name))] <:+:
      schema.augmentedProperties slot := by
  have found : trailing? (schema.takenNames slot) (name, child) =
      some (Auxiliary.sourceField name, textField (quoteDescription name)) :=
    trailing?_eq_some_iff.2 ⟨plain name (List.mem_map_of_mem mem),
      plain.sourceField_not_mem_takenNames, asked, leaf, rfl⟩
  have block := placed_infix_augmentedProperties slot describes mem
  rw [placed, found, List.append_assoc] at block
  exact ⟨_, (List.suffix_append _ _).isInfix.trans block⟩

theorem infix_of_reasoningPrompt? (asked : child.reasoningPrompt? = some prompt)
    (free : Auxiliary.reasoningField name ∉ schema.takenNames slot) :
    ∃ after, [(Auxiliary.reasoningField name, textField prompt), (name, after)] <:+:
      schema.augmentedProperties slot := by
  have found : leading? (schema.takenNames slot) (name, child) =
      some (Auxiliary.reasoningField name, textField prompt) :=
    leading?_eq_some_iff.2 ⟨plain name (List.mem_map_of_mem mem), free, prompt, asked, rfl⟩
  have block := placed_infix_augmentedProperties slot describes mem
  rw [placed, found] at block
  exact ⟨_, (List.prefix_append _ _).isInfix.trans block⟩

end

/-- Nothing is put before the first property if the field for its reasoning is there. -/
theorem head?_keys_augmentProperties {existing : List String}
    (properties : List (String × Schema)) (plain : Auxiliary.isAuxiliary name = false)
    (taken : Auxiliary.reasoningField name ∈ existing) :
    (Members.keys (augmentProperties existing properties)).head? = some name ↔
      (Members.keys properties).head? = some name := by
  rw [augmentProperties_eq_flatMap_placed]
  cases properties with
  | nil => rfl
  | cons first rest =>
      have own : (Members.keys (first :: rest)).head? = some first.1 := rfl
      rw [own, List.flatMap_cons, Members.keys, List.map_append, placed]
      cases found : leading? existing first with
      | none => rfl
      | some sibling =>
          obtain ⟨-, free, prompt, -, rfl⟩ := leading?_eq_some_iff.1 found
          simp only [Option.toList_some, List.map_append, List.map_cons, List.map_nil,
            List.cons_append, List.head?_cons, Option.some.injEq]
          constructor
          · rintro rfl
            simp [Auxiliary.isAuxiliary_reasoningField] at plain
          · rintro rfl
            exact absurd taken free

/-- A property that asks for reasoning has the field for it right before it, unless the object has
this field for the reasoning about itself. -/
theorem infix_augmentedProperties_iff (named : schema.Named) (plain : schema.PlainlyNamed)
    (describes : schema.describesObject = true) (mem : (name, child) ∈ schema.properties)
    (asked : child.reasoningPrompt? = some prompt) :
    (∃ field after, [(Auxiliary.reasoningField name, field), (name, after)] <:+:
        schema.augmentedProperties slot ∧ field.description = some prompt) ↔
      (slot = some name → ∀ own, schema.prompt? .reasoningPrompt = some own →
        own = prompt ∧ (Members.keys schema.properties).head? = some name) := by
  by_cases taken : Auxiliary.reasoningField name ∈ schema.takenNames slot
  · obtain ⟨handed, own, about⟩ := plain.reasoningField_mem_takenNames_iff.1 taken
    have self : schema.selfReasoning? slot =
        some (Auxiliary.reasoningField name, textField own) :=
      selfReasoning?_eq_some_iff.2 ⟨name, own, handed, about,
        plain.not_mem (Auxiliary.isAuxiliary_reasoningField name), rfl⟩
    have first := head?_keys_augmentProperties schema.properties
      (plain name (List.mem_map_of_mem mem)) taken
    have distinct := nodup_keys_augmentedProperties named slot
    rw [augmentedProperties_of_describes slot describes, self] at distinct ⊢
    rw [← first]
    generalize augmentProperties (schema.takenNames slot) schema.properties = others at distinct ⊢
    have alone := (List.nodup_cons.1 distinct).1
    constructor
    · rintro ⟨field, after, beside, described⟩ - own' about'
      cases about.symm.trans about'
      rcases List.infix_cons_iff.1 beside with start | inside
      · obtain ⟨same, next⟩ := List.cons_prefix_cons.1 start
        cases same
        obtain ⟨more, rfl⟩ := next
        exact ⟨Option.some.inj described, rfl⟩
      · exact absurd (List.mem_map.2 ⟨_, inside.subset List.mem_cons_self, rfl⟩) alone
    · intro both
      obtain ⟨rfl, front⟩ := both handed own about
      cases others with
      | nil => cases front
      | cons property more =>
          obtain ⟨key, after⟩ := property
          cases front
          exact ⟨_, after, ⟨[], more, rfl⟩, rfl⟩
  · refine iff_of_true ?_ fun handed own about =>
      absurd (plain.reasoningField_mem_takenNames_iff.2 ⟨handed, own, about⟩) taken
    obtain ⟨after, beside⟩ := infix_of_reasoningPrompt? plain describes mem asked taken
    exact ⟨_, after, beside, rfl⟩

end Schema

namespace Document

open Schema (PlainlyNamed)

variable {document : Document}

/-- Each property of an object that augmentation comes to has the fields that it asks for, save
that an object has only one field for the reasoning about itself and about a property that is
called like its slot. -/
theorem asked_fields_are_placed_iff (named : document.Holds Schema.Named)
    (plain : document.Everywhere PlainlyNamed) {path : List Slot} {slot : Option String}
    {node : Schema} (visited : document.schema.visit? (some Schema.rootSlot) path =
      some (slot, node)) (describes : node.describesObject = true)
    {name : String} {child : Schema} (mem : (name, child) ∈ node.properties) :
    ∃ result, document.augment.schema.at? path = some result ∧
      (∀ prompt, child.reasoningPrompt? = some prompt →
        ((∃ field after, [(Auxiliary.reasoningField name, field), (name, after)] <:+:
            result.properties ∧ field.description = some prompt) ↔
          (slot = some name → ∀ own, node.prompt? .reasoningPrompt = some own →
            own = prompt ∧ (Members.keys node.properties).head? = some name))) ∧
      (child.isLeaf = true → child.wantsSourceQuote = true →
        ∃ after quote, [(name, after), (Auxiliary.sourceField name, quote)] <:+:
          result.properties) := by
  have found := Schema.at?_of_visit? visited
  obtain ⟨distinct, -⟩ := Schema.everywhere_iff.1 ((named.schema Schema.lasting_named).at? found)
  obtain ⟨plainly, -⟩ := Schema.everywhere_iff.1 (plain.schema.at? found)
  obtain ⟨result, there, made⟩ := Schema.exists_at?_of_visit? (.inl rfl) visited
  rw [schema_augment named.named]
  refine ⟨result, there, fun prompt asked => ?_, fun leaf asked => ?_⟩
  · rw [made.properties_eq]
    exact Schema.infix_augmentedProperties_iff distinct plainly describes mem asked
  · rw [made.properties_eq]
    obtain ⟨after, beside⟩ :=
      Schema.infix_of_wantsSourceQuote plainly describes mem leaf asked slot
    exact ⟨after, _, beside⟩

/-- A line that asks for reasoning about itself, and about its amount, which is to be quoted. -/
def lineNode : Schema where
  types := [.object]
  properties :=
    [("amount",
      { types := [.number]
        extensions :=
          [("X-ReasoningPrompt", .string "Show the sum."), ("X-SourceQuote", .bool true)] })]
  required := ["amount"]
  extensions := [("X-ReasoningPrompt", .string "Why this line?")]

def linesDocument : Document where
  root := .apart
    { types := [.object]
      properties := [("lines", { types := [.array], items := some lineNode })] }

theorem asked_fields_of_line_are_placed :
    linesDocument.Holds Schema.Named ∧ linesDocument.Everywhere PlainlyNamed ∧
      linesDocument.schema.visit? (some Schema.rootSlot) [.property "lines", .items] =
        some (some Schema.itemSlot, lineNode) ∧
      lineNode.describesObject = true ∧
      ∃ result, linesDocument.augment.schema.at? [.property "lines", .items] = some result ∧
        (∃ field after, [("reasoning___amount", field), ("amount", after)] <:+:
          result.properties ∧ field.description = some "Show the sum.") ∧
        ∃ after quote, [("amount", after), ("source___amount", quote)] <:+: result.properties := by
  have named : linesDocument.Holds Schema.Named := by
    refine ⟨?_, by decide⟩
    rintro _ ⟨⟩
    decide
  have plain : linesDocument.Everywhere PlainlyNamed := ⟨by decide, by decide⟩
  have visited : linesDocument.schema.visit? (some Schema.rootSlot) [.property "lines", .items] =
      some (some Schema.itemSlot, lineNode) := rfl
  obtain ⟨result, there, reasons, quotes⟩ :=
    asked_fields_are_placed_iff named plain visited rfl List.mem_cons_self
  refine ⟨named, plain, visited, rfl, result, there, (reasons _ rfl).2 ?_, quotes rfl rfl⟩
  intro same
  exact absurd same (by decide)

/-- A property that is called like the slot of its object, where both ask for reasoning. -/
def rootedJson : Json :=
  .object
    [("type", .string "object"), ("X-ReasoningPrompt", .string "overall"),
      ("properties", .object
        [("root", .object
          [("type", .string "string"), ("X-ReasoningPrompt", .string "why this root?")])])]

def rooted : Document where
  root := .apart
    { types := [.object]
      properties :=
        [("root",
          { types := [.string]
            extensions := [("X-ReasoningPrompt", .string "why this root?")] })]
      extensions := [("X-ReasoningPrompt", .string "overall")] }

theorem ofJson_rooted : ofJson rootedJson = .ok rooted := rfl

/-- The field about the object itself stands in the way of the one about such a property. -/
theorem not_every_asked_field_is_placed :
    ¬ ∀ (raw : Json) (document : Document), raw.distinct = true → ofJson raw = .ok document →
      document.Everywhere PlainlyNamed → ∀ (path : List Slot) (slot : Option String)
        (node : Schema),
      document.schema.visit? (some Schema.rootSlot) path = some (slot, node) →
      node.describesObject = true → ∀ (name : String) (child : Schema),
      (name, child) ∈ node.properties → ∀ prompt, child.reasoningPrompt? = some prompt →
      ∃ result field after, document.augment.schema.at? path = some result ∧
        [(Auxiliary.reasoningField name, field), (name, after)] <:+: result.properties ∧
        field.description = some prompt := by
  intro claim
  obtain ⟨result, field, after, there, beside, described⟩ := claim rootedJson rooted (by decide)
    ofJson_rooted ⟨by decide, by decide⟩ [] _ _ rfl rfl "root" _ List.mem_cons_self
    "why this root?" rfl
  cases there
  rcases List.mem_cons.1 (beside.subset List.mem_cons_self) with same | other
  · cases same
    exact absurd described (by decide)
  · rcases List.mem_cons.1 other with same | none
    · have other : Auxiliary.reasoningField "root" ≠ "root" := by decide
      exact absurd (congrArg Prod.fst same) other
    · exact List.not_mem_nil none

end Document

end SchemaStream
