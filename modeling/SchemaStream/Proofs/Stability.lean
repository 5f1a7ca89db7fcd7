import SchemaStream.Proofs.Preparation
import SchemaStream.Proofs.Schema.AugmentedAgain
import SchemaStream.Proofs.Schema.AddedFields
import SchemaStream.Proofs.Schema.Expanded

/-!
# Preparing what is prepared

A prepared document that is written and prepared again comes out as it was.  Each stage
recognises what it made: the document is read back, it has the same cycles, nothing is left
to expand, and the added fields are known by their names.
-/

namespace SchemaStream

namespace Schema

/-- A node that requires no field with an auxiliary name. -/
def RequiresPlain (schema : Schema) : Prop :=
  ∀ name ∈ schema.required, Auxiliary.isAuxiliary name = false

/-- A node that carries along nothing under the name of a table. -/
def Tableless (schema : Schema) : Prop :=
  ∀ table : TableKeyword, table.name ∉ Members.keys schema.keywords

theorem tableless_iff {schema : Schema} :
    schema.Tableless ↔ TableKeyword.definitions.name ∉ Members.keys schema.keywords ∧
      TableKeyword.defs.name ∉ Members.keys schema.keywords := by
  refine ⟨fun tableless => ⟨tableless .definitions, tableless .defs⟩, ?_⟩
  rintro ⟨first, second⟩ (_ | _)
  · exact first
  · exact second

instance : DecidablePred RequiresPlain := fun schema =>
  inferInstanceAs (Decidable (∀ name ∈ schema.required, Auxiliary.isAuxiliary name = false))

instance : DecidablePred Tableless := fun _ => decidable_of_iff _ tableless_iff.symm

/-! ## What expansion and augmentation keep -/

theorem mem_of_mem_addRequired {required more : List String} {name : String}
    (mem : name ∈ more.foldl addRequired required) : name ∈ required ∨ name ∈ more := by
  induction more generalizing required with
  | nil => exact .inl mem
  | cons first rest ih =>
      rcases ih mem with mem | mem
      · rw [addRequired] at mem
        split at mem
        · exact .inl mem
        · exact (List.mem_append.1 mem).imp_right fun mem =>
            List.mem_cons.2 (.inl (List.mem_singleton.1 mem))
      · exact .inr (List.mem_cons_of_mem first mem)

end Schema

namespace Expansion

theorem keeps_tidy : Keeps Schema.Tidy where
  overlaid own above := own.overlaid above
  placed _ own _ := ⟨own.required, own.extensions, own.keywords⟩
  folded own member := own.folded member

theorem keeps_named : Keeps Schema.Named where
  overlaid own _ := own
  placed parts own names := by
    change (Members.keys parts.properties).Nodup
    rw [names]
    exact own
  folded own _ := Members.nodup_keys_insertAllNew _ own

theorem keeps_requiresPlain : Keeps Schema.RequiresPlain where
  overlaid own _ := own
  placed _ own _ := own
  folded own member := fun name mem =>
    (Schema.mem_of_mem_addRequired mem).elim (own name) (member name)

theorem keeps_tableless : Keeps Schema.Tableless where
  overlaid own above := by
    intro table mem
    obtain ⟨keyword, mem, name⟩ := List.mem_map.1 mem
    rcases Members.mem_insertAll mem with mem | mem
    · exact own table (name ▸ List.mem_map.2 ⟨keyword, mem, rfl⟩)
    · exact above table (name ▸ List.mem_map.2 ⟨keyword, mem, rfl⟩)
  placed _ own _ := own
  folded own member := by
    intro table mem
    obtain ⟨keyword, mem, name⟩ := List.mem_map.1 mem
    rcases Members.mem_insertAllNew mem with mem | mem
    · exact own table (name ▸ List.mem_map.2 ⟨keyword, mem, rfl⟩)
    · exact member table (name ▸ List.mem_map.2 ⟨keyword, mem, rfl⟩)

end Expansion

namespace Schema

theorem augmentable_tidy :
    Augmentable (fun node => node.Tidy ∧ node.Named ∧ node.RequiresPlain) Tidy where
  stays own := own.1
  added _ := ⟨List.nodup_nil, .nil, .nil⟩
  augmented := by
    rintro schema slot ⟨tidy, named, plain⟩
    rw [augmentNode_eq]
    exact ⟨nodup_augmentedRequired named plain tidy.required slot, tidy.extensions, tidy.keywords⟩
  withoutMarker own := ⟨own.required, own.extensions.erase _, own.keywords⟩

theorem augmentable_expanded (kept : List String) :
    Augmentable (Expanded kept) (Expanded kept) where
  stays own := own
  added _ := ⟨rfl, fun _ refers => by cases refers⟩
  augmented := by
    intro schema slot own
    rw [augmentNode_eq]
    exact ⟨own.allOf, own.reference⟩
  withoutMarker own := ⟨own.allOf, own.reference⟩

/-! ## What reading back keeps -/

theorem everywhere_reread {P Q : Schema → Prop} {schema : Schema}
    (step : ∀ node, P node → Q node.reread) (everywhere : schema.Everywhere P) :
    schema.reread.Everywhere Q := by
  induction schema using Schema.induct with
  | node schema ih =>
      obtain ⟨own, children⟩ := everywhere_iff.1 everywhere
      refine everywhere_iff.2 ⟨step schema own, fun child mem => ?_⟩
      rw [children_reread] at mem
      obtain ⟨own, below, rfl⟩ := List.mem_map.1 mem
      exact ih own below (children own below)

theorem Expanded.reread {kept : List String} {schema : Schema} (expanded : schema.Expanded kept) :
    schema.reread.Expanded kept := by
  rw [reread_eq]
  exact ⟨by simp [expanded.allOf], expanded.reference⟩

theorem referencedNames_reread (schema : Schema) :
    schema.reread.referencedNames = schema.referencedNames := by
  induction schema using Schema.induct with
  | node schema ih =>
      have reference : schema.reread.reference = schema.reference := by rw [reread_eq]
      rw [referencedNames_eq, referencedNames_eq, reference, children_reread, List.flatMap_map]
      exact congrArg _ (List.flatMap_congr ih)

/-! ## Tables in what is read -/

theorem keywords_of_readKeyword {schema result : Schema} {name : String} {value : Json}
    (read : readKeyword schema name value = .ok result) :
    result.keywords = schema.keywords ∨
      result.keywords = Members.insert schema.keywords name value := by
  rw [readKeyword] at read
  cases h : Keyword.ofName name with
  | other =>
      simp only [h, pure, Except.pure, Except.ok.injEq] at read
      subst read
      exact .inr rfl
  | extensions =>
      simp only [h, pure, Except.pure, Except.ok.injEq] at read
      subst read
      exact .inl rfl
  | _ =>
      simp only [h, Outcome.bind_eq_ok_iff, pure, Except.pure, Except.ok.injEq] at read
      obtain ⟨_, -, rfl⟩ := read
      exact .inl rfl

theorem not_mem_keys_keywords_of_readKeywords {schema result : Schema} {name : String}
    {members : List (String × Json)} (absent : name ∉ Members.keys members)
    (start : name ∉ Members.keys schema.keywords)
    (read : readKeywords schema members = .ok result) :
    name ∉ Members.keys result.keywords := by
  refine holds_of_readKeywords_of_absent (P := fun node => name ∉ Members.keys node.keywords)
    (fun before after other written ne first own => ?_) absent read start
  rcases keywords_of_readKeyword first with same | same
  · exact same ▸ own
  · rw [same, Members.mem_keys_insert, not_or]
    exact ⟨ne.symm, own⟩

end Schema

namespace Document

variable {raw : Json} {document expanded : Document}

/-- The root carries no table along: the tables are read apart. -/
theorem tableless_of_ofJson (read : ofJson raw = .ok document) : document.schema.Tableless := by
  obtain ⟨members, first, definitions, root, rfl, -, -, hr, rfl⟩ := ofJson_eq_ok_iff.1 read
  intro table
  rw [Schema.ofJson] at hr
  refine Schema.not_mem_keys_keywords_of_readKeywords ?_ List.not_mem_nil hr
  rw [untabled, Members.keys_erase, Members.keys_erase]
  cases table <;> simp

/-- A property of all nodes of a document below its root. -/
structure EverywhereBelow (P : Schema → Prop) (document : Document) : Prop where
  children : ∀ child ∈ document.schema.children, child.Everywhere P
  definitions : ∀ definition ∈ document.definitions, definition.2.Everywhere P

theorem EverywhereBelow.everywhere {P : Schema → Prop} (below : document.EverywhereBelow P)
    (own : P document.schema) : document.Everywhere P :=
  ⟨Schema.everywhere_iff.2 ⟨own, below.children⟩, below.definitions⟩

/-! ## The stages on what they made -/

theorem cyclicDefinitions_reread (document : Document) :
    document.reread.cyclicDefinitions = document.cyclicDefinitions := by
  refine (Definitions.cyclic_eq_of_referencedNames ?_).symm
  rw [reread, Members.mapValues, List.forall₂_map_right_iff, List.forall₂_same]
  exact fun definition _ => ⟨rfl, (Schema.referencedNames_reread definition.2).symm⟩

theorem Expanded.reread (expanded : document.Expanded) : document.reread.Expanded := by
  have step (node : Schema) (own : node.Expanded document.cyclicDefinitions) :
      node.reread.Expanded document.cyclicDefinitions := own.reread
  refine ⟨rfl, ?_, ?_, ?_⟩
  · rw [cyclicDefinitions_reread]
    exact Schema.everywhere_reread step expanded.schema
  · rw [cyclicDefinitions_reread]
    intro name body absent found
    rw [Document.reread, Members.get?_mapValues, Option.map_eq_some_iff] at found
    obtain ⟨own, found, rfl⟩ := found
    exact Schema.everywhere_reread step (expanded.definitions name own absent found)
  · rw [cyclicDefinitions_reread]
    intro none
    rw [Document.reread, expanded.bare none]
    rfl

theorem Expanded.augment (expanded : document.Expanded) : document.augment.Expanded := by
  rw [augment_of_apart expanded.root]
  exact ⟨rfl, (Schema.augmentable_expanded _).augmentNode expanded.schema _, expanded.definitions,
    expanded.bare⟩

theorem augment_augment (root : document.root = .apart document.schema) :
    document.augment.augment = document.augment := by
  rw [augment_of_apart root]
  exact (augment_of_apart rfl).trans (by rw [schema, Schema.augmentNode_augmentNode])

theorem augment_reread (root : document.root = .apart document.schema) :
    document.reread.augment = document.augment.reread := by
  rw [augment_of_apart root]
  refine (augment_of_apart rfl).trans ?_
  rw [reread, reread]
  change Document.mk (.apart (Schema.augmentNode _ document.schema.reread)) _ _ = _
  rw [Schema.augmentNode_reread]
  rfl

/-- An expanded document that is read back from what is written for it. -/
structure Restorable (document : Document) : Prop where
  expanded : document.Expanded
  wellFormed : document.Everywhere Schema.Tidy
  distinct : (Members.keys document.definitions).Nodup
  tableless : document.schema.Tableless

namespace Restorable

theorem ofJson_toJson (restorable : document.Restorable) :
    ofJson document.toJson = .ok document.reread :=
  Document.ofJson_toJson restorable.wellFormed.schema restorable.wellFormed.definitions
    restorable.distinct restorable.tableless

theorem augment (restorable : document.Restorable) (named : document.schema.Everywhere Schema.Named)
    (plain : document.schema.Everywhere Schema.RequiresPlain) : document.augment.Restorable := by
  have tidy := Schema.augmentable_tidy.augmentNode
    (restorable.wellFormed.schema.and (named.and plain)) (some Schema.rootSlot)
  have expanded := restorable.expanded.augment
  rw [augment_of_apart restorable.expanded.root] at expanded ⊢
  refine ⟨expanded, ⟨tidy, restorable.wellFormed.definitions⟩, restorable.distinct, ?_⟩
  change Schema.Tableless (document.schema.augmentNode (some Schema.rootSlot))
  rw [Schema.augmentNode_eq]
  exact restorable.tableless

end Restorable

/-- What a document that was read expands to is read back from what is written for it. -/
theorem restorable_of_expand (read : ofJson raw = .ok document)
    (tableless : document.Everywhere Schema.Tableless) (expands : document.expand = .ok expanded) :
    expanded.Restorable := by
  have root := root_eq_apart read
  have tidy := everywhere_of_ofJson Schema.preserved_tidy trivial read
  obtain ⟨stable, -, distinct⟩ := expanded_of_expand root (nodup_keys_definitions read) expands
  have bare := (tableless.expand Expansion.keeps_tableless root expands).schema
  exact ⟨stable, tidy.expand Expansion.keeps_tidy root expands, distinct,
    (Schema.everywhere_iff.1 bare).1⟩

end Document

namespace Prepared

variable {raw : Json} {config : Config} {prepared : Prepared} {document : Document}

/-- A restorable document that augmentation leaves as it is, if there is augmentation, is prepared
again as it is read back. -/
theorem ofJson_toJson_of_restorable (restorable : document.Restorable)
    (augmented : config.augment = true → document.augment = document) :
    ofJson document.toJson config = .ok ⟨document.reread, document.hasCycle, config⟩ := by
  have expands := restorable.expanded.reread.expand_eq
  refine ofJson_eq_ok_iff.2 ⟨_, _, restorable.ofJson_toJson, expands, ?_⟩
  have cycles : document.reread.hasCycle = document.hasCycle := by
    rw [Document.hasCycle, Document.hasCycle, Document.cyclicDefinitions_reread]
  rw [cycles]
  split
  · next augments =>
      rw [Document.augment_reread restorable.expanded.root, augmented augments]
  · rfl

/-- What is written for a prepared schema comes out the same when it is prepared again, and has a
cycle just if the schema had one. -/
theorem preparation_is_stable (distinct : raw.distinct = true)
    (read : Document.ofJson raw = .ok document) (plain : document.Everywhere Schema.RequiresPlain)
    (tableless : document.EverywhereBelow Schema.Tableless)
    (parsed : ofJson raw config = .ok prepared) :
    ∃ again, ofJson prepared.toJson config = .ok again ∧ again.toJson = prepared.toJson ∧
      again.cyclic = prepared.cyclic := by
  obtain ⟨document', expanded, read', expands, rfl⟩ := ofJson_eq_ok_iff.1 parsed
  cases read.symm.trans read'
  have root := Document.root_eq_apart read
  have bare : document.Everywhere Schema.Tableless :=
    tableless.everywhere (Document.tableless_of_ofJson read)
  have restorable := Document.restorable_of_expand read bare expands
  have named := ((Document.everywhere_of_ofJson Schema.preserved_named distinct read).expand
    Expansion.keeps_named root expands).schema
  have requires := (plain.expand Expansion.keeps_requiresPlain root expands).schema
  have cycles : expanded.hasCycle = document.hasCycle := by
    obtain ⟨-, same, -⟩ :=
      Document.expanded_of_expand root (Document.nodup_keys_definitions read) expands
    rw [Document.hasCycle, Document.hasCycle, same]
  by_cases augments : config.augment = true
  · have again := ofJson_toJson_of_restorable (restorable.augment named requires)
      fun _ : config.augment = true => Document.augment_augment restorable.expanded.root
    simp only [if_pos augments]
    refine ⟨_, again, Document.toJson_reread _, ?_⟩
    rw [Document.augment_of_apart restorable.expanded.root]
    exact cycles
  · have again := ofJson_toJson_of_restorable restorable fun on => absurd on augments
    simp only [if_neg augments]
    exact ⟨_, again, Document.toJson_reread _, cycles⟩

/-- A tree whose nodes refer to each other, each with a mark, below a title to be quoted. -/
def treeJson : Json :=
  .object
    [("type", .string "object"), ("X-ReasoningPrompt", .string "Read all of it."),
      ("properties", .object
        [("title", .object [("type", .string "string"), ("X-SourceQuote", .bool true)]),
          ("top", .object [("$ref", .string "#/$defs/Node")]),
          ("mark", .object
            [("$ref", .string "#/$defs/Mark"), ("description", .string "Of the whole.")])]),
      ("$defs", .object
        [("Node", .object
            [("properties", .object
              [("mark", .object [("$ref", .string "#/$defs/Mark")]),
                ("below", .object
                  [("type", .string "array"),
                    ("items", .object [("$ref", .string "#/$defs/Node")])])])]),
          ("Mark", .object [("allOf", .array [.object [("$ref", .string "#/$defs/Letter")]])]),
          ("Letter", .object [("enum", .strings ["A", "B"])])]),
      ("required", .strings ["title"])]

def treeNode : Schema where
  properties :=
    [("mark", { reference := some "#/$defs/Mark" }),
      ("below", { types := [.array], items := some { reference := some "#/$defs/Node" } })]

def letter : Schema where
  enumeration := some [.string "A", .string "B"]

def treeDocument : Document where
  root := .apart
    { types := [.object]
      properties :=
        [("title", { types := [.string], extensions := [("X-SourceQuote", .bool true)] }),
          ("top", { reference := some "#/$defs/Node" }),
          ("mark",
            { reference := some "#/$defs/Mark", description := some "Of the whole." })]
      required := ["title"]
      extensions := [("X-ReasoningPrompt", .string "Read all of it.")] }
  definitions :=
    [("Node", treeNode), ("Mark", { allOf := [{ reference := some "#/$defs/Letter" }] }),
      ("Letter", letter)]
  table := .defs

def treeExpanded : Document where
  root := .apart
    { types := [.object]
      properties :=
        [("title", { types := [.string], extensions := [("X-SourceQuote", .bool true)] }),
          ("top", { reference := some "#/$defs/Node" }),
          ("mark", { letter with description := some "Of the whole." })]
      required := ["title"]
      extensions := [("X-ReasoningPrompt", .string "Read all of it.")] }
  definitions := [("Node", treeNode), ("Mark", letter), ("Letter", letter)]
  table := .defs

/-- The prepared tree as it is written. -/
def treePrepared : Json :=
  .object
    [("type", .string "object"),
      ("properties", .object
        [("reasoning___root", .object
            [("type", .string "string"), ("description", .string "Read all of it.")]),
          ("title", .object [("type", .string "string")]),
          ("source___title", .object
            [("type", .string "string"),
              ("description", .string (Schema.quoteDescription "title"))]),
          ("top", .object [("$ref", .string "#/$defs/Node")]),
          ("mark", .object
            [("description", .string "Of the whole."), ("enum", .strings ["A", "B"])])]),
      ("required", .strings ["reasoning___root", "title", "source___title"]),
      ("X-ReasoningPrompt", .string "Read all of it."),
      ("$defs", .object
        [("Node", .object
            [("properties", .object
              [("mark", .object [("$ref", .string "#/$defs/Mark")]),
                ("below", .object
                  [("type", .string "array"),
                    ("items", .object [("$ref", .string "#/$defs/Node")])])])]),
          ("Mark", .object [("enum", .strings ["A", "B"])]),
          ("Letter", .object [("enum", .strings ["A", "B"])])])]

theorem prepared_tree_is_stable :
    ∃ prepared again, ofJson treeJson {} = .ok prepared ∧ prepared.toJson = treePrepared ∧
      ofJson treePrepared {} = .ok again ∧ again.toJson = treePrepared ∧ again.cyclic = true := by
  have read : Document.ofJson treeJson = .ok treeDocument := rfl
  have expands : treeDocument.expand = .ok treeExpanded := rfl
  have parsed : ofJson treeJson {} = .ok ⟨treeExpanded.augment, true, {}⟩ :=
    ofJson_eq_ok_iff.2 ⟨treeDocument, treeExpanded, read, expands, rfl⟩
  have written : toJson ⟨treeExpanded.augment, true, {}⟩ = treePrepared := rfl
  obtain ⟨again, prepares, same, cyclic⟩ := preparation_is_stable (by decide) read
    ⟨by decide, by decide⟩ ⟨by decide, by decide⟩ parsed
  rw [written] at prepares same
  exact ⟨_, again, parsed, written, prepares, same, cyclic⟩

end Prepared

end SchemaStream
