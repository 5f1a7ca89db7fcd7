import SchemaStream.Proofs.Schema.Expansion

/-!
# Grounded expansions

The definitions that are put in can be ranked so that each only refers to definitions of
lower rank.  So a chain of definitions put into each other ends before the depth allowed
for runs out, and expansion satisfies the equation of the unbounded recursion.
-/

namespace SchemaStream

namespace Schema

/-! ## Names referred to -/

theorem referencedNames_eq (schema : Schema) :
    schema.referencedNames =
      (schema.reference >>= Reference.name?).toList ++
        schema.children.flatMap referencedNames := by
  rw [referencedNames, preorder_eq_cons_flatMap, List.filterMap_cons]
  have below : (schema.children.flatMap preorder).filterMap
      (fun node => node.reference >>= Reference.name?) =
        schema.children.flatMap referencedNames := by
    rw [List.filterMap_flatMap]
    rfl
  rw [below]
  cases schema.reference >>= Reference.name? <;> rfl

theorem mem_referencedNames_iff {schema : Schema} {name : String} :
    name ∈ schema.referencedNames ↔
      (∃ reference, schema.reference = some reference ∧ Reference.name? reference = some name) ∨
        ∃ child ∈ schema.children, name ∈ child.referencedNames := by
  rw [referencedNames_eq, List.mem_append, Option.mem_toList, List.mem_flatMap]
  exact or_congr_left Option.bind_eq_some_iff

theorem referencedNames_subset {schema node : Schema} (mem : node ∈ schema.preorder) :
    node.referencedNames ⊆ schema.referencedNames := by
  induction schema using Schema.induct with
  | node schema ih =>
      rcases mem_preorder_iff.1 mem with rfl | ⟨child, below, mem⟩
      · exact List.Subset.refl _
      · intro name h
        exact mem_referencedNames_iff.2 (.inr ⟨child, below, ih child below mem h⟩)

theorem children_overlaid (definition site : Schema) :
    (definition.overlaid site).children = definition.children := rfl

theorem reference_overlaid (definition site : Schema) :
    (definition.overlaid site).reference = none := rfl

theorem mem_referencedNames_of_overlaid {definition site : Schema} {name : String}
    (h : name ∈ (definition.overlaid site).referencedNames) :
    name ∈ definition.referencedNames := by
  rw [mem_referencedNames_iff, children_overlaid, reference_overlaid] at h
  rcases h with ⟨reference, hr, -⟩ | below
  · cases hr
  · exact mem_referencedNames_iff.2 (.inr below)

end Schema

namespace Expansion

variable {expansion : Expansion} {rank : String → Nat}

/-- Whether references to a name are replaced by the definition of that name. -/
def Inlines (expansion : Expansion) (name : String) : Prop :=
  name ∈ Members.keys expansion.definitions ∧ name ∉ expansion.kept

theorem Inlines.of_get? {name : String} {body : Schema}
    (found : Members.get? expansion.definitions name = some body) (put : name ∉ expansion.kept) :
    expansion.Inlines name :=
  ⟨Members.mem_keys_iff_exists_get?.2 ⟨body, found⟩, put⟩

/-! ## One node -/

/-- The expansion of a node only depends on `below` where a definition is put in. -/
theorem expandNode_congr {below below' : Schema → Except SchemaError Schema} {schema : Schema}
    (same : ∀ node ∈ schema.preorder, ∀ definition,
      expansion.inlined? node = .ok (some definition) → below definition = below' definition) :
    expandNode expansion below schema = expandNode expansion below' schema := by
  induction schema using Schema.induct with
  | node schema ih =>
      have child {child : Schema} (mem : child ∈ schema.children) :
          expandNode expansion below child = expandNode expansion below' child :=
        ih child mem fun node h => same node (Schema.mem_preorder_iff.2 (.inr ⟨child, mem, h⟩))
      cases found : expansion.inlined? schema with
      | error fault => rw [expandNode_eq, expandNode_eq, found]; rfl
      | ok definition =>
          cases definition with
          | some definition =>
              rw [expandNode_of_inlined found, expandNode_of_inlined found]
              exact same schema (Schema.mem_preorder_iff.2 (.inl rfl)) definition found
          | none =>
              have agree : Outcome.Agrees (Parts.Rel Eq) (expandParts expansion below schema)
                  (expandParts expansion below' schema) :=
                expandParts_agrees (Parts.Rel.refl_of_mem fun node mem =>
                  Outcome.Agrees.of_eq (child mem) fun _ _ => rfl)
              have parts := (agree.imp fun _ _ _ _ related => related.eq).eq
              rw [expandNode_of_stays found, expandNode_of_stays found, parts]

/-! ## Ranks -/

/-- Each definition that is put in has a rank below the depth allowed for, and refers only
to others of lower rank. -/
structure Grounded (expansion : Expansion) (rank : String → Nat) : Prop where
  bounded : ∀ name, expansion.Inlines name → rank name < expansion.definitions.length
  descends : ∀ name body, Members.get? expansion.definitions name = some body →
    name ∉ expansion.kept → ∀ other ∈ body.referencedNames, expansion.Inlines other →
      rank other < rank name

/-- Where a definition is put in, a name of higher rank than all in it was referred to. -/
theorem Grounded.descends_inlined (grounded : expansion.Grounded rank) {schema definition : Schema}
    (found : expansion.inlined? schema = .ok (some definition)) :
    ∃ name ∈ schema.referencedNames, expansion.Inlines name ∧
      ∀ other ∈ definition.referencedNames, expansion.Inlines other → rank other < rank name := by
  obtain ⟨reference, name, body, hr, named, hb, put, rfl⟩ := inlined?_eq_some_iff.1 found
  refine ⟨name, Schema.mem_referencedNames_iff.2 (.inl ⟨reference, hr, named⟩),
    .of_get? hb put, ?_⟩
  intro other mem inlines
  exact grounded.descends name body hb put other (Schema.mem_referencedNames_of_overlaid mem)
    inlines

/-- To show something of every schema, show it of a node from its children and from what it
leads to, if that only refers to definitions below one that the node refers to. -/
theorem Grounded.inductAlong (grounded : expansion.Grounded rank) {next : Schema → Schema → Prop}
    (descends : ∀ schema definition, next schema definition →
      ∃ name ∈ schema.referencedNames, expansion.Inlines name ∧
        ∀ other ∈ definition.referencedNames, expansion.Inlines other → rank other < rank name)
    {motive : Schema → Prop}
    (step : ∀ schema, (∀ child ∈ schema.children, motive child) →
      (∀ definition, next schema definition → motive definition) → motive schema)
    (schema : Schema) : motive schema := by
  suffices below : ∀ bound schema, (∀ name ∈ Schema.referencedNames schema,
      expansion.Inlines name → rank name < bound) → motive schema from
    below expansion.definitions.length schema fun name _ inlines => grounded.bounded name inlines
  intro bound
  induction bound using Nat.strongRecOn with
  | ind bound ihb =>
      intro schema
      induction schema using Schema.induct with
      | node schema ih =>
          intro low
          refine step schema ?_ ?_
          · intro child mem
            refine ih child mem fun name below => low name ?_
            exact Schema.mem_referencedNames_iff.2 (.inr ⟨child, mem, below⟩)
          · intro definition leads
            obtain ⟨name, mem, inlines, descends⟩ := descends schema definition leads
            exact ihb (rank name) (low name mem inlines) definition descends

/-- To show something of every schema, show it of a node from its children and from the
definition that is put in its place. -/
theorem Grounded.induct (grounded : expansion.Grounded rank) {motive : Schema → Prop}
    (step : ∀ schema, (∀ child ∈ schema.children, motive child) →
      (∀ definition, expansion.inlined? schema = .ok (some definition) → motive definition) →
      motive schema) (schema : Schema) : motive schema :=
  grounded.inductAlong (fun _ _ => grounded.descends_inlined) step schema

/-! ## Depth -/

/-- More depth than the ranks of the names below a node makes no difference. -/
theorem Grounded.expandWithin_succ (grounded : expansion.Grounded rank) {depth : Nat}
    {schema : Schema}
    (enough : ∀ name ∈ schema.referencedNames, expansion.Inlines name → rank name < depth) :
    expandWithin expansion (depth + 1) schema = expandWithin expansion depth schema := by
  induction depth generalizing schema with
  | zero =>
      refine expandNode_congr fun node mem definition found => ?_
      obtain ⟨name, named, inlines, -⟩ := grounded.descends_inlined found
      exact absurd (enough name (Schema.referencedNames_subset mem named) inlines) (by omega)
  | succ depth ih =>
      refine expandNode_congr fun node mem definition found => ih fun other named inlines => ?_
      obtain ⟨name, high, put, descends⟩ := grounded.descends_inlined found
      have first := enough name (Schema.referencedNames_subset mem high) put
      have second := descends other named inlines
      omega

/-- Expansion satisfies the equation of the recursion without a bound. -/
theorem Grounded.expand_eq (grounded : expansion.Grounded rank) (schema : Schema) :
    expansion.expand schema = expandNode expansion expansion.expand schema :=
  (grounded.expandWithin_succ fun name _ inlines => grounded.bounded name inlines).symm

end Expansion

/-! ## The ranks of the definitions of a document -/

namespace Definitions

variable {definitions : Members Schema} {name : String} {body : Schema} {rounds : Nat}

/-- The round in which a definition is settled, counted from zero. -/
def round (definitions : Members Schema) (name : String) : Nat :=
  (List.range definitions.length).findIdx fun rounds =>
    (settledAfter definitions (rounds + 1)).contains name

theorem mem_settledAfter_succ_iff (distinct : (Members.keys definitions).Nodup)
    (found : Members.get? definitions name = some body) :
    name ∈ settledAfter definitions (rounds + 1) ↔
      ∀ other ∈ body.referencedNames, other ∈ Members.keys definitions →
        other ∈ settledAfter definitions rounds := by
  have settles_iff : settles definitions (settledAfter definitions rounds) body = true ↔
      ∀ other ∈ body.referencedNames, other ∈ Members.keys definitions →
        other ∈ settledAfter definitions rounds := by
    simp only [settles, List.all_eq_true, Bool.or_eq_true, Bool.not_eq_true', List.contains_iff_mem,
      ← Members.has_iff_mem_keys]
    refine forall₂_congr fun other mem => ?_
    cases Members.has definitions other <;> simp
  rw [settledAfter, Members.keys, List.mem_map, ← settles_iff]
  constructor
  · rintro ⟨⟨key, other⟩, mem, rfl⟩
    obtain ⟨mem, settles⟩ := List.mem_filter.1 mem
    cases found.symm.trans (Members.get?_eq_some_of_mem distinct mem)
    exact settles
  · intro settles
    exact ⟨(name, body), List.mem_filter.2 ⟨Members.mem_of_get?_eq_some found, settles⟩, rfl⟩

theorem round_le (mem : name ∈ settledAfter definitions (rounds + 1)) :
    round definitions name ≤ rounds := by
  by_contra high
  have before := List.not_of_lt_findIdx (Nat.lt_of_not_le high)
  simp [mem] at before

theorem mem_settledAfter_round (mem : name ∈ settled definitions) :
    round definitions name < definitions.length ∧
      name ∈ settledAfter definitions (round definitions name + 1) := by
  have low : round definitions name < definitions.length := by
    rw [settled] at mem
    cases hl : definitions.length with
    | zero => simp [hl, settledAfter] at mem
    | succ length =>
        rw [hl] at mem
        exact Nat.lt_succ_of_le (round_le mem)
  have inRange : round definitions name < (List.range definitions.length).length := by
    simpa using low
  have found : name ∈ settledAfter definitions
      ((List.range definitions.length)[round definitions name] + 1) :=
    List.contains_iff_mem.1 (List.findIdx_getElem (w := inRange))
  rw [List.getElem_range] at found
  exact ⟨low, found⟩

theorem mem_settled_iff (defined : name ∈ Members.keys definitions) :
    name ∈ settled definitions ↔ name ∉ cyclic definitions := by
  simp [cyclic, defined]

/-- Settled definitions are ranked by the round in which they are settled. -/
theorem grounded (distinct : (Members.keys definitions).Nodup) :
    (⟨definitions, cyclic definitions⟩ : Expansion).Grounded (round definitions) := by
  constructor
  · rintro name ⟨defined, put⟩
    exact (mem_settledAfter_round ((mem_settled_iff defined).2 put)).1
  · rintro name body found put other refers ⟨defined, -⟩
    have inlines : (⟨definitions, cyclic definitions⟩ : Expansion).Inlines name :=
      .of_get? found put
    have settled := (mem_settled_iff inlines.1).2 put
    have before := (mem_settledAfter_succ_iff distinct found).1
      (mem_settledAfter_round settled).2 other refers defined
    cases hr : round definitions name with
    | zero => simp [hr, settledAfter] at before
    | succ rounds =>
        rw [hr] at before
        exact Nat.lt_succ_of_le (round_le before)

end Definitions

namespace Document

/-- What references mean when a document is expanded. -/
def expansion (document : Document) : Expansion :=
  ⟨document.definitions, document.cyclicDefinitions⟩

theorem grounded_expansion {document : Document}
    (distinct : (Members.keys document.definitions).Nodup) :
    document.expansion.Grounded (Definitions.round document.definitions) :=
  Definitions.grounded distinct

variable {document : Document} {schema : Schema}

theorem schema_of_apart (root : document.root = .apart schema) : document.schema = schema := by
  rw [Document.schema, root]

theorem expand_of_apart (root : document.root = .apart schema) :
    document.expand = (do
      let expanded ← document.expansion.expand schema
      if document.cyclicDefinitions.isEmpty then
        return { document with root := .apart expanded, definitions := [] }
      else
        let pending := (Members.keys document.definitions).filter fun name =>
          !document.cyclicDefinitions.contains name
        let definitions ← expandDefinitions document.cyclicDefinitions pending document.definitions
        return { document with root := .apart expanded, definitions }) := by
  rw [expand, schema_of_apart root]
  refine bind_congr fun expanded => ?_
  split
  · rfl
  · simp only [setSchema, modifySchema, root, movedRoot]

end Document

end SchemaStream
