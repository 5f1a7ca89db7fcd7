import SchemaStream.Proofs.Schema.Respelling

/-!
# Expanding what is respelled

Expansions whose definitions are respelled expand respelled schemas alike.  A definition
itself must not be respelled at its own node: put in, it would lose its reference in one
spelling and keep the `allOf` in the other.
-/

namespace SchemaStream

open Schema (Alike AlikeAt Respelled)

namespace Schema

variable {R : Schema → Schema → Prop} {live : String → Prop} {schema other third : Schema}

theorem AlikeAt.trans_reordered (h : AlikeAt R schema other) (h' : other.Reordered third) :
    AlikeAt R schema third where
  stem := by
    have same : other.core.stem = third.core.stem := by rw [h'.core]
    exact h.stem.trans same
  parts := by
    have same : Expansion.Parts.ofNode other.core = Expansion.Parts.ofNode third.core := by
      rw [h'.core]
    change (Expansion.Parts.ofNode schema).Rel R (Expansion.Parts.ofNode third.core)
    rw [← same]
    exact h.parts
  extensions := h.extensions.trans h'.extensions
  keywords := h.keywords.trans h'.keywords
  tidy := h.tidy
  named := h.named

theorem AlikeAt.tidy_right (h : AlikeAt R schema other) : other.Tidy := by
  refine ⟨?_, h.tidy.extensions.of_reordered h.extensions,
    h.tidy.keywords.of_reordered h.keywords⟩
  rw [← (stem_eq_iff.1 h.stem).2.2.1]
  exact h.tidy.required

/-- Folding what a bare reference becomes into the metadata of a site does what laying it
under the site does. -/
theorem AlikeAt.folded_wrapping (site : SiteMetadata) (reference : String) {own member : Schema}
    (bare : AlikeAt R member (own.overlaid { reference := some reference }))
    (sole : own.allOf = []) :
    AlikeAt R ((site.wrapping reference).folded member)
      (own.overlaid (site.referring reference)) where
  stem := by
    obtain ⟨types, listed, required, enumeration, -, description⟩ := stem_eq_iff.1 bare.stem
    have more : member.required.foldl addRequired [] = member.required :=
      addRequired_eq_append bare.tidy.required
    exact stem_eq_iff.2 ⟨types, listed, more.trans required, enumeration, rfl,
      congrArg site.description.or description⟩
  parts := by
    have properties : Members.insertAllNew [] member.properties = member.properties :=
      Members.insertAllNew_eq_append bare.named
    have parts := bare.parts
    refine ⟨?_, ?_, parts.items, parts.anyOf, parts.oneOf⟩
    · simp [Expansion.Parts.ofNode, Schema.folded, Schema.overlaid, sole]
    · have below := parts.properties
      rwa [Expansion.Parts.ofNode, ← properties] at below
  extensions := .insertAllNew_of_insertAll site.carriedExtensions.distinct bare.extensions
  keywords := .insertAllNew_of_insertAll site.carriedKeywords.distinct bare.keywords
  tidy := ⟨nodup_addRequired List.nodup_nil _,
    site.carriedExtensions.insertAllNew bare.tidy.extensions,
    site.carriedKeywords.insertAllNew bare.tidy.keywords⟩
  named := Members.nodup_keys_insertAllNew _ List.nodup_nil

end Schema

namespace Expansion

/-- The same names are defined and stay, and the definitions that are seen, and put in, are
respelled below their own nodes.  What is seen leads to nothing that is not. -/
structure Corresponds (live seen : String → Prop) (expansion expansion' : Expansion) : Prop where
  kept : expansion.kept = expansion'.kept
  names : Members.keys expansion.definitions = Members.keys expansion'.definitions
  definitions : ∀ name body body', seen name → name ∉ expansion.kept →
    Members.get? expansion.definitions name = some body →
      Members.get? expansion'.definitions name = some body' → AlikeAt (Respelled live) body body'
  closed : ∀ name body, seen name → name ∉ expansion.kept →
    Members.get? expansion.definitions name = some body →
      ∀ other ∈ body.referencedNames, expansion.Inlines other → seen other
  alive : ∀ reference, live reference →
    ∃ name, Reference.name? reference = some name ∧ expansion.Inlines name

/-- All definitions that are put in for references below a node are seen. -/
def Sees (expansion : Expansion) (seen : String → Prop) (schema : Schema) : Prop :=
  ∀ name ∈ schema.referencedNames, expansion.Inlines name → seen name

variable {expansion expansion' : Expansion} {live seen : String → Prop}
  {rank rank' : String → Nat} {schema other : Schema}

theorem Sees.child (sees : expansion.Sees seen schema) {child : Schema}
    (mem : child ∈ schema.children) : expansion.Sees seen child := by
  intro name below
  exact sees name (Schema.mem_referencedNames_iff.2 (.inr ⟨child, mem, below⟩))

namespace Corresponds

theorem sees_inlined (corresponds : Corresponds live seen expansion expansion')
    (sees : expansion.Sees seen schema) {definition : Schema}
    (found : expansion.inlined? schema = .ok (some definition)) :
    expansion.Sees seen definition := by
  obtain ⟨reference, name, body, refers, named, hb, put, rfl⟩ := inlined?_eq_some_iff.1 found
  have own : seen name := sees name
    (Schema.mem_referencedNames_iff.2 (.inl ⟨reference, refers, named⟩)) (.of_get? hb put)
  intro other mem
  exact corresponds.closed name body own put hb other (Schema.mem_referencedNames_of_overlaid mem)

theorem exists_definition (corresponds : Corresponds live seen expansion expansion')
    {name : String} (defined : name ∈ Members.keys expansion.definitions) :
    ∃ body body', Members.get? expansion.definitions name = some body ∧
      Members.get? expansion'.definitions name = some body' := by
  obtain ⟨body, found⟩ := Members.mem_keys_iff_exists_get?.1 defined
  obtain ⟨body', found'⟩ := Members.mem_keys_iff_exists_get?.1 (corresponds.names ▸ defined)
  exact ⟨body, body', found, found'⟩

theorem inlined?_agrees (corresponds : Corresponds live seen expansion expansion')
    (h : AlikeAt (Respelled live) schema other) (sees : expansion.Sees seen schema) :
    Outcome.Agrees (Option.Rel (AlikeAt (Respelled live))) (expansion.inlined? schema)
      (expansion'.inlined? other) := by
  have refers : schema.reference = other.reference := (Schema.stem_eq_iff.1 h.stem).2.2.2.2.1
  rw [inlined?, inlined?, ← refers]
  cases hr : schema.reference with
  | none => exact .ok .none
  | some reference =>
      dsimp only
      rw [Reference.resolve, Reference.resolve]
      cases named : Reference.name? reference with
      | none => exact .error _
      | some name =>
          dsimp only
          by_cases defined : name ∈ Members.keys expansion.definitions
          · obtain ⟨body, body', found, found'⟩ := corresponds.exists_definition defined
            rw [found, found', ← corresponds.kept]
            refine .ok ?_
            by_cases put : name ∈ expansion.kept
            · simp only [List.contains_iff_mem.2 put]
              exact .none
            · have mem : name ∈ schema.referencedNames :=
                Schema.mem_referencedNames_iff.2 (.inl ⟨reference, hr, named⟩)
              have related := corresponds.definitions name body body' (sees name mem ⟨defined, put⟩)
                put found found'
              simp only [List.contains_eq_mem, put, decide_false]
              exact .some (related.overlaid h)
          · have absent : Members.get? expansion.definitions name = none :=
              Members.get?_eq_none_iff.2 defined
            have absent' : Members.get? expansion'.definitions name = none :=
              Members.get?_eq_none_iff.2 (corresponds.names ▸ defined)
            rw [absent, absent']
            exact .error _

end Corresponds

/-- Nodes expand alike if what is put in their places does, and their parts do. -/
theorem expandNode_agrees {R D : Schema → Schema → Prop}
    {below below' : Schema → Except SchemaError Schema}
    (inlined : Outcome.Agrees (Option.Rel D) (expansion.inlined? schema)
      (expansion'.inlined? other))
    (put : ∀ definition definition', expansion.inlined? schema = .ok (some definition) →
      D definition definition' → Outcome.Agrees R (below definition) (below' definition'))
    (stay : Outcome.Agrees (fun parts parts' => R (parts.under schema) (parts'.under other))
      (expandParts expansion below schema) (expandParts expansion' below' other)) :
    Outcome.Agrees R (expandNode expansion below schema)
      (expandNode expansion' below' other) := by
  rw [expandNode_eq, expandNode_eq]
  have known := inlined.imp fun found found' h _ related => And.intro h related
  refine known.bind fun found found' both => ?_
  obtain ⟨h, related⟩ := both
  cases related with
  | none => exact stay.bind fun parts parts' same => .ok same
  | some related => exact put _ _ h related

/-- Below nodes that are alike, parts that expand alike give nodes that are alike. -/
theorem expandParts_under_agrees {below below' : Schema → Except SchemaError Schema}
    {S : Schema → Schema → Prop} (h : AlikeAt S schema other)
    (children : (Parts.ofNode schema).Rel (fun child child' =>
      Outcome.Agrees Alike (expandNode expansion below child)
        (expandNode expansion' below' child')) (Parts.ofNode other)) :
    Outcome.Agrees (fun parts parts' => Alike (parts.under schema) (parts'.under other))
      (expandParts expansion below schema) (expandParts expansion' below' other) := by
  refine (expandParts_agrees children).imp fun parts parts' expands _ related => ?_
  obtain ⟨-, placed⟩ := expandParts_eq_ok_iff.1 expands
  have names : Members.keys parts.properties = Members.keys schema.properties :=
    (Members.keys_eq_of_forall₂ (placed.properties.imp fun _ _ both => both.1)).symm
  have count : parts.allOf.length = schema.allOf.length := placed.allOf.length_eq.symm
  exact .of_alikeAt (related.under h names count fun member member' => Schema.alike_iff.1)

/-! ## A reference alone in an `allOf` -/

theorem allOf_under {below : Schema → Except SchemaError Schema} {parts : Parts}
    (expands : expandParts expansion below schema = .ok parts) :
    (parts.under schema).allOf = [] := by
  obtain ⟨-, placed⟩ := expandParts_eq_ok_iff.1 expands
  have count : schema.allOf.length = parts.allOf.length := placed.allOf.length_eq
  rw [Parts.under]
  cases h : parts.allOf with
  | nil =>
      rw [h] at count
      exact List.length_eq_zero_iff.1 count
  | cons member others => rfl

theorem Grounded.allOf_expand (grounded : expansion.Grounded rank) {result : Schema}
    (none : schema.reference = none) (expands : expansion.expand schema = .ok result) :
    result.allOf = [] := by
  rw [grounded.expand_eq, expandNode_of_reference_eq_none none] at expands
  obtain ⟨parts, hp, rfl⟩ := Outcome.map_eq_ok_iff.1 expands
  exact allOf_under hp

theorem expandParts_wrapping (expansion : Expansion)
    (below : Schema → Except SchemaError Schema) (site : SiteMetadata) (reference : String) :
    expandParts expansion below (site.wrapping reference) =
      (expandNode expansion below { reference := some reference }).map
        fun member => { Parts.ofNode {} with allOf := [member] } := by
  rw [expandParts, SiteMetadata.wrapping]
  simp only [expandSole]
  cases expandNode expansion below { reference := some reference } <;> rfl

/-- The member expanded is folded into what stands beside the `allOf`. -/
theorem Grounded.expand_wrapping (grounded : expansion.Grounded rank) (site : SiteMetadata)
    (reference : String) :
    expansion.expand (site.wrapping reference) =
      (expansion.expand { reference := some reference }).map
        fun member => (site.wrapping reference).folded member := by
  rw [grounded.expand_eq (site.wrapping reference),
    expandNode_of_reference_eq_none (by rfl), expandParts_wrapping, ← grounded.expand_eq]
  cases expansion.expand { reference := some reference } <;> rfl

/-- A reference alone in an `allOf` and the reference itself become what a bare reference
becomes, folded into the metadata or laid under it. -/
theorem Grounded.expand_wrapping_agrees (grounded : expansion.Grounded rank)
    (grounded' : expansion'.Grounded rank') (site : SiteMetadata) {reference name : String}
    {body : Schema} (named : Reference.name? reference = some name)
    (found : Members.get? expansion'.definitions name = some body) (tidy : body.Tidy)
    (put : name ∉ expansion'.kept)
    (bare : Outcome.Agrees Alike (expansion.expand { reference := some reference })
      (expansion'.expand { reference := some reference })) :
    Outcome.Agrees Alike (expansion.expand (site.wrapping reference))
      (expansion'.expand (site.referring reference)) := by
  have first := grounded'.expand_reference { reference := some reference } rfl named found put
    tidy ⟨List.nodup_nil, .nil, .nil⟩
  have second := grounded'.expand_reference (site.referring reference) rfl named found put tidy
    ⟨List.nodup_nil, site.carriedExtensions, site.carriedKeywords⟩
  rw [grounded.expand_wrapping]
  cases hown : expansion'.expand body.withoutReference with
  | error fault =>
      rw [hown] at first second
      rw [first.eq_error_right] at bare
      rw [bare.eq_error_left, second.eq_error_right]
      exact .error fault
  | ok own =>
      rw [hown] at first second
      obtain ⟨result, expands, shows⟩ := second.exists_of_ok_left
      obtain ⟨result', expands', shows'⟩ := first.exists_of_ok_left
      rw [expands'] at bare
      obtain ⟨member, expandsMember, related⟩ := bare.exists_of_ok_right
      have alike : AlikeAt Alike member (own.overlaid { reference := some reference }) :=
        (Schema.alike_iff.1 related).trans_reordered shows'.symm
      have folded := alike.folded_wrapping site reference (grounded'.allOf_expand rfl hown)
      rw [expands, expandsMember]
      exact .ok (.of_alikeAt (folded.trans_reordered shows))

/-- Corresponding expansions take respelled schemas to schemas that are alike. -/
theorem Corresponds.expand_agrees (corresponds : Corresponds live seen expansion expansion')
    (grounded : expansion.Grounded rank) (grounded' : expansion'.Grounded rank')
    (sees : expansion.Sees seen schema) (h : Respelled live schema other) :
    Outcome.Agrees Alike (expansion.expand schema) (expansion'.expand other) := by
  suffices every : expansion.Sees seen schema → ∀ other, Respelled live schema other →
      Outcome.Agrees Alike (expansion.expand schema) (expansion'.expand other) from
    every sees other h
  refine grounded.induct (motive := fun schema => expansion.Sees seen schema →
    ∀ other, Respelled live schema other →
      Outcome.Agrees Alike (expansion.expand schema) (expansion'.expand other)) ?_ schema
  intro schema children inlined sees other h
  rcases Schema.respelled_iff.1 h with h | ⟨site, reference, alive, rfl, rfl⟩
  · rw [grounded.expand_eq, grounded'.expand_eq]
    refine expandNode_agrees (corresponds.inlined?_agrees h sees) ?_ ?_
    · intro definition definition' found related
      exact inlined definition found (corresponds.sees_inlined sees found) definition'
        (.of_alikeAt related)
    · refine expandParts_under_agrees h (h.parts.imp_of_mem fun child mem child' related => ?_)
      rw [← grounded.expand_eq, ← grounded'.expand_eq]
      exact children child mem (sees.child mem) child' related
  · obtain ⟨name, named, inlines⟩ := corresponds.alive reference alive
    obtain ⟨body, body', found, found'⟩ := corresponds.exists_definition inlines.1
    have child : { reference := some reference } ∈ (site.wrapping reference).children := by
      simp [SiteMetadata.wrapping, Schema.children]
    have mem : name ∈ (site.wrapping reference).referencedNames :=
      Schema.mem_referencedNames_iff.2 (.inr ⟨_, child,
        Schema.mem_referencedNames_iff.2 (.inl ⟨reference, rfl, named⟩)⟩)
    have related := corresponds.definitions name body body' (sees name mem inlines) inlines.2
      found found'
    refine grounded.expand_wrapping_agrees grounded' site named found' related.tidy_right
      (corresponds.kept ▸ inlines.2) ?_
    refine children { reference := some reference } child (sees.child child) _ ?_
    refine .of_alikeAt (.refl_of_mem ⟨List.nodup_nil, .nil, .nil⟩ List.nodup_nil ?_)
    simp [Schema.children]

end Expansion

end SchemaStream
