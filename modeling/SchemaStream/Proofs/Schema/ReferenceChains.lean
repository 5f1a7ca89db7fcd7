import SchemaStream.Proofs.Schema.Overlay

/-!
# Chains of references

A definition may itself be a reference to another.  Expansion puts a definition in without
the reference that it carries, so of a chain only the first definition is seen.
-/

namespace SchemaStream

namespace Expansion

variable {expansion : Expansion} {rank : String → Nat} {root node schema body : Schema}

/-! ## The nodes that expansion comes by -/

inductive Reached (expansion : Expansion) (root : Schema) : Schema → Prop
  | root : Reached expansion root root
  | child {node child : Schema} (above : Reached expansion root node)
      (stays : expansion.inlined? node = .ok none) (mem : child ∈ node.children) :
      Reached expansion root child
  | inlined {node definition : Schema} (above : Reached expansion root node)
      (found : expansion.inlined? node = .ok (some definition)) :
      Reached expansion root definition

/-- Where the root expands, so does every node on the way. -/
theorem Reached.expands (reached : expansion.Reached root node)
    (grounded : expansion.Grounded rank) {expanded : Schema}
    (ok : expansion.expand root = .ok expanded) : ∃ result, expansion.expand node = .ok result := by
  induction reached with
  | root => exact ⟨expanded, ok⟩
  | child above stays mem ih =>
      obtain ⟨result, h⟩ := ih
      rw [grounded.expand_eq, expandNode_eq_ok_iff] at h
      rcases h with ⟨definition, found, -⟩ | ⟨-, parts, hp, -⟩
      · cases stays.symm.trans found
      · obtain ⟨part, -, hc⟩ := Outcome.exists_of_forall₂ (expandParts_eq_ok_iff.1 hp).2.all mem
        exact ⟨part, by rw [grounded.expand_eq, hc]⟩
  | inlined above found ih =>
      obtain ⟨result, h⟩ := ih
      rw [grounded.expand_eq, expandNode_of_inlined found] at h
      exact ⟨result, h⟩

theorem Reached.everywhere {P : Schema → Prop} (reached : expansion.Reached root node)
    (keeps : ∀ definition site : Schema, P definition → P site → P (definition.overlaid site))
    (start : root.Everywhere P)
    (definitions : ∀ definition ∈ expansion.definitions, definition.2.Everywhere P) :
    node.Everywhere P := by
  induction reached with
  | root => exact start
  | child above stays mem ih => exact (Schema.everywhere_iff.1 ih).2 _ mem
  | inlined above found ih =>
      obtain ⟨reference, name, body, -, -, hb, -, rfl⟩ := inlined?_eq_some_iff.1 found
      obtain ⟨own, children⟩ :=
        Schema.everywhere_iff.1 (definitions _ (Members.mem_of_get?_eq_some hb))
      exact Schema.everywhere_iff.2 ⟨keeps body _ own (Schema.everywhere_iff.1 ih).1, children⟩

theorem Reached.wellFormed (reached : expansion.Reached root node) (start : root.WellFormed)
    (definitions : ∀ definition ∈ expansion.definitions, definition.2.WellFormed) :
    node.WellFormed :=
  reached.everywhere (fun _ _ tidy tidySite => tidy.overlaid tidySite) start definitions

/-! ## Following a chain to its end -/

/-- A node expanded, under what it carries itself, as the end of its chain of references. -/
inductive FullExpansion (expansion : Expansion) : Schema → Schema → Prop
  | last {schema full : Schema} (none : schema.reference = none)
      (expands : expansion.expand schema = .ok full) : FullExpansion expansion schema full
  | follow {schema body full : Schema} {reference : String}
      (refers : schema.reference = some reference)
      (found : Reference.resolve expansion.definitions reference = .ok body)
      (rest : FullExpansion expansion body full) :
      FullExpansion expansion schema (full.overlaid schema)

theorem fullExpansion_iff_of_none (none : schema.reference = none) {full : Schema} :
    FullExpansion expansion schema full ↔ expansion.expand schema = .ok full := by
  constructor
  · intro h
    cases h with
    | last _ expands => exact expands
    | follow refers => cases none.symm.trans refers
  · exact .last none

theorem fullExpansion_iff_of_some {reference : String} (refers : schema.reference = some reference)
    (found : Reference.resolve expansion.definitions reference = .ok body) {full : Schema} :
    FullExpansion expansion schema full ↔
      ∃ rest, FullExpansion expansion body rest ∧ full = rest.overlaid schema := by
  constructor
  · intro h
    cases h with
    | last none => cases none.symm.trans refers
    | follow refers' found' rest =>
        cases refers.symm.trans refers'
        cases found.symm.trans found'
        exact ⟨_, rest, rfl⟩
  · rintro ⟨rest, h, rfl⟩
    exact .follow refers found h

end Expansion

namespace Document

variable {value : Json} {document expanded : Document} {site : Schema} {reference : String}

/-- Expansion puts the definition, without a reference of its own, in the place of a node
that refers to it.  This is the end of the chain exactly if the definition has no reference,
or else shows no less without what its reference leads to. -/
theorem expansion_shows_chain_end_iff (parsed : ofJson value = .ok document)
    (acyclic : document.cyclicDefinitions = []) (succeeds : document.expand = .ok expanded)
    (reached : document.expansion.Reached document.schema site)
    (refers : site.reference = some reference) :
    ∃ body own result, document.resolve reference = .ok body ∧
      document.expansion.expand body.withoutReference = .ok own ∧
      document.expansion.expand site = .ok result ∧ (own.overlaid site).Reordered result ∧
      ((∃ full, document.expansion.FullExpansion site full ∧ full.Reordered result) ↔
        body.reference = none ∨
          ∃ full, document.expansion.FullExpansion body full ∧
            (full.overlaid site).Reordered (own.overlaid site)) := by
  have wellFormed := everywhere_of_ofJson Schema.preserved_tidy trivial parsed
  have grounded := grounded_expansion (nodup_keys_definitions parsed)
  obtain ⟨root, rootExpands, -⟩ := Outcome.bind_eq_ok_iff.1 succeeds
  obtain ⟨result, expands⟩ := reached.expands grounded rootExpands
  have siteWellFormed := reached.wellFormed wellFormed.schema wellFormed.definitions
  have tidySite := (Schema.everywhere_iff.1 siteWellFormed).1
  have step := expands
  rw [grounded.expand_eq] at step
  obtain ⟨name, body, named, hb⟩ := Expansion.exists_definition_of_expandNode refers step
  have found : Reference.resolve document.expansion.definitions reference = .ok body :=
    Expansion.resolve_eq_ok_iff.2 ⟨name, named, hb⟩
  have tidy := (Schema.everywhere_iff.1
    (wellFormed.definitions _ (Members.mem_of_get?_eq_some hb))).1
  have put : name ∉ document.expansion.kept := by simp [expansion, acyclic]
  have agree := grounded.expand_reference site refers named hb put tidy tidySite
  rw [expands] at agree
  obtain ⟨own, ownExpands, shows⟩ := agree.exists_of_ok_right
  refine ⟨body, own, result, found, ownExpands, expands, shows, ?_⟩
  constructor
  · rintro ⟨full, chain, same⟩
    obtain ⟨rest, h, rfl⟩ := (Expansion.fullExpansion_iff_of_some refers found).1 chain
    exact .inr ⟨rest, h, same.trans shows.symm⟩
  · rintro (none | ⟨rest, h, same⟩)
    · rw [Schema.withoutReference_of_eq_none none] at ownExpands
      exact ⟨own.overlaid site, .follow refers found (.last none ownExpands), shows⟩
    · exact ⟨rest.overlaid site, .follow refers found h, same.trans shows⟩

/-- One property refers to a definition that is a reference itself, one to the last of the two. -/
def chained : Document where
  root := .apart
    { types := [.object]
      properties :=
        [("x", { reference := some "#/definitions/A", description := some "site" }),
          ("y", { reference := some "#/definitions/B" })] }
  definitions := [("A", { reference := some "#/definitions/B" }), ("B", .ofType .string)]

def chainedJson : Json :=
  .object
    [("type", .string "object"),
      ("properties", .object
        [("x", .object [("$ref", .string "#/definitions/A"), ("description", .string "site")]),
          ("y", .object [("$ref", .string "#/definitions/B")])]),
      ("definitions", .object
        [("A", .object [("$ref", .string "#/definitions/B")]),
          ("B", .object [("type", .string "string")])])]

theorem reached_of_chained {child : Schema} (mem : child ∈ chained.schema.children) :
    chained.expansion.Reached chained.schema child :=
  .child .root rfl mem

theorem expansion_of_chained_shows_last :
    ∃ body own result, chained.resolve "#/definitions/B" = .ok body ∧
      chained.expansion.expand body.withoutReference = .ok own ∧
      chained.expansion.expand { reference := some "#/definitions/B" } = .ok result ∧
      (own.overlaid { reference := some "#/definitions/B" }).Reordered result ∧
      ((∃ full, chained.expansion.FullExpansion { reference := some "#/definitions/B" } full ∧
          full.Reordered result) ↔
        body.reference = none ∨
          ∃ full, chained.expansion.FullExpansion body full ∧
            (full.overlaid { reference := some "#/definitions/B" }).Reordered
              (own.overlaid { reference := some "#/definitions/B" })) :=
  expansion_shows_chain_end_iff (show ofJson chainedJson = .ok chained from rfl) (by decide)
    (show chained.expand = .ok
        { root := .apart
            { types := [.object]
              properties := [("x", { description := some "site" }), ("y", .ofType .string)] }
          definitions := [] } from rfl)
    (reached_of_chained (.tail _ (.head _))) rfl

/-- The property that refers to an alias loses the type at the end of the chain. -/
theorem not_every_chain_followed :
    ¬ ∀ (value : Json) (document expanded : Document) (site : Schema) (reference : String),
      ofJson value = .ok document → document.cyclicDefinitions = [] →
      document.expand = .ok expanded → document.expansion.Reached document.schema site →
      site.reference = some reference →
      ∃ full result, document.expansion.expand site = .ok result ∧
        document.expansion.FullExpansion site full ∧ full.Reordered result := by
  intro claim
  obtain ⟨full, result, expands, chain, same⟩ := claim chainedJson chained
    { root := .apart
        { types := [.object]
          properties := [("x", { description := some "site" }), ("y", .ofType .string)] }
      definitions := [] }
    { reference := some "#/definitions/A", description := some "site" } "#/definitions/A"
    rfl (by decide) rfl (reached_of_chained (.head _)) rfl
  have shown : result = { description := some "site" } := (Except.ok.inj expands).symm
  obtain ⟨first, rest, rfl⟩ := (Expansion.fullExpansion_iff_of_some rfl
    (show Reference.resolve chained.definitions "#/definitions/A" =
      .ok { reference := some "#/definitions/B" } from rfl)).1 chain
  obtain ⟨last, own, rfl⟩ := (Expansion.fullExpansion_iff_of_some rfl
    (show Reference.resolve chained.definitions "#/definitions/B" = .ok (.ofType .string)
      from rfl)).1 rest
  have typed : last = .ofType .string :=
    (Except.ok.inj ((Expansion.fullExpansion_iff_of_none rfl).1 own)).symm
  have types := congrArg Schema.types same.core
  subst shown typed
  exact absurd types (by decide)

end Document

end SchemaStream
