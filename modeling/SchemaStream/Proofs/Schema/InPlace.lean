import SchemaStream.Proofs.Schema.ArenaExpansion
import SchemaStream.Proofs.Schema.ArenaReading

/-!
# Documents expanded in an arena

A document is read into an arena with every node at a place of its own.  If its definitions lead
into no cycle and are no references themselves, expansion in the arena has the outcome of
substitution: the same fault, or the same document, again with every node at its own place.
-/

namespace SchemaStream

open Outcome (Ends)

/-- What is left of a document without its definitions. -/
def Document.withoutDefinitions (document : Document) (schema : Schema) : Document :=
  { root := .apart schema, definitions := [], table := document.table }

namespace Arena

variable {arena : Arena} {layout : Layout} {document : Document}

theorem Lays.holds (lays : arena.Lays layout) : arena.Holds layout.bodies [layout.root] := by
  refine ⟨lays.definitions, fun body mem => ?_, lays.apart.append_left, ?_⟩
  · exact lays.apart.append_right.stored _ (List.mem_map_of_mem mem)
  · intro body mem place under before
    refine lays.apart.disjoint place before (List.mem_flatMap.2 ⟨body.2, ?_, under⟩)
    exact List.mem_map_of_mem mem

/-! ## Expansion with nothing kept -/

section

variable {rank : String → Nat}
  (grounded : (⟨Members.mapValues Placed.schema layout.bodies, []⟩ : Expansion).Grounded rank)
include grounded

theorem Lays.ends_fault (lays : arena.Lays layout) {fault : SchemaError}
    (fails : Expansion.expand ⟨Members.mapValues Placed.schema layout.bodies, []⟩
      layout.root.schema = .error fault) :
    Ends (fun depth => expand [] depth arena) (.error fault) := by
  have gives := gives_expand rfl grounded (List.nil_subset _) layout.root lays.holds
  rw [fails, ← lays.root] at gives
  exact Ends.bind_fault gives

/-- The expanded root stands where the root stood, and apart from the definitions. -/
theorem Lays.ends_ok (lays : arena.Lays layout) {schema : Schema}
    (expands : Expansion.expand ⟨Members.mapValues Placed.schema layout.bodies, []⟩
      layout.root.schema = .ok schema) :
    ∃ nodes root, Ends (fun depth => expand [] depth arena)
        (.ok { arena with nodes, definitions := [] }) ∧
      arena.root = root.place ∧ root.schema = schema ∧
      Laid nodes (root :: layout.bodies.map Prod.snd) := by
  have gives := gives_expand rfl grounded (List.nil_subset _) layout.root lays.holds
  rw [expands, ← lays.root] at gives
  obtain ⟨root, nodes, ends, there, same, changed⟩ := gives
  exact ⟨nodes, root, ends.bind ⟨0, fun _ _ => rfl⟩, lays.root.trans there.symm, same,
    (lays.withRoot there changed).laid⟩

end

/-- Expansion in an arena has the outcome of substitution. -/
theorem expansion_refines_substitution {value : Json}
    (read : Document.ofJson value = .ok document) (acyclic : document.cyclicDefinitions = [])
    (plain : ∀ definition ∈ document.definitions, definition.2.reference = none) :
    ∃ arena layout outcome, ofJson value = .ok arena ∧
      Lays arena layout ∧ layout.document arena.table = document ∧
      (∀ other, Definitions.Substitutes document.definitions document.schema other ↔
        other = outcome) ∧
      document.expand = outcome.map document.withoutDefinitions ∧
      (∀ fault, outcome = .error fault →
        Ends (fun depth => arena.expand document.cyclicDefinitions depth) (.error fault)) ∧
      (∀ schema, outcome = .ok schema →
        (schema.Everywhere fun node => node.reference = none ∧ node.allOf = []) ∧
        ∃ result root,
          Ends (fun depth => arena.expand document.cyclicDefinitions depth) (.ok result) ∧
          result.definitions = [] ∧ Lays result ⟨root, []⟩ ∧
          (⟨root, []⟩ : Layout).document result.table = document.withoutDefinitions schema ∧
          Laid result.nodes (root :: layout.bodies.map Prod.snd)) ∧
      ∀ (before after : Arena) site others, before.Holds layout.bodies (site :: others) →
        Ends (fun depth => before.expandNode document.cyclicDefinitions depth site.place)
          (.ok after) →
        ∃ expanded, expanded.place = site.place ∧
          after.Holds layout.bodies (expanded :: others) := by
  have agrees := ofJson_agrees value
  rw [read] at agrees
  obtain ⟨arena, reads, layout, lays, rfl⟩ := agrees.exists_of_ok_left
  have apart := Document.root_eq_apart read
  have grounded := Document.grounded_expansion (Document.nodup_keys_definitions read)
  rw [Document.expansion, acyclic] at grounded
  refine ⟨arena, layout,
    Expansion.expand ⟨Members.mapValues Placed.schema layout.bodies, []⟩ layout.root.schema,
    reads, lays, rfl, fun other => ?_, ?_, ?_, ?_, ?_⟩
  · exact (Definitions.substitutes_iff grounded fun name body found =>
      plain _ (Members.mem_of_get?_eq_some found)).trans eq_comm
  · rw [Document.expand_of_apart apart, Document.expansion, acyclic]
    rfl
  · intro fault fails
    rw [acyclic]
    exact lays.ends_fault grounded fails
  · intro schema expands
    refine ⟨(grounded.everywhere_expanded expands).imp fun node expanded =>
      ⟨?_, expanded.allOf⟩, ?_⟩
    · refine Option.eq_none_iff_forall_ne_some.2 fun reference refers => ?_
      obtain ⟨name, kept, -⟩ := expanded.reference reference refers
      cases kept
    · obtain ⟨nodes, root, ends, start, rfl, laid⟩ := lays.ends_ok grounded expands
      rw [acyclic]
      refine ⟨_, root, ends, rfl, ⟨start, rfl, ?_⟩, rfl, laid⟩
      exact laid.subperm (List.sublist_append_left [root] _).subperm
  · intro before after site others holds ends
    rw [acyclic] at ends
    obtain ⟨expanded, there, -, holds⟩ :=
      exists_holds_of_ends rfl grounded (List.nil_subset _) holds ends
    exact ⟨expanded, there, holds⟩

/-- A definition used twice, once through an `allOf`, which itself uses another. -/
def sharedJson : Json :=
  .object
    [("type", .string "object"),
      ("properties", .object
        [("from", .object [("$ref", .string "#/$defs/Stop")]),
          ("to", .object
            [("description", .string "last"),
              ("allOf", .array [.object [("$ref", .string "#/$defs/Stop")]])])]),
      ("$defs", .object
        [("Stop", .object
          [("type", .string "object"),
            ("properties", .object [("name", .object [("$ref", .string "#/$defs/Name")])])]),
          ("Name", .object [("type", .string "string")])])]

def shared : Document where
  root := .apart
    { types := [.object]
      properties :=
        [("from", { reference := some "#/$defs/Stop" }),
          ("to", { description := some "last", allOf := [{ reference := some "#/$defs/Stop" }] })] }
  definitions :=
    [("Stop",
        { types := [.object]
          properties := [("name", { reference := some "#/$defs/Name" })] }),
      ("Name", { types := [.string] })]
  table := .defs

def sharedExpanded : Schema :=
  let stop : Schema := { types := [.object], properties := [("name", { types := [.string] })] }
  { types := [.object]
    properties := [("from", stop), ("to", { stop with description := some "last" })] }

theorem shared_definition_is_copied : ∃ arena layout result root,
    ofJson sharedJson = .ok arena ∧ Lays arena layout ∧
    Ends (fun depth => arena.expand [] depth) (.ok result) ∧ Lays result ⟨root, []⟩ ∧
    root.schema = sharedExpanded ∧ Laid result.nodes (root :: layout.bodies.map Prod.snd) := by
  have read : Document.ofJson sharedJson = .ok shared := rfl
  have expands : shared.expand = .ok (shared.withoutDefinitions sharedExpanded) := rfl
  obtain ⟨arena, layout, outcome, reads, lays, -, -, same, -, refined, -⟩ :=
    expansion_refines_substitution read rfl (by simp [shared])
  rw [expands] at same
  cases outcome with
  | error fault => cases same
  | ok schema =>
      cases same
      obtain ⟨-, result, root, ends, -, result_lays, document, laid⟩ := refined sharedExpanded rfl
      exact ⟨arena, layout, result, root, reads, lays, ends, result_lays,
        Root.apart.inj (congrArg Document.root document), laid⟩

end Arena

end SchemaStream
