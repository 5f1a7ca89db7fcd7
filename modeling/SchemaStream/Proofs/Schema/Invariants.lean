import SchemaStream.Proofs.Schema.Remaining
import SchemaStream.Proofs.Schema.WellFormed

/-!
# Properties of nodes that expansion keeps

Expansion lays definitions under nodes, sets nodes up again from their parts and folds the
member of an `allOf` into its node.  A property of nodes that these three operations keep
holds everywhere in what a schema expands to, if it holds everywhere in the schema and in
the definitions that are put in.
-/

namespace SchemaStream

namespace Schema

variable {P Q : Schema → Prop} {schema : Schema}

theorem Everywhere.imp (everywhere : schema.Everywhere P) (weaken : ∀ node, P node → Q node) :
    schema.Everywhere Q :=
  fun node mem => weaken node (everywhere node mem)

theorem Everywhere.and (first : schema.Everywhere P) (second : schema.Everywhere Q) :
    schema.Everywhere fun node => P node ∧ Q node :=
  fun node mem => ⟨first node mem, second node mem⟩

end Schema

namespace Expansion

open Schema (everywhere_iff)

/-- A property of nodes that each operation of expansion on nodes keeps. -/
structure Keeps (P : Schema → Prop) : Prop where
  overlaid : ∀ {definition site : Schema}, P definition → P site → P (definition.overlaid site)
  placed : ∀ {schema : Schema} (parts : Parts), P schema →
    Members.keys parts.properties = Members.keys schema.properties →
      P { schema with
          properties := parts.properties
          items := parts.items
          anyOf := parts.anyOf
          oneOf := parts.oneOf }
  folded : ∀ {schema member : Schema}, P schema → P member → P (schema.folded member)

variable {P : Schema → Prop} {expansion : Expansion}
  {below : Schema → Except SchemaError Schema} {schema result : Schema} {parts : Parts}

namespace Keeps

/-- Expansion changes no reference of a node but to take it away. -/
theorem of_reference {R : Option String → Prop} (none : R none) :
    Keeps fun node => R node.reference where
  overlaid _ _ := none
  placed _ own _ := own
  folded own _ := own

theorem under (keeps : Keeps P) (own : P schema)
    (names : Members.keys parts.properties = Members.keys schema.properties)
    (members : ∀ part ∈ parts.allOf, P part) : P (parts.under schema) := by
  rw [Parts.under]
  cases sole : parts.allOf with
  | nil => exact keeps.placed parts own names
  | cons member others =>
      exact keeps.folded (keeps.placed parts own names) (members member (sole ▸ List.mem_cons_self))

section

variable (keeps : Keeps P)
  (definitions : ∀ definition ∈ expansion.definitions, definition.1 ∉ expansion.kept →
    definition.2.Everywhere P)
include keeps definitions

theorem expandNode
    (puts : ∀ definition result, definition.Everywhere P → below definition = .ok result →
      result.Everywhere P)
    (start : schema.Everywhere P) (expands : expandNode expansion below schema = .ok result) :
    result.Everywhere P := by
  induction schema using Schema.induct generalizing result with
  | node schema ih =>
      obtain ⟨own, children⟩ := everywhere_iff.1 start
      rcases expandNode_eq_ok_iff.1 expands with ⟨definition, found, h⟩ | ⟨-, parts, hp, rfl⟩
      · obtain ⟨_, name, body, -, -, defined, put, rfl⟩ := inlined?_eq_some_iff.1 found
        obtain ⟨top, inside⟩ :=
          everywhere_iff.1 (definitions _ (Members.mem_of_get?_eq_some defined) put)
        exact puts _ _ (everywhere_iff.2 ⟨keeps.overlaid top own, inside⟩) h
      · obtain ⟨-, placed⟩ := expandParts_eq_ok_iff.1 hp
        have part (part : Schema) (mem : part ∈ parts.all) : part.Everywhere P := by
          obtain ⟨child, below, h⟩ := Outcome.exists_of_forall₂ placed.all.flip mem
          exact ih child below (children child below) h
        refine everywhere_iff.2 ⟨keeps.under own ?_ ?_, fun child mem => ?_⟩
        · exact (Members.keys_eq_of_forall₂ (placed.properties.imp fun _ _ both => both.1)).symm
        · intro member mem
          have all : member ∈ parts.all := Parts.mem_all_iff.2 (by simp [mem])
          exact (everywhere_iff.1 (part member all)).1
        · rcases Parts.mem_children_under placed.allOf.length_eq.symm mem with
            mem | ⟨member, all, mem⟩
          · exact part child mem
          · exact (everywhere_iff.1 (part member all)).2 child mem

theorem expand (start : schema.Everywhere P) (expands : expansion.expand schema = .ok result) :
    result.Everywhere P := by
  rw [Expansion.expand] at expands
  generalize expansion.definitions.length = depth at expands
  induction depth generalizing schema result with
  | zero =>
      refine keeps.expandNode definitions ?_ start expands
      rintro definition _ everywhere ⟨⟩
      exact everywhere
  | succ depth ih => exact keeps.expandNode definitions (fun _ _ => ih) start expands

end

/-- What holds everywhere in some of the definitions, the ones that are put in among them, still
does once definitions are expanded. -/
theorem expandDefinitions (keeps : Keeps P) {kept pending : List String} {among : String → Prop}
    (put : ∀ name, name ∉ kept → among name) {definitions result : Members Schema}
    (start : ∀ definition ∈ definitions, among definition.1 → definition.2.Everywhere P)
    (expands : Document.expandDefinitions kept pending definitions = .ok result) :
    ∀ definition ∈ result, among definition.1 → definition.2.Everywhere P := by
  induction pending generalizing definitions with
  | nil =>
      cases expands
      exact start
  | cons name rest ih =>
      rw [Document.expandDefinitions] at expands
      cases found : Members.get? definitions name with
      | none =>
          rw [found] at expands
          exact ih start expands
      | some body =>
          simp only [found, Outcome.bind_eq_ok_iff] at expands
          obtain ⟨expanded, first, expands⟩ := expands
          refine ih (fun definition mem own => ?_) expands
          rcases Members.mem_insert mem with mem | rfl
          · exact start definition mem own
          · refine keeps.expand (fun other mem absent => ?_) ?_ first
            · exact start other mem (put other.1 absent)
            · exact start _ (Members.mem_of_get?_eq_some found) own

end Keeps

end Expansion

namespace Document

variable {P Q : Schema → Prop} {document expanded : Document}

theorem Everywhere.imp (everywhere : document.Everywhere P) (weaken : ∀ node, P node → Q node) :
    document.Everywhere Q :=
  ⟨everywhere.schema.imp weaken,
    fun definition mem => (everywhere.definitions definition mem).imp weaken⟩

theorem Everywhere.and (first : document.Everywhere P) (second : document.Everywhere Q) :
    document.Everywhere fun node => P node ∧ Q node :=
  ⟨first.schema.and second.schema, fun definition mem =>
    (first.definitions definition mem).and (second.definitions definition mem)⟩

theorem root_eq_apart_of_expand (root : document.root = .apart document.schema)
    (expands : document.expand = .ok expanded) : expanded.root = .apart expanded.schema := by
  rw [expand_of_apart root, Outcome.bind_eq_ok_iff] at expands
  obtain ⟨schema, -, expands⟩ := expands
  split at expands
  · cases expands
    rfl
  · obtain ⟨definitions, -, expands⟩ := Outcome.bind_eq_ok_iff.1 expands
    cases expands
    rfl

theorem Everywhere.expand (keeps : Expansion.Keeps P)
    (root : document.root = .apart document.schema) (start : document.Everywhere P)
    (expands : document.expand = .ok expanded) : expanded.Everywhere P := by
  rw [expand_of_apart root, Outcome.bind_eq_ok_iff] at expands
  obtain ⟨schema, first, expands⟩ := expands
  have everywhere := keeps.expand (fun definition mem _ => start.definitions definition mem)
    start.schema first
  split at expands
  · cases expands
    exact ⟨everywhere, List.forall_mem_nil _⟩
  · obtain ⟨definitions, second, expands⟩ := Outcome.bind_eq_ok_iff.1 expands
    cases expands
    have all := keeps.expandDefinitions (fun _ _ => trivial)
      (fun definition mem _ => start.definitions definition mem) second
    exact ⟨everywhere, fun definition mem => all definition mem trivial⟩

/-! ## The definitions of an expanded document -/

theorem keys_expandDefinitions {kept pending : List String} {definitions result : Members Schema}
    (expands : expandDefinitions kept pending definitions = .ok result) :
    Members.keys result = Members.keys definitions := by
  induction pending generalizing definitions with
  | nil =>
      rw [expandDefinitions, Except.ok.injEq] at expands
      rw [expands]
  | cons name rest ih =>
      rw [expandDefinitions] at expands
      cases found : Members.get? definitions name with
      | none =>
          rw [found] at expands
          exact ih expands
      | some body =>
          rw [found] at expands
          obtain ⟨expanded, -, expands⟩ := Outcome.bind_eq_ok_iff.1 expands
          have mem : name ∈ Members.keys definitions :=
            Members.mem_keys_iff_exists_get?.2 ⟨body, found⟩
          rw [ih expands, Members.keys_insert_of_mem expanded mem]

/-- A definition that is not pending stays as it is. -/
theorem get?_expandDefinitions {kept pending : List String} {definitions result : Members Schema}
    {name : String} (absent : name ∉ pending)
    (expands : expandDefinitions kept pending definitions = .ok result) :
    Members.get? result name = Members.get? definitions name := by
  induction pending generalizing definitions with
  | nil =>
      rw [expandDefinitions, Except.ok.injEq] at expands
      rw [expands]
  | cons first rest ih =>
      rw [List.mem_cons, not_or] at absent
      obtain ⟨ne, absent⟩ := absent
      rw [expandDefinitions] at expands
      cases found : Members.get? definitions first with
      | none =>
          rw [found] at expands
          exact ih absent expands
      | some body =>
          rw [found] at expands
          obtain ⟨expanded, -, expands⟩ := Outcome.bind_eq_ok_iff.1 expands
          rw [ih absent expands, Members.get?_insert, if_neg (Ne.symm ne)]

end Document

end SchemaStream
