import SchemaStream.Proofs.Schema.Invariants
import SchemaStream.Proofs.Schema.Rounds
import SchemaStream.Proofs.Schema.Simulation

/-!
# Expanding what is expanded

In what expansion makes of a schema, no `allOf` is left, and no reference but those to kept
definitions.  Such a schema expands to itself.  An expanded document has the cycles of the
document that it comes from, so it keeps the same definitions, and expands to itself too.  Where
there is a cycle, the definitions outside of it are expanded one after the other.
-/

namespace SchemaStream

namespace Schema

/-- A node that expansion leaves as it is. -/
structure Expanded (kept : List String) (schema : Schema) : Prop where
  allOf : schema.allOf = []
  reference : ∀ reference, schema.reference = some reference →
    ∃ name ∈ kept, Reference.name? reference = some name

/-- A node that refers to none of some names. -/
def Avoids (names : List String) (schema : Schema) : Prop :=
  ∀ reference name, schema.reference = some reference → Reference.name? reference = some name →
    name ∉ names

end Schema

namespace Expansion

open Schema (Expanded everywhere_iff)

variable {expansion : Expansion} {below : Schema → Except SchemaError Schema}
  {rank : String → Nat} {schema result : Schema}

theorem Parts.ofNode_under (bare : schema.allOf = []) : (ofNode schema).under schema = schema := by
  obtain ⟨⟩ := schema
  cases bare
  rfl

theorem inlined?_of_expanded (defined : expansion.kept ⊆ Members.keys expansion.definitions)
    (expanded : schema.Expanded expansion.kept) : expansion.inlined? schema = .ok none := by
  refine inlined?_eq_none_iff.2 fun reference refers => ?_
  obtain ⟨name, kept, named⟩ := expanded.reference reference refers
  exact ⟨name, named, defined kept, kept⟩

theorem expandNode_of_expanded (defined : expansion.kept ⊆ Members.keys expansion.definitions)
    (everywhere : schema.Everywhere (Expanded expansion.kept)) :
    expandNode expansion below schema = .ok schema := by
  induction schema using Schema.induct with
  | node schema ih =>
      obtain ⟨own, children⟩ := everywhere_iff.1 everywhere
      have parts : expandParts expansion below schema = .ok (Parts.ofNode schema) := by
        refine expandParts_eq_ok_iff.2 ⟨by simp [own.allOf], Parts.Rel.refl_of_mem ?_⟩
        exact fun child mem => ih child mem (children child mem)
      rw [expandNode_of_stays (inlined?_of_expanded defined own), parts]
      exact congrArg Except.ok (Parts.ofNode_under own.allOf)

theorem expand_of_expanded (defined : expansion.kept ⊆ Members.keys expansion.definitions)
    (everywhere : schema.Everywhere (Expanded expansion.kept)) :
    expansion.expand schema = .ok schema := by
  rw [expand]
  cases expansion.definitions.length <;> exact expandNode_of_expanded defined everywhere

theorem Grounded.everywhere_expanded (grounded : expansion.Grounded rank)
    (expands : expansion.expand schema = .ok result) :
    result.Everywhere (Expanded expansion.kept) := by
  suffices every : ∀ result, expansion.expand schema = .ok result →
      result.Everywhere (Expanded expansion.kept) from every result expands
  refine grounded.induct (motive := fun schema => ∀ result, expansion.expand schema = .ok result →
    result.Everywhere (Expanded expansion.kept)) ?_ schema
  intro schema children inlined result expands
  rw [grounded.expand_eq, expandNode_eq_ok_iff] at expands
  rcases expands with ⟨definition, found, h⟩ | ⟨stays, parts, hp, rfl⟩
  · exact inlined definition found result h
  · obtain ⟨-, placed⟩ := expandParts_eq_ok_iff.1 hp
    have part (part : Schema) (mem : part ∈ parts.all) :
        part.Everywhere (Expanded expansion.kept) := by
      obtain ⟨child, below, h⟩ := Outcome.exists_of_forall₂ placed.all.flip mem
      rw [← grounded.expand_eq] at h
      exact children child below part h
    refine everywhere_iff.2 ⟨⟨allOf_under hp, fun reference refers => ?_⟩, fun child mem => ?_⟩
    · rw [reference_under] at refers
      obtain ⟨name, named, -, kept⟩ := inlined?_eq_none_iff.1 stays reference refers
      exact ⟨name, kept, named⟩
    · rcases Parts.mem_children_under placed.allOf.length_eq.symm mem with
        mem | ⟨member, all, mem⟩
      · exact part child mem
      · exact (everywhere_iff.1 (part member all)).2 child mem

theorem keeps_avoids (names : List String) : Keeps (Schema.Avoids names) :=
  Keeps.of_reference (R := fun own => ∀ reference name, own = some reference →
    Reference.name? reference = some name → name ∉ names) nofun

end Expansion

namespace Schema

variable {kept : List String} {schema : Schema}

theorem referencedNames_eq_nil (expanded : schema.Everywhere (Expanded kept))
    (avoids : schema.Everywhere (Avoids kept)) : schema.referencedNames = [] := by
  refine List.eq_nil_iff_forall_not_mem.2 fun name mem => ?_
  obtain ⟨node, below, found⟩ := List.mem_filterMap.1 mem
  obtain ⟨reference, refers, named⟩ := Option.bind_eq_some_iff.1 found
  obtain ⟨other, kept, same⟩ := (expanded node below).reference reference refers
  exact avoids node below reference other refers same kept

theorem everywhere_avoids (absent : ∀ name ∈ schema.referencedNames, name ∉ kept) :
    schema.Everywhere (Avoids kept) := by
  intro node below reference name refers named
  exact absent name (List.mem_filterMap.2 ⟨node, below, by simp [refers, named]⟩)

end Schema

namespace Document

open Schema (Expanded)

variable {kept pending : List String} {definitions result : Members Schema}
  {rank : String → Nat} {document expanded : Document}

theorem expandDefinitions_of_expanded (defined : kept ⊆ Members.keys definitions)
    (everywhere : ∀ name ∈ pending, ∀ body, Members.get? definitions name = some body →
      body.Everywhere (Expanded kept)) :
    expandDefinitions kept pending definitions = .ok definitions := by
  induction pending with
  | nil => rfl
  | cons name rest ih =>
      have rest := ih fun name mem => everywhere name (List.mem_cons_of_mem _ mem)
      rw [expandDefinitions]
      cases found : Members.get? definitions name with
      | none => exact rest
      | some body =>
          have own : Expansion.expand ⟨definitions, kept⟩ body = .ok body :=
            Expansion.expand_of_expanded defined (everywhere name List.mem_cons_self body found)
          dsimp only
          rw [own]
          change expandDefinitions kept _ (Members.insert definitions name body) = _
          rw [Members.insert_eq_self found]
          exact rest

/-- A pending definition is expanded in the end. -/
theorem everywhere_expanded_of_expandDefinitions
    (grounded : (⟨definitions, kept⟩ : Expansion).Grounded rank)
    (expands : expandDefinitions kept pending definitions = .ok result) {name : String}
    {body : Schema} (mem : name ∈ pending) (found : Members.get? result name = some body) :
    body.Everywhere (Expanded kept) := by
  induction pending generalizing definitions with
  | nil => exact absurd mem List.not_mem_nil
  | cons first rest ih =>
      rw [expandDefinitions] at expands
      cases before : Members.get? definitions first with
      | none =>
          rw [before] at expands
          by_cases later : name ∈ rest
          · exact ih grounded expands later
          · obtain rfl := (List.mem_cons.1 mem).resolve_right later
            rw [get?_expandDefinitions later expands, before] at found
            cases found
      | some own =>
          rw [before] at expands
          obtain ⟨expanded, step, expands⟩ := Outcome.bind_eq_ok_iff.1 expands
          by_cases later : name ∈ rest
          · exact ih (grounded.insert before step) expands later
          · obtain rfl := (List.mem_cons.1 mem).resolve_right later
            rw [get?_expandDefinitions later expands, Members.get?_insert, if_pos rfl] at found
            cases found
            exact grounded.everywhere_expanded step

theorem expandDefinitions_append (kept before after : List String) (definitions : Members Schema) :
    expandDefinitions kept (before ++ after) definitions = (do
      let table ← expandDefinitions kept before definitions
      expandDefinitions kept after table) := by
  induction before generalizing definitions with
  | nil => rfl
  | cons name rest ih =>
      rw [List.cons_append, expandDefinitions, expandDefinitions]
      cases Members.get? definitions name with
      | none => exact ih definitions
      | some body =>
          rw [bind_assoc]
          exact bind_congr fun expanded => ih _

/-- With some definitions expanded, the ranks of the others are as before. -/
theorem grounded_of_expandDefinitions
    (grounded : (⟨definitions, kept⟩ : Expansion).Grounded rank)
    (expands : expandDefinitions kept pending definitions = .ok result) :
    (⟨result, kept⟩ : Expansion).Grounded rank := by
  induction pending generalizing definitions with
  | nil =>
      cases expands
      exact grounded
  | cons name rest ih =>
      rw [expandDefinitions] at expands
      cases found : Members.get? definitions name with
      | none =>
          rw [found] at expands
          exact ih grounded expands
      | some body =>
          rw [found] at expands
          obtain ⟨expanded, step, expands⟩ := Outcome.bind_eq_ok_iff.1 expands
          exact ih (grounded.insert found step) expands

/-- The definitions that lead into no cycle. -/
def acyclicDefinitions (document : Document) : List String :=
  (Members.keys document.definitions).filter fun name => !document.cyclicDefinitions.contains name

theorem exists_turn {name : String} (absent : name ∉ document.cyclicDefinitions)
    (defined : name ∈ Members.keys document.definitions) :
    ∃ before after, document.acyclicDefinitions = before ++ name :: after :=
  List.append_of_mem (List.mem_filter.2 ⟨defined, by simpa using absent⟩)

/-- Where there is a cycle, a document only expands if each definition outside of it does in its
turn, with the table as it then stands. -/
theorem exists_expand_of_turn {before after : List String} {name : String} {body : Schema}
    (root : document.root = .apart document.schema)
    (distinct : (Members.keys document.definitions).Nodup)
    (expands : document.expand = .ok expanded) (cycle : document.cyclicDefinitions ≠ [])
    (turn : document.acyclicDefinitions = before ++ name :: after)
    (found : Members.get? document.definitions name = some body) :
    ∃ table result, Members.keys table = Members.keys document.definitions ∧
      (∀ other, other ∉ before →
        Members.get? table other = Members.get? document.definitions other) ∧
      (∃ rank, (⟨table, document.cyclicDefinitions⟩ : Expansion).Grounded rank) ∧
      Expansion.expand ⟨table, document.cyclicDefinitions⟩ body = .ok result := by
  rw [expand_of_apart root, Outcome.bind_eq_ok_iff] at expands
  obtain ⟨schema, -, expands⟩ := expands
  split at expands
  · next none => exact absurd (List.isEmpty_iff.1 none) cycle
  · obtain ⟨definitions, second, -⟩ := Outcome.bind_eq_ok_iff.1 expands
    change expandDefinitions _ document.acyclicDefinitions _ = _ at second
    have pending : (before ++ name :: after).Nodup := turn ▸ distinct.filter _
    have later : name ∉ before := fun mem =>
      (List.nodup_append.1 pending).2.2 name mem name List.mem_cons_self rfl
    rw [turn, expandDefinitions_append, Outcome.bind_eq_ok_iff] at second
    obtain ⟨table, sofar, second⟩ := second
    rw [expandDefinitions, get?_expandDefinitions later sofar, found] at second
    obtain ⟨result, own, -⟩ := Outcome.bind_eq_ok_iff.1 second
    exact ⟨table, result, keys_expandDefinitions sofar,
      fun other absent => get?_expandDefinitions absent sofar,
      ⟨_, grounded_of_expandDefinitions (grounded_expansion distinct) sofar⟩, own⟩

/-- A document that expansion leaves as it is. -/
structure Expanded (document : Document) : Prop where
  root : document.root = .apart document.schema
  schema : document.schema.Everywhere (Schema.Expanded document.cyclicDefinitions)
  definitions : ∀ name body, name ∉ document.cyclicDefinitions →
    Members.get? document.definitions name = some body →
      body.Everywhere (Schema.Expanded document.cyclicDefinitions)
  bare : document.cyclicDefinitions = [] → document.definitions = []

theorem Expanded.expand_eq (expanded : document.Expanded) : document.expand = .ok document := by
  have root := expanded.root
  have defined : document.expansion.kept ⊆ Members.keys document.expansion.definitions :=
    Definitions.cyclic_subset_keys
  rw [expand_of_apart root, Expansion.expand_of_expanded defined expanded.schema]
  change (if _ then _ else _) = _
  split
  · next none =>
      have bare := expanded.bare (List.isEmpty_iff.1 none)
      rw [← root, ← bare]
      rfl
  · have same : expandDefinitions document.cyclicDefinitions document.acyclicDefinitions
        document.definitions = .ok document.definitions := by
      refine expandDefinitions_of_expanded Definitions.cyclic_subset_keys ?_
      intro name pending body found
      exact expanded.definitions name body (by simpa using (List.mem_filter.1 pending).2) found
    rw [acyclicDefinitions] at same
    rw [same]
    change Except.ok { document with root := .apart document.schema } = _
    rw [← root]

/-- A definition that leads into no cycle does not refer to one that does. -/
theorem avoids_of_not_mem_cyclicDefinitions (distinct : (Members.keys document.definitions).Nodup)
    {definition : String × Schema} (mem : definition ∈ document.definitions)
    (absent : definition.1 ∉ document.cyclicDefinitions) :
    ∀ name ∈ definition.2.referencedNames, name ∉ document.cyclicDefinitions := by
  intro name refers cycles
  have found := Members.get?_eq_some_of_mem distinct mem
  exact absent ((Definitions.mem_cyclic_iff_exists distinct found).2 ⟨name, refers, cycles⟩)

section

variable (distinct : (Members.keys document.definitions).Nodup)
  (expands : expandDefinitions document.cyclicDefinitions document.acyclicDefinitions
    document.definitions = .ok result)
include distinct expands

theorem everywhere_expanded_of_not_mem_cyclicDefinitions {name : String} {body : Schema}
    (absent : name ∉ document.cyclicDefinitions) (found : Members.get? result name = some body) :
    body.Everywhere (Schema.Expanded document.cyclicDefinitions) := by
  have defined := keys_expandDefinitions expands ▸ Members.mem_keys_iff_exists_get?.2 ⟨body, found⟩
  exact everywhere_expanded_of_expandDefinitions (grounded_expansion distinct) expands
    (List.mem_filter.2 ⟨defined, by simpa using absent⟩) found

theorem cyclic_of_expandDefinitions : Definitions.cyclic result = document.cyclicDefinitions := by
  have avoids := (Expansion.keeps_avoids document.cyclicDefinitions).expandDefinitions
    (fun name absent => absent) (fun definition mem absent => Schema.everywhere_avoids
      (avoids_of_not_mem_cyclicDefinitions distinct mem absent)) expands
  refine Definitions.cyclic_eq_of_stays distinct (keys_expandDefinitions expands) ?_ ?_
  · intro name (kept : name ∈ document.cyclicDefinitions)
    exact get?_expandDefinitions (by simp [acyclicDefinitions, kept]) expands
  · intro name body absent found
    exact Schema.referencedNames_eq_nil
      (everywhere_expanded_of_not_mem_cyclicDefinitions distinct expands absent found)
      (avoids _ (Members.mem_of_get?_eq_some found) absent)

end

/-- A document expands to one that expansion leaves as it is, with the cycles it has itself. -/
theorem expanded_of_expand (root : document.root = .apart document.schema)
    (distinct : (Members.keys document.definitions).Nodup)
    (expands : document.expand = .ok expanded) :
    expanded.Expanded ∧ expanded.cyclicDefinitions = document.cyclicDefinitions ∧
      (Members.keys expanded.definitions).Nodup := by
  rw [expand_of_apart root, Outcome.bind_eq_ok_iff] at expands
  obtain ⟨schema, first, expands⟩ := expands
  have everywhere : schema.Everywhere (Schema.Expanded document.cyclicDefinitions) :=
    (grounded_expansion distinct).everywhere_expanded first
  split at expands
  · next acyclic =>
      cases expands
      rw [List.isEmpty_iff] at acyclic
      rw [acyclic] at everywhere
      refine ⟨⟨rfl, everywhere, ?_, fun _ => rfl⟩, acyclic.symm, List.nodup_nil⟩
      rintro name body - ⟨⟩
  · next cycles =>
      obtain ⟨definitions, second, expands⟩ := Outcome.bind_eq_ok_iff.1 expands
      cases expands
      have same := cyclic_of_expandDefinitions distinct second
      have put (name : String) (body : Schema) (absent : name ∉ document.cyclicDefinitions)
          (found : Members.get? definitions name = some body) :=
        everywhere_expanded_of_not_mem_cyclicDefinitions distinct second absent found
      have nonempty : document.cyclicDefinitions ≠ [] := fun h => cycles (List.isEmpty_iff.2 h)
      rw [← same] at everywhere put
      exact ⟨⟨rfl, everywhere, put, fun none => absurd (same.symm.trans none) nonempty⟩,
        same, keys_expandDefinitions second ▸ distinct⟩

end Document

end SchemaStream
