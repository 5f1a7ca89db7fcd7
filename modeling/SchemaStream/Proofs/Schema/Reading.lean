import SchemaStream.Proofs.Json.Reordering
import SchemaStream.Proofs.Outcome
import SchemaStream.Proofs.Schema.Written

/-!
# Properties that reading establishes

What holds of the empty node and is preserved by every keyword that is read on top of a
node holds of every node of a schema that is read.
-/

namespace SchemaStream

namespace Schema

/-! ## Every node of a schema -/

def Everywhere (P : Schema → Prop) (schema : Schema) : Prop := ∀ node ∈ schema.preorder, P node

instance {P : Schema → Prop} [DecidablePred P] (schema : Schema) :
    Decidable (schema.Everywhere P) :=
  inferInstanceAs (Decidable (∀ node ∈ schema.preorder, P node))

variable {P : Schema → Prop} {schema result : Schema} {name : String} {value : Json}

theorem everywhere_iff :
    schema.Everywhere P ↔ P schema ∧ ∀ child ∈ schema.children, child.Everywhere P := by
  constructor
  · intro h
    refine ⟨h schema (mem_preorder_iff.2 (.inl rfl)), fun child mem node below => ?_⟩
    exact h node (mem_preorder_iff.2 (.inr ⟨child, mem, below⟩))
  · rintro ⟨own, below⟩ node mem
    rcases mem_preorder_iff.1 mem with rfl | ⟨child, mem, h⟩
    · exact own
    · exact below child mem node h

/-! ## Reading -/

/-- One keyword read on top of a node. -/
def readKeyword (schema : Schema) (name : String) (value : Json) : Except SchemaError Schema :=
  match Keyword.ofName name with
  | .type => do
      let (types, listed) ← readTypes value
      pure { schema with types := types, typesListed := listed }
  | .properties => do pure { schema with properties := ← readTable value }
  | .required => do pure { schema with required := ← readNames value }
  | .items => do pure { schema with items := some (← ofJson value) }
  | .anyOf => do pure { schema with anyOf := ← readCombinator name value }
  | .oneOf => do pure { schema with oneOf := ← readCombinator name value }
  | .allOf => do pure { schema with allOf := ← readCombinator name value }
  | .enumeration => do pure { schema with enumeration := some (← readEnumeration value) }
  | .reference => do
      pure { schema with reference := some (← readText .referenceNotString value) }
  | .description => do
      pure { schema with description := some (← readText .descriptionNotString value) }
  | .extensions =>
      pure { schema with extensions := Members.insert schema.extensions name value }
  | .other => pure { schema with keywords := Members.insert schema.keywords name value }

theorem readKeywords_cons (schema : Schema) (name : String) (value : Json)
    (rest : List (String × Json)) :
    readKeywords schema ((name, value) :: rest) =
      (readKeyword schema name value >>= fun schema => readKeywords schema rest) := by
  rw [readKeywords, readKeyword]
  cases Keyword.ofName name <;> simp only [bind_assoc, pure_bind]

/-! ## Keywords that are read once -/

theorem holds_of_readKeywords_of_absent {members : Members Json}
    (keeps : ∀ before after other written, other ≠ name →
      readKeyword before other written = .ok after → P before → P after)
    (absent : name ∉ Members.keys members) (read : readKeywords schema members = .ok result)
    (start : P schema) : P result := by
  induction members generalizing schema with
  | nil =>
      cases read
      exact start
  | cons member rest ih =>
      obtain ⟨other, absent⟩ := not_or.1 (mt List.mem_cons.2 absent)
      rw [readKeywords_cons, Outcome.bind_eq_ok_iff] at read
      obtain ⟨next, first, read⟩ := read
      exact ih absent read (keeps _ _ _ _ (Ne.symm other) first start)

/-- What reading a member establishes, and reading no other member undoes, is so in the end. -/
theorem holds_of_readKeywords {members : Members Json}
    (distinct : (Members.keys members).Nodup) (mem : (name, value) ∈ members)
    (read : readKeywords schema members = .ok result)
    (own : ∀ before after, readKeyword before name value = .ok after → P after)
    (keeps : ∀ before after other written, other ≠ name →
      readKeyword before other written = .ok after → P before → P after) : P result := by
  induction members generalizing schema with
  | nil => cases mem
  | cons member rest ih =>
      obtain ⟨apart, distinct⟩ := List.nodup_cons.1 distinct
      rw [readKeywords_cons, Outcome.bind_eq_ok_iff] at read
      obtain ⟨next, first, read⟩ := read
      rcases List.mem_cons.1 mem with rfl | later
      · exact holds_of_readKeywords_of_absent keeps apart read (own _ _ first)
      · exact ih distinct later read

/-! ## Where nodes are read from -/

/-- The node that is read from a written schema. -/
def ReadFrom (written : Json) (node : Schema) : Prop := ofJson written = .ok node

/-- The children that a node has under a keyword. -/
def childrenAt (schema : Schema) : Keyword → List Schema
  | .properties => schema.properties.map Prod.snd
  | .items => schema.items.toList
  | .anyOf => schema.anyOf
  | .oneOf => schema.oneOf
  | .allOf => schema.allOf
  | _ => []

theorem mem_children_iff_childrenAt {child : Schema} :
    child ∈ schema.children ↔ ∃ keyword, child ∈ schema.childrenAt keyword := by
  rw [mem_children_iff]
  constructor
  · rintro (mem | mem | mem | mem | mem)
    · exact ⟨.properties, mem⟩
    · exact ⟨.items, Option.mem_toList.2 mem⟩
    · exact ⟨.anyOf, mem⟩
    · exact ⟨.oneOf, mem⟩
    · exact ⟨.allOf, mem⟩
  · rintro ⟨keyword, mem⟩
    cases keyword with
    | properties => exact .inl mem
    | items => exact .inr (.inl (Option.mem_toList.1 mem))
    | anyOf => exact .inr (.inr (.inl mem))
    | oneOf => exact .inr (.inr (.inr (.inl mem)))
    | allOf => exact .inr (.inr (.inr (.inr mem)))
    | _ => cases mem

/-- A table has the names that are written, each for the node that is read there. -/
theorem forall₂_of_readProperties {entries : List (String × Json)} {table : Members Schema}
    (read : readProperties entries = .ok table) :
    List.Forall₂ (fun entry property => entry.1 = property.1 ∧ ReadFrom entry.2 property.2)
      entries table := by
  rw [readProperties_eq_mapM, Outcome.mapM_eq_ok_iff] at read
  refine read.imp fun entry property found => ?_
  obtain ⟨schema, reads, same⟩ := Outcome.bind_eq_ok_iff.1 found
  cases same
  exact ⟨rfl, reads⟩

theorem exists_of_readProperties {entries : List (String × Json)} {table : Members Schema}
    (read : readProperties entries = .ok table) {property : String × Schema}
    (mem : property ∈ table) : ∃ entry ∈ entries, ofJson entry.2 = .ok property.2 := by
  obtain ⟨entry, below, -, reads⟩ :=
    Outcome.exists_of_forall₂ (forall₂_of_readProperties read).flip mem
  exact ⟨entry, below, reads⟩

theorem forall₂_of_readTable {table : Members Schema} (read : readTable value = .ok table) :
    List.Forall₂ ReadFrom (Json.subschemasAt .properties value) (table.map Prod.snd) := by
  cases value with
  | object entries =>
      rw [Json.subschemasAt, List.forall₂_map_left_iff, List.forall₂_map_right_iff]
      exact (forall₂_of_readProperties read).imp fun _ _ both => both.2
  | _ => cases read

theorem exists_of_readCombinator {members : List Schema}
    (read : readCombinator name value = .ok members) :
    ∃ values, value = .array values ∧ List.Forall₂ ReadFrom values members := by
  cases value with
  | array values =>
      rw [readCombinator, readMembers_eq_mapM, Outcome.mapM_eq_ok_iff] at read
      exact ⟨values, rfl, read⟩
  | _ => cases read

/-- The children under the keyword that is read are those written there, and the others stay. -/
theorem childrenAt_of_readKeyword (read : readKeyword schema name value = .ok result)
    (keyword : Keyword) :
    (keyword = Keyword.ofName name ∧
        List.Forall₂ ReadFrom (Json.subschemasAt keyword value) (result.childrenAt keyword)) ∨
      (keyword ≠ Keyword.ofName name ∧
        result.childrenAt keyword = schema.childrenAt keyword) := by
  rw [readKeyword] at read
  cases named : Keyword.ofName name with
  | extensions | other =>
      simp only [named, pure, Except.pure, Except.ok.injEq] at read
      subst read
      cases keyword <;> simp [childrenAt, Json.subschemasAt]
  | properties =>
      simp only [named, Outcome.bind_eq_ok_iff, pure, Except.pure, Except.ok.injEq] at read
      obtain ⟨table, found, rfl⟩ := read
      have own := forall₂_of_readTable found
      cases keyword <;> simp [childrenAt, own]
  | items =>
      simp only [named, Outcome.bind_eq_ok_iff, pure, Except.pure, Except.ok.injEq] at read
      obtain ⟨item, found, rfl⟩ := read
      have own : List.Forall₂ ReadFrom [value] [item] := .cons found .nil
      cases keyword <;> simp [childrenAt, Json.subschemasAt, own]
  | anyOf | oneOf | allOf =>
      simp only [named, Outcome.bind_eq_ok_iff, pure, Except.pure, Except.ok.injEq] at read
      obtain ⟨members, found, rfl⟩ := read
      obtain ⟨values, rfl, own⟩ := exists_of_readCombinator found
      cases keyword <;> simp [childrenAt, Json.subschemasAt, own]
  | _ =>
      simp only [named, Outcome.bind_eq_ok_iff, pure, Except.pure, Except.ok.injEq] at read
      obtain ⟨_, -, rfl⟩ := read
      cases keyword <;> simp [childrenAt, Json.subschemasAt]

theorem exists_subschema_of_readKeywords {members : List (String × Json)}
    (read : readKeywords schema members = .ok result) {child : Schema}
    (mem : child ∈ result.children) :
    child ∈ schema.children ∨
      ∃ written ∈ Json.subschemas (.object members), ofJson written = .ok child := by
  induction members generalizing schema with
  | nil =>
      rw [readKeywords, Except.ok.injEq] at read
      exact .inl (read ▸ mem)
  | cons member rest ih =>
      obtain ⟨name, value⟩ := member
      rw [readKeywords_cons, Outcome.bind_eq_ok_iff] at read
      obtain ⟨next, first, read⟩ := read
      rw [Json.subschemas, List.flatMap_cons]
      simp only [List.mem_append, or_and_right, exists_or]
      rcases ih read with mem | later
      · obtain ⟨keyword, mem⟩ := mem_children_iff_childrenAt.1 mem
        rcases childrenAt_of_readKeyword first keyword with ⟨rfl, all⟩ | ⟨-, same⟩
        · exact .inr (.inl (Outcome.exists_of_forall₂ all.flip mem))
        · exact .inl (mem_children_iff_childrenAt.2 ⟨keyword, same ▸ mem⟩)
      · exact .inr (.inr later)

theorem exists_subschema_of_ofJson (read : ofJson value = .ok schema) {child : Schema}
    (mem : child ∈ schema.children) : ∃ written ∈ value.subschemas, ofJson written = .ok child := by
  have bare {child : Schema} : child ∉ ({} : Schema).children := by simp [children]
  cases value with
  | object members =>
      rw [ofJson] at read
      exact (exists_subschema_of_readKeywords read mem).resolve_left bare
  | bool value =>
      cases value with
      | false => simp [ofJson] at read
      | true =>
          rw [ofJson, Except.ok.injEq] at read
          exact absurd mem (read ▸ bare)
  | _ => simp [ofJson] at read

/-- Every node of a schema that is read is read from a position of the value. -/
theorem exists_position_of_ofJson (read : ofJson value = .ok schema) {node : Schema}
    (mem : node ∈ schema.preorder) : ∃ position ∈ value.positions, ofJson position = .ok node := by
  induction schema using Schema.induct generalizing value with
  | node schema ih =>
      rcases mem_preorder_iff.1 mem with rfl | ⟨child, below, mem⟩
      · exact ⟨value, Json.mem_positions_iff.2 (.inl rfl), read⟩
      · obtain ⟨written, under, reads⟩ := exists_subschema_of_ofJson read below
        obtain ⟨position, within, found⟩ := ih child below reads mem
        exact ⟨position, Json.mem_positions_iff.2 (.inr ⟨written, under, within⟩), found⟩

theorem ofName_eq_reference_iff : Keyword.ofName name = .reference ↔ name = "$ref" := by
  constructor
  · intro same
    unfold Keyword.ofName at same
    repeat' split at same
    all_goals first | assumption | cases same
  · rintro rfl
    decide

/-- The reference is the one that is read, and stays under any other keyword. -/
theorem reference_of_readKeyword (read : readKeyword schema name value = .ok result) :
    (name = "$ref" ∧ ∃ text, value = .string text ∧ result.reference = some text) ∨
      (name ≠ "$ref" ∧ result.reference = schema.reference) := by
  rw [ne_eq, ← ofName_eq_reference_iff]
  rw [readKeyword] at read
  cases named : Keyword.ofName name with
  | reference =>
      simp only [named, Outcome.bind_eq_ok_iff, pure, Except.pure, Except.ok.injEq] at read
      obtain ⟨text, found, rfl⟩ := read
      cases value with
      | string text =>
          cases found
          exact .inl ⟨rfl, text, rfl, rfl⟩
      | _ => cases found
  | extensions | other =>
      simp only [named, pure, Except.pure, Except.ok.injEq] at read
      subst read
      exact .inr ⟨nofun, rfl⟩
  | _ =>
      simp only [named, Outcome.bind_eq_ok_iff, pure, Except.pure, Except.ok.injEq] at read
      obtain ⟨_, -, rfl⟩ := read
      exact .inr ⟨nofun, rfl⟩

theorem mem_references_of_readKeywords {members : List (String × Json)}
    (read : readKeywords schema members = .ok result) {reference : String}
    (refers : result.reference = some reference) :
    schema.reference = some reference ∨ reference ∈ Json.references (.object members) := by
  simp only [Json.mem_references_iff]
  induction members generalizing schema with
  | nil =>
      rw [readKeywords, Except.ok.injEq] at read
      exact .inl (read ▸ refers)
  | cons member rest ih =>
      obtain ⟨name, value⟩ := member
      rw [readKeywords_cons, Outcome.bind_eq_ok_iff] at read
      obtain ⟨next, first, read⟩ := read
      rcases ih read with own | later
      · rcases reference_of_readKeyword first with ⟨rfl, text, rfl, new⟩ | ⟨-, same⟩
        · cases own.symm.trans new
          exact .inr List.mem_cons_self
        · exact .inl (same.symm.trans own)
      · exact .inr (List.mem_cons_of_mem _ later)

/-- The reference of a node is written at the position that the node is read from. -/
theorem mem_references_of_ofJson (read : ofJson value = .ok schema) {reference : String}
    (refers : schema.reference = some reference) : reference ∈ value.references := by
  cases value with
  | object members =>
      rw [ofJson] at read
      exact (mem_references_of_readKeywords read refers).resolve_left nofun
  | bool value =>
      cases value with
      | false => simp [ofJson] at read
      | true =>
          rw [ofJson, Except.ok.injEq] at read
          subst read
          cases refers
  | _ => simp [ofJson] at read

/-! ## Properties of the nodes -/

/-- A property of nodes that reading establishes at every node of a value satisfying `Q`,
because the empty node has it and every keyword that is read preserves it. -/
structure Preserved (P : Schema → Prop) (Q : Json → Prop) : Prop where
  empty : P {}
  keyword : ∀ schema name value result, P schema → Q value →
    readKeyword schema name value = .ok result → P result
  items : ∀ items, Q (.array items) → ∀ item ∈ items, Q item
  members : ∀ members, Q (.object members) → ∀ member ∈ members, Q member.2

namespace Preserved

variable {Q : Json → Prop} {members : List (String × Json)}

theorem everywhere_empty (preserved : Preserved P Q) : Everywhere P {} := by
  refine everywhere_iff.2 ⟨preserved.empty, ?_⟩
  simp [children]

theorem readKeywords (preserved : Preserved P Q) (values : ∀ member ∈ members, Q member.2)
    (start : P schema) (read : readKeywords schema members = .ok result) : P result := by
  induction members generalizing schema with
  | nil =>
      rw [Schema.readKeywords, Except.ok.injEq] at read
      exact read ▸ start
  | cons member rest ih =>
      obtain ⟨name, value⟩ := member
      rw [readKeywords_cons, Outcome.bind_eq_ok_iff] at read
      obtain ⟨next, first, read⟩ := read
      rw [List.forall_mem_cons] at values
      exact ih values.2 (preserved.keyword _ _ _ _ start values.1 first) read

theorem subschema (preserved : Preserved P Q) (values : ∀ member ∈ members, Q member.2)
    {written : Json} (mem : written ∈ Json.subschemas (.object members)) : Q written := by
  obtain ⟨⟨name, value⟩, below, mem⟩ := Json.mem_subschemas_iff.1 mem
  have h : Q value := values _ below
  dsimp only at mem
  cases hk : Keyword.ofName name with
  | items =>
      rw [hk] at mem
      exact List.mem_singleton.1 mem ▸ h
  | properties =>
      rw [hk] at mem
      cases value with
      | object table =>
          obtain ⟨entry, within, rfl⟩ := List.mem_map.1 mem
          exact preserved.members table h entry within
      | _ => exact absurd mem List.not_mem_nil
  | anyOf | oneOf | allOf =>
      rw [hk] at mem
      cases value with
      | array options => exact preserved.items options h written mem
      | _ => exact absurd mem List.not_mem_nil
  | _ =>
      rw [hk] at mem
      exact absurd mem List.not_mem_nil

theorem everywhere_of_readKeywords (preserved : Preserved P Q)
    (values : ∀ member ∈ members, Q member.2) (read : Schema.readKeywords {} members = .ok schema) :
    schema.Everywhere P := by
  induction schema using Schema.induct generalizing members with
  | node schema ih =>
      refine everywhere_iff.2 ⟨preserved.readKeywords values preserved.empty read, ?_⟩
      intro child mem
      have read : ofJson (.object members) = .ok schema := read
      obtain ⟨written, below, reads⟩ := exists_subschema_of_ofJson read mem
      have h := preserved.subschema values below
      cases written with
      | object inner => exact ih child mem (preserved.members inner h) reads
      | bool value =>
          cases value with
          | false => simp [ofJson] at reads
          | true =>
              rw [ofJson, Except.ok.injEq] at reads
              exact reads ▸ preserved.everywhere_empty
      | _ => simp [ofJson] at reads

theorem everywhere_of_ofJson (preserved : Preserved P Q) (h : Q value)
    (read : ofJson value = .ok schema) : schema.Everywhere P := by
  cases value with
  | object members => exact preserved.everywhere_of_readKeywords (preserved.members members h) read
  | bool value =>
      cases value with
      | false => simp [ofJson] at read
      | true =>
          rw [ofJson, Except.ok.injEq] at read
          exact read ▸ preserved.everywhere_empty
  | _ => simp [ofJson] at read

end Preserved

theorem keys_of_readProperties {entries : List (String × Json)} {table : Members Schema}
    (read : readProperties entries = .ok table) : Members.keys table = Members.keys entries :=
  (Members.forall₂_iff.1 (forall₂_of_readProperties read)).1.symm

end Schema

end SchemaStream
