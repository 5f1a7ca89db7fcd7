import SchemaStream.Proofs.Schema.Invariants

/-!
# The vocabulary of a schema

The names that the nodes of a schema give to properties, and the members of their
enumerations.  Expansion only moves nodes about, so it brings in no other names and no other
members than the document has.
-/

namespace SchemaStream

namespace Schema

/-- What the properties of a node are called, and what its enumeration holds. -/
structure Uses (names : String → Prop) (members : Json → Prop) (schema : Schema) : Prop where
  names : ∀ name ∈ Members.keys schema.properties, names name
  members : ∀ member ∈ schema.enumeration.getD [], members member

variable {names : String → Prop} {members : Json → Prop} {schema : Schema}

theorem uses_iff :
    schema.Uses names members ↔ (∀ name ∈ Members.keys schema.properties, names name) ∧
      ∀ member ∈ schema.enumeration.getD [], members member :=
  ⟨fun uses => ⟨uses.names, uses.members⟩, fun both => ⟨both.1, both.2⟩⟩

instance [DecidablePred names] [DecidablePred members] : DecidablePred (Uses names members) :=
  fun _ => decidable_of_iff _ uses_iff.symm

/-- Members of enumerations in a value without repeated names have none either. -/
theorem preserved_distinct_members :
    Preserved (fun node => ∀ member ∈ node.enumeration.getD [], member.distinct = true)
      fun value => value.distinct = true where
  empty := nofun
  keyword := by
    intro schema name value result own distinct read
    rw [readKeyword] at read
    cases h : Keyword.ofName name with
    | enumeration =>
        simp only [h, Outcome.bind_eq_ok_iff, pure, Except.pure, Except.ok.injEq] at read
        obtain ⟨values, found, rfl⟩ := read
        cases value with
        | array items =>
            cases found
            exact Json.distinct_array_iff.1 distinct
        | _ => simp [readEnumeration] at found
    | extensions | other =>
        simp only [h, pure, Except.pure, Except.ok.injEq] at read
        subst read
        exact own
    | _ =>
        simp only [h, Outcome.bind_eq_ok_iff, pure, Except.pure, Except.ok.injEq] at read
        obtain ⟨_, -, rfl⟩ := read
        exact own
  items := fun _ => Json.distinct_array_iff.1
  members := fun _ distinct => (Json.distinct_object_iff.1 distinct).2

end Schema

open Schema (Uses)

variable {names : String → Prop} {members : Json → Prop}

theorem Expansion.keeps_uses : Expansion.Keeps (Uses names members) where
  overlaid own _ := ⟨own.names, own.members⟩
  placed _ own same := ⟨same ▸ own.names, own.members⟩
  folded := by
    intro schema member own more
    constructor
    · intro name mem
      obtain ⟨property, within, rfl⟩ := List.mem_map.1 mem
      rcases Members.mem_insertAllNew within with within | within
      · exact own.names _ (List.mem_map.2 ⟨property, within, rfl⟩)
      · exact more.names _ (List.mem_map.2 ⟨property, within, rfl⟩)
    · intro value mem
      change value ∈ (schema.enumeration.or member.enumeration).getD [] at mem
      cases stated : schema.enumeration with
      | none =>
          rw [stated, Option.none_or] at mem
          exact more.members value mem
      | some values =>
          rw [stated, Option.some_or] at mem
          exact own.members value (stated ▸ mem)

theorem Document.everywhere_of_expand {document expanded : Document}
    (root : document.root = .apart document.schema)
    (start : document.Everywhere (Uses names members)) (expands : document.expand = .ok expanded) :
    expanded.Everywhere (Uses names members) :=
  start.expand Expansion.keeps_uses root expands

end SchemaStream
