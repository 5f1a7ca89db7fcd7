import SchemaStream.Proofs.Schema.Cycles
import SchemaStream.Proofs.Schema.Invariants
import SchemaStream.Proofs.Schema.Rendering

/-!
# Expanding documents that are respelled

The definitions of a document are expanded one after the other, each in the table that the
ones before it left behind.  The two tables stay in step, so the documents come out alike.
-/

namespace SchemaStream

open Json (Rearranged)
open Schema (Alike AlikeAt Respelled)

/-- Tables of the same names.  Only the pending definitions may be respelled. -/
structure InStep (live : String → Prop) (pending : List String)
    (definitions others : Members Schema) : Prop where
  names : Members.keys definitions = Members.keys others
  bodies : ∀ name, Option.Rel
    (fun body body' => AlikeAt (Respelled live) body body' ∧ (name ∉ pending → Alike body body'))
    (Members.get? definitions name) (Members.get? others name)

namespace InStep

variable {live : String → Prop} {pending : List String} {definitions others : Members Schema}
  {kept : List String} {rank rank' : String → Nat} {name : String}

theorem corresponds (inStep : InStep live pending definitions others)
    (alive : ∀ reference, live reference → ∃ name, Reference.name? reference = some name ∧
      (⟨definitions, kept⟩ : Expansion).Inlines name) :
    Expansion.Corresponds live (fun _ => True) ⟨definitions, kept⟩ ⟨others, kept⟩ where
  kept := rfl
  names := inStep.names
  definitions := by
    intro name body body' _ _ found found'
    have related := inStep.bodies name
    dsimp only at found found'
    rw [found, found'] at related
    cases related with
    | some both => exact both.1
  closed := fun _ _ _ _ _ _ _ _ => trivial
  alive := alive

/-- A definition that was expanded in both tables is no longer pending. -/
theorem insert {body expanded expanded' : Schema}
    (inStep : InStep live (name :: pending) definitions others)
    (found : Members.get? definitions name = some body) (alike : Alike expanded expanded') :
    InStep live pending (Members.insert definitions name expanded)
      (Members.insert others name expanded') := by
  have mem : name ∈ Members.keys definitions := Members.mem_keys_iff_exists_get?.2 ⟨body, found⟩
  constructor
  · rw [Members.keys_insert_of_mem _ mem, Members.keys_insert_of_mem _ (inStep.names ▸ mem),
      inStep.names]
  · intro other
    rw [Members.get?_insert, Members.get?_insert]
    split
    · refine .some ⟨?_, fun _ => alike⟩
      exact (Schema.alike_iff.1 alike).imp_of_mem fun _ _ _ h =>
        h.mono fun _ => False.elim
    · next ne =>
        refine Outcome.rel_imp (inStep.bodies other) fun _ _ _ _ both =>
          ⟨both.1, fun absent => ?_⟩
        exact both.2 (by simp [absent, Ne.symm ne])

/-- Expanding the pending definitions one by one keeps the tables in step. -/
theorem expandDefinitions_agrees (inStep : InStep live pending definitions others)
    (defined : ∀ name ∈ pending, name ∈ Members.keys definitions)
    (alive : ∀ reference, live reference → ∃ name, Reference.name? reference = some name ∧
      (⟨definitions, kept⟩ : Expansion).Inlines name)
    (grounded : (⟨definitions, kept⟩ : Expansion).Grounded rank)
    (grounded' : (⟨others, kept⟩ : Expansion).Grounded rank') :
    Outcome.Agrees (InStep live [])
      (Document.expandDefinitions kept pending definitions)
      (Document.expandDefinitions kept pending others) := by
  induction pending generalizing definitions others with
  | nil =>
      rw [Document.expandDefinitions, Document.expandDefinitions]
      exact .ok inStep
  | cons name rest ih =>
      have mem := defined name List.mem_cons_self
      obtain ⟨body, found⟩ := Members.mem_keys_iff_exists_get?.1 mem
      obtain ⟨body', found'⟩ := Members.mem_keys_iff_exists_get?.1 (inStep.names ▸ mem)
      have bodies := inStep.bodies name
      rw [found, found'] at bodies
      have related : AlikeAt (Respelled live) body body' := by
        cases bodies with
        | some both => exact both.1
      rw [Document.expandDefinitions, Document.expandDefinitions, found, found']
      have agree := (inStep.corresponds alive).expand_agrees grounded grounded'
        (fun _ _ _ => trivial) (.of_alikeAt related)
      refine (agree.imp fun _ _ h h' same => And.intro h (And.intro h' same)).bind ?_
      rintro expanded expanded' ⟨h, h', same⟩
      have names := Members.keys_insert_of_mem expanded mem
      refine ih (inStep.insert found same) ?_ ?_ (grounded.insert found h)
        (grounded'.insert found' h')
      · intro other below
        rw [names]
        exact defined other (List.mem_cons_of_mem _ below)
      · intro reference h
        obtain ⟨target, named, inlines⟩ := alive reference h
        exact ⟨target, named, by rwa [Expansion.Inlines, names]⟩

end InStep

namespace Document

variable {live : String → Prop} {document other : Document} {schema schema' : Schema}

/-- Documents of one table keyword whose roots stand apart and are respelled, as are the
definitions that do not stay. -/
structure RespelledAs (live : String → Prop) (document other : Document) : Prop where
  root : ∃ schema schema', document.root = .apart schema ∧ other.root = .apart schema' ∧
    Respelled live schema schema'
  definitions : List.Forall₂
    (fun definition other => definition.1 = other.1 ∧
      AlikeAt (Respelled live) definition.2 other.2)
    document.definitions other.definitions
  stays : ∀ name ∈ document.cyclicDefinitions, ∀ body body',
    Members.get? document.definitions name = some body →
      Members.get? other.definitions name = some body' → Alike body body'
  distinct : (Members.keys document.definitions).Nodup
  table : document.table = other.table
  alive : ∀ reference, live reference →
    ∃ name, Reference.name? reference = some name ∧ document.expansion.Inlines name

/-- Documents whose roots and tables are alike are written alike. -/
theorem rearranged_toJson (root : document.root = .apart schema)
    (root' : other.root = .apart schema') (alike : Alike schema schema')
    (inStep : InStep live [] document.definitions other.definitions)
    (distinct : (Members.keys document.definitions).Nodup)
    (table : document.table = other.table) : Rearranged document.toJson other.toJson := by
  have bodies (name : String) : Option.Rel (fun body body' => Rearranged body.toJson body'.toJson)
      (Members.get? document.definitions name) (Members.get? other.definitions name) :=
    Outcome.rel_imp (inStep.bodies name) fun _ _ _ _ both =>
      (both.2 (by simp)).rearranged_toJson
  have entries := Members.forall₂_of_rel_get? inStep.names distinct bodies
  have written : Rearranged (.object (Schema.propertiesJson document.definitions))
      (.object (Schema.propertiesJson other.definitions)) := by
    rw [Schema.propertiesJson_eq_mapValues, Schema.propertiesJson_eq_mapValues]
    refine Json.rearranged_object_iff.2 ⟨_, ?_, .refl _⟩
    rwa [Members.mapValues, Members.mapValues, List.forall₂_map_left_iff,
      List.forall₂_map_right_iff]
  have empty : (Schema.propertiesJson document.definitions).isEmpty =
      (Schema.propertiesJson other.definitions).isEmpty := by
    refine Members.isEmpty_eq_of_keys_eq ?_
    rw [Schema.propertiesJson_eq_mapValues, Schema.propertiesJson_eq_mapValues,
      Members.keys_mapValues, Members.keys_mapValues, inStep.names]
  have top := alike.rearranged_toJson
  have tidy := (Schema.alike_iff.1 alike).tidy
  rw [toJson, toJson, schema_of_apart root, schema_of_apart root']
  rw [Schema.toJson_eq, Schema.toJson_eq] at top ⊢
  rw [withTable, withTable, empty, table]
  split
  · exact top
  · exact top.insert tidy.carrying.nodup_keys_members _ written

namespace RespelledAs

theorem keys_eq (respelled : RespelledAs live document other) :
    Members.keys document.definitions = Members.keys other.definitions :=
  Members.keys_eq_of_forall₂ (respelled.definitions.imp fun _ _ both => both.1)

theorem cyclicDefinitions_eq (respelled : RespelledAs live document other) :
    document.cyclicDefinitions = other.cyclicDefinitions :=
  Definitions.cyclic_eq
    (respelled.definitions.imp fun _ _ both => ⟨both.1, .of_alikeAt both.2⟩)

theorem inStep (respelled : RespelledAs live document other) :
    InStep live ((Members.keys document.definitions).filter fun name =>
      !document.cyclicDefinitions.contains name) document.definitions other.definitions where
  names := respelled.keys_eq
  bodies := fun name => by
    refine Outcome.rel_imp (Members.rel_get? respelled.definitions name)
      fun body body' hb hb' h => ⟨h, fun absent => ?_⟩
    have defined : name ∈ Members.keys document.definitions :=
      Members.mem_keys_iff_exists_get?.2 ⟨body, hb⟩
    have stays : name ∈ document.cyclicDefinitions := by
      simpa [defined] using absent
    exact respelled.stays name stays body body' hb hb'

/-- Documents that are respelled expand to documents that are written alike. -/
theorem expand_agrees (respelled : RespelledAs live document other) :
    Outcome.Agrees (fun expanded expanded' => Rearranged expanded.toJson expanded'.toJson)
      document.expand other.expand := by
  obtain ⟨schema, schema', root, root', related⟩ := respelled.root
  have cycles := respelled.cyclicDefinitions_eq
  have grounded := grounded_expansion respelled.distinct
  have grounded' := grounded_expansion (respelled.keys_eq ▸ respelled.distinct)
  rw [expand_of_apart root, expand_of_apart root', ← cycles, ← respelled.keys_eq]
  rw [expansion] at grounded grounded' ⊢
  rw [expansion, ← cycles]
  rw [← cycles] at grounded'
  have inStep := respelled.inStep
  refine ((inStep.corresponds respelled.alive).expand_agrees grounded grounded'
    (fun _ _ _ => trivial) related).bind ?_
  intro expanded expanded' alike
  split
  · have empty : InStep live [] [] [] := ⟨rfl, fun _ => .none⟩
    exact .ok (rearranged_toJson rfl rfl alike empty List.nodup_nil respelled.table)
  · have defined : ∀ name ∈ (Members.keys document.definitions).filter (fun name =>
        !document.cyclicDefinitions.contains name), name ∈ Members.keys document.definitions :=
      fun name mem => (List.mem_filter.1 mem).1
    have agree := inStep.expandDefinitions_agrees defined respelled.alive grounded grounded'
    refine (agree.imp fun _ _ h _ same => And.intro h same).bind ?_
    rintro definitions definitions' ⟨h, same⟩
    have distinct := respelled.distinct
    rw [← keys_expandDefinitions h] at distinct
    exact .ok (rearranged_toJson rfl rfl alike same distinct respelled.table)

end RespelledAs

end Document

end SchemaStream
