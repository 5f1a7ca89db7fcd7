import SchemaStream.Proofs.Json.Distinct
import SchemaStream.Proofs.Schema.Tables

/-!
# Well-formed schemas

No node that is read lists a required property or a keyword that it carries along twice,
and what it carries along are no keywords with a meaning.  Where the names in a value do not
repeat, neither do the properties of a node.
-/

namespace SchemaStream

namespace Members

variable {members added : Members Json} {kind : Keyword}

/-- Members that a node carries along as keywords of one kind. -/
structure Carried (kind : Keyword) (members : Members Json) : Prop where
  distinct : (keys members).Nodup
  kinds : ∀ name ∈ keys members, Keyword.ofName name = kind

namespace Carried

theorem nil : Carried kind [] := ⟨List.nodup_nil, nofun⟩

theorem insert (carried : Carried kind members) {name : String} (value : Json)
    (same : Keyword.ofName name = kind) : Carried kind (insert members name value) := by
  refine ⟨nodup_keys_insert name value carried.distinct, fun other mem => ?_⟩
  rcases mem_keys_insert.1 mem with rfl | mem
  · exact same
  · exact carried.kinds other mem

theorem insertAll (carried : Carried kind members) (more : Carried kind added) :
    Carried kind (insertAll members added) := by
  refine ⟨nodup_keys_insertAll added carried.distinct, fun name mem => ?_⟩
  rw [keys_insertAll members more.distinct] at mem
  rcases List.mem_append.1 mem with mem | mem
  · exact carried.kinds name mem
  · exact more.kinds name (List.mem_filter.1 mem).1

theorem insertAllNew (carried : Carried kind members) (more : Carried kind added) :
    Carried kind (insertAllNew members added) := by
  refine ⟨nodup_keys_insertAllNew added carried.distinct, fun name mem => ?_⟩
  rw [← has_iff_mem_keys, has, get?_insertAllNew] at mem
  by_cases own : name ∈ keys members
  · exact carried.kinds name own
  · rw [get?_eq_none_iff.2 own, Option.none_or] at mem
    exact more.kinds name (has_iff_mem_keys.1 mem)

theorem erase (carried : Carried kind members) (name : String) :
    Carried kind (erase members name) := by
  refine ⟨nodup_keys_erase name carried.distinct, fun other mem => carried.kinds other ?_⟩
  rw [keys_erase] at mem
  exact (List.mem_filter.1 mem).1

theorem of_reordered (carried : Carried kind members) (h : Reordered members added) :
    Carried kind added := by
  refine ⟨h.distinct_right, fun name mem => carried.kinds name ?_⟩
  exact (h.perm.map Prod.fst).mem_iff.2 mem

end Carried

end Members

namespace Schema

structure Tidy (schema : Schema) : Prop where
  required : schema.required.Nodup
  extensions : Members.Carried .extensions schema.extensions
  keywords : Members.Carried .other schema.keywords

/-- What a node carries along is no keyword with a meaning, and nothing of it twice. -/
structure Carrying (schema : Schema) : Prop where
  extensions : Members.Carried .extensions schema.extensions
  keywords : Members.Carried .other schema.keywords

theorem Tidy.carrying {schema : Schema} (tidy : schema.Tidy) : schema.Carrying :=
  ⟨tidy.extensions, tidy.keywords⟩

abbrev WellFormed (schema : Schema) : Prop := schema.Everywhere Tidy

/-- The properties of a node are named once. -/
def Named (schema : Schema) : Prop := (Members.keys schema.properties).Nodup

theorem nodup_append_singleton {names : List String} {name : String} (distinct : names.Nodup)
    (absent : name ∉ names) : (names ++ [name]).Nodup := by
  rw [← List.concat_eq_append, List.nodup_concat]
  exact ⟨absent, distinct⟩

theorem nodup_readRequired {listed result : List String} {names : List Json}
    (distinct : listed.Nodup) (read : readRequired listed names = .ok result) : result.Nodup := by
  induction names generalizing listed with
  | nil =>
      rw [readRequired, Except.ok.injEq] at read
      exact read ▸ distinct
  | cons first rest ih =>
      cases first with
      | string name =>
          rw [readRequired] at read
          refine ih ?_ read
          split
          · exact distinct
          · next absent =>
              rw [List.contains_iff_mem] at absent
              exact nodup_append_singleton distinct absent
      | _ => simp [readRequired] at read

theorem nodup_readNames {value : Json} {names : List String} (read : readNames value = .ok names) :
    names.Nodup := by
  cases value with
  | array items => exact nodup_readRequired List.nodup_nil read
  | _ => simp [readNames] at read

theorem preserved_carrying : Preserved Carrying fun _ => True where
  empty := ⟨.nil, .nil⟩
  keyword := by
    intro schema name value result own _ read
    rw [readKeyword] at read
    cases h : Keyword.ofName name with
    | extensions =>
        simp only [h, pure, Except.pure, Except.ok.injEq] at read
        subst read
        exact ⟨own.extensions.insert value h, own.keywords⟩
    | other =>
        simp only [h, pure, Except.pure, Except.ok.injEq] at read
        subst read
        exact ⟨own.extensions, own.keywords.insert value h⟩
    | _ =>
        simp only [h, Outcome.bind_eq_ok_iff, pure, Except.pure, Except.ok.injEq] at read
        obtain ⟨_, -, rfl⟩ := read
        exact ⟨own.extensions, own.keywords⟩
  items := fun _ _ _ _ => trivial
  members := fun _ _ _ _ => trivial

theorem preserved_tidy : Preserved Tidy fun _ => True where
  empty := ⟨List.nodup_nil, .nil, .nil⟩
  keyword := by
    intro schema name value result tidy _ read
    obtain ⟨extensions, keywords⟩ :=
      preserved_carrying.keyword schema name value result tidy.carrying trivial read
    refine ⟨?_, extensions, keywords⟩
    rw [readKeyword] at read
    cases h : Keyword.ofName name with
    | required =>
        simp only [h, Outcome.bind_eq_ok_iff, pure, Except.pure, Except.ok.injEq] at read
        obtain ⟨names, found, rfl⟩ := read
        exact nodup_readNames found
    | extensions | other =>
        simp only [h, pure, Except.pure, Except.ok.injEq] at read
        subst read
        exact tidy.required
    | _ =>
        simp only [h, Outcome.bind_eq_ok_iff, pure, Except.pure, Except.ok.injEq] at read
        obtain ⟨_, -, rfl⟩ := read
        exact tidy.required
  items := fun _ _ _ _ => trivial
  members := fun _ _ _ _ => trivial

theorem preserved_named : Preserved Named fun value => value.distinct = true where
  empty := List.nodup_nil
  keyword := by
    intro schema name value result named distinct read
    rw [readKeyword] at read
    cases h : Keyword.ofName name with
    | properties =>
        simp only [h, Outcome.bind_eq_ok_iff, pure, Except.pure, Except.ok.injEq] at read
        obtain ⟨table, found, rfl⟩ := read
        cases value with
        | object entries =>
            rw [readTable] at found
            change (Members.keys table).Nodup
            rw [keys_of_readProperties found]
            exact (Json.distinct_object_iff.1 distinct).1
        | _ => simp [readTable] at found
    | extensions | other =>
        simp only [h, pure, Except.pure, Except.ok.injEq] at read
        subst read
        exact named
    | _ =>
        simp only [h, Outcome.bind_eq_ok_iff, pure, Except.pure, Except.ok.injEq] at read
        obtain ⟨_, -, rfl⟩ := read
        exact named
  items := fun _ => Json.distinct_array_iff.1
  members := fun _ distinct => (Json.distinct_object_iff.1 distinct).2

end Schema

namespace Document

/-- A document without its tables names no member twice where the whole names none. -/
theorem distinct_untabled {members : Members Json}
    (distinct : (Json.object members).distinct = true) :
    (Json.object (untabled members)).distinct = true := by
  obtain ⟨names, values⟩ := Json.distinct_object_iff.1 distinct
  refine Json.distinct_object_iff.2 ⟨Members.nodup_keys_erase _ (Members.nodup_keys_erase _ names),
    fun member mem => values member (untabled_subset members mem)⟩

/-- A property of all nodes of a document. -/
structure Everywhere (P : Schema → Prop) (document : Document) : Prop where
  schema : document.schema.Everywhere P
  definitions : ∀ definition ∈ document.definitions, definition.2.Everywhere P

variable {P : Schema → Prop} {Q : Json → Prop} {value : Json} {document : Document}

theorem readTable_everywhere (preserved : Schema.Preserved P Q) {members : Members Json}
    {table : TableKeyword} {before after : Members Schema}
    (read : readTable members table before = .ok after)
    (values : ∀ member ∈ members, Q member.2)
    (everywhere : ∀ definition ∈ before, definition.2.Everywhere P) :
    ∀ definition ∈ after, definition.2.Everywhere P := by
  rcases readTable_eq_ok_iff.1 read with ⟨-, rfl⟩ | ⟨entries, added, found, reads, rfl⟩
  · exact everywhere
  · have h := values _ (Members.mem_of_get?_eq_some found)
    intro definition mem
    rcases Members.mem_insertAll mem with mem | mem
    · exact everywhere definition mem
    · obtain ⟨entry, below, reads⟩ := Schema.exists_of_readProperties reads mem
      exact preserved.everywhere_of_ofJson (preserved.members entries h entry below) reads

theorem everywhere_of_ofJson (preserved : Schema.Preserved P Q) (h : Q value)
    (read : ofJson value = .ok document) : document.Everywhere P := by
  obtain ⟨members, first, definitions, root, rfl, hf, hs, hr, rfl⟩ := ofJson_eq_ok_iff.1 read
  have values := preserved.members members h
  refine ⟨?_, readTable_everywhere preserved hs values
    (readTable_everywhere preserved hf values nofun)⟩
  rw [Schema.ofJson] at hr
  exact preserved.everywhere_of_readKeywords
    (fun member mem => values member (untabled_subset members mem)) hr

end Document

end SchemaStream
