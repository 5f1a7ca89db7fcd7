import SchemaStream.Proofs.Schema.Expanded
import SchemaStream.Proofs.Schema.Grammar
import SchemaStream.Proofs.Schema.ReferenceChains
import SchemaStream.Proofs.Schema.Resolution

/-!
# The arity of an allOf

An `allOf` is written with one member.  An array of several is rejected wherever expansion comes
to it, in the root, in what is put in there, and in a definition that is expanded in its place.
Two arrays are overlooked: an empty one is read as if it was not there, and what stands beside a
reference is dropped together with the node that a definition replaces.
-/

namespace SchemaStream

namespace Schema

variable {schema result own node : Schema} {name reference : String} {value written : Json}
  {entries : Members Json} {member : String × Json} {members : List Json}

/-! ## What a node is read with -/

/-- The children of a node under a keyword are those that are written there. -/
theorem forall₂_childrenAt (distinct : (Members.keys entries).Nodup)
    (read : ofJson (.object entries) = .ok own) (mem : member ∈ entries) :
    List.Forall₂ ReadFrom (Json.subschemasAt (Keyword.ofName member.1) member.2)
      (own.childrenAt (Keyword.ofName member.1)) := by
  obtain ⟨name, value⟩ := member
  dsimp only
  cases spelled : (Keyword.ofName name).spelling? with
  | none =>
      cases named : Keyword.ofName name <;> rw [named] at spelled <;>
        first | exact .nil | cases spelled
  | some spelling =>
      refine holds_of_readKeywords (P := fun node => List.Forall₂ ReadFrom
        (Json.subschemasAt (Keyword.ofName name) value) (node.childrenAt (Keyword.ofName name)))
        distinct mem read (fun before after first => ?_)
        fun before after other written ne first all => ?_
      · exact ((childrenAt_of_readKeyword first _).resolve_right fun both => both.1 rfl).2
      · rcases childrenAt_of_readKeyword first (Keyword.ofName name) with ⟨same, -⟩ | ⟨-, same⟩
        · rw [same] at spelled
          have here := Keyword.eq_of_spelling? (same ▸ spelled)
          exact absurd ((Keyword.eq_of_spelling? spelled).trans here.symm) ne
        · exact same ▸ all

theorem reference_of_mem_references (distinct : (Members.keys entries).Nodup)
    (read : ofJson (.object entries) = .ok own)
    (refers : reference ∈ Json.references (.object entries)) : own.reference = some reference := by
  refine holds_of_readKeywords (P := fun node => node.reference = some reference) distinct
    (Json.mem_references_iff.1 refers) read (fun before after first => ?_)
    fun before after other written ne first same => ?_
  · obtain ⟨-, text, same, found⟩ :=
      (reference_of_readKeyword first).resolve_right fun both => both.1 rfl
    rw [found, Json.string.inj same]
  · exact ((reference_of_readKeyword first).resolve_left fun both => ne both.1).2.trans same

/-- Members that are not read leave no trace in a node but under `allOf`. -/
theorem readKeyword_without_allOf (other : name ≠ "allOf")
    (read : readKeyword schema name value = .ok result) :
    readKeyword { schema with allOf := [] } name value = .ok { result with allOf := [] } := by
  rw [readKeyword] at read ⊢
  cases named : Keyword.ofName name with
  | allOf => exact absurd (Keyword.eq_of_spelling? (by rw [named]; rfl)) other
  | extensions | other =>
      simp only [named, pure, Except.pure, Except.ok.injEq] at read ⊢
      rw [← read]
  | _ =>
      simp only [named, Outcome.bind_eq_ok_iff, pure, Except.pure, Except.ok.injEq] at read ⊢
      obtain ⟨found, reads, rfl⟩ := read
      exact ⟨found, reads, rfl⟩

theorem readKeywords_erase_allOf (read : readKeywords schema entries = .ok result) :
    readKeywords { schema with allOf := [] } (Members.erase entries "allOf") =
      .ok { result with allOf := [] } := by
  induction entries generalizing schema with
  | nil =>
      cases read
      rfl
  | cons entry rest ih =>
      obtain ⟨name, value⟩ := entry
      rw [readKeywords_cons, Outcome.bind_eq_ok_iff] at read
      obtain ⟨next, first, read⟩ := read
      have later := ih read
      rw [Members.erase, List.filter_cons]
      by_cases here : name = "allOf"
      · subst here
        obtain ⟨members, -, same⟩ := Outcome.bind_eq_ok_iff.1 first
        cases same
        rw [if_neg (by simp)]
        exact later
      · rw [if_pos (by simpa using here), readKeywords_cons, readKeyword_without_allOf here first]
        exact later

end Schema

/-! ## Written nodes that expansion comes to -/

/-- A written node stands where it is written, or else in the place of a reference to it.  There it
stands without a reference of its own. -/
inductive Standing where
  | own
  | lent
  deriving DecidableEq, Repr

/-- The node that stands there, by the node that is read from the written one. -/
def Standing.Puts (standing : Standing) (read node : Schema) : Prop :=
  match standing with
  | .own => node = read
  | .lent => ∃ site, node = read.overlaid site

theorem Standing.Puts.allOf {standing : Standing} {read node : Schema}
    (puts : standing.Puts read node) : node.allOf = read.allOf := by
  cases standing with
  | own => exact congrArg Schema.allOf puts
  | lent =>
      obtain ⟨site, rfl⟩ := puts
      rfl

theorem Standing.Puts.children {standing : Standing} {read node : Schema}
    (puts : standing.Puts read node) : node.children = read.children := by
  cases standing with
  | own => exact congrArg Schema.children puts
  | lent =>
      obtain ⟨site, rfl⟩ := puts
      exact Schema.children_overlaid read site

namespace Json

theorem IsSchema.of_mem_subschemas {value child : Json} (schema : value.IsSchema)
    (mem : child ∈ value.subschemas) : child.IsSchema := by
  cases schema with
  | true => cases mem
  | object fits below => exact below child mem

theorem distinct_of_mem_subschemas {value child : Json} (distinct : value.distinct = true)
    (mem : child ∈ value.subschemas) : child.distinct = true := by
  cases value with
  | object members =>
      exact Schema.preserved_named.subschema (Json.distinct_object_iff.1 distinct).2 mem
  | _ => cases mem

end Json

namespace Document

variable {done : List String} {table : Members Schema} {rank : String → Nat} {document : Document}
  {node start : Schema} {raw written startJson : Json} {standing : Standing}
  {entries : Members Json} {members : List Json}

/-- A node whose own reference is replaced by a definition, one that leads into no cycle. -/
def Replaces (document : Document) (written : Json) (standing : Standing) : Prop :=
  standing = .own ∧ ∃ reference ∈ written.references, ∃ name,
    Reference.name? reference = some name ∧ document.expansion.Inlines name

/-- The written nodes that expansion comes to from one of them.  Of a node that is replaced it does
not look at what stands below, but at the definition in its place.  A definition that is done was
come to before, and what is put in for it is no longer as it was written. -/
inductive LeadsTo (raw : Json) (document : Document) (done : List String) (start : Json) :
    Json → Standing → Prop
  | start : LeadsTo raw document done start start .own
  | child {written child : Json} {standing : Standing}
      (above : LeadsTo raw document done start written standing)
      (stays : ¬ document.Replaces written standing) (below : child ∈ written.subschemas) :
      LeadsTo raw document done start child .own
  | inlined {written body : Json} {reference name : String}
      (above : LeadsTo raw document done start written .own)
      (refers : reference ∈ written.references) (named : Reference.name? reference = some name)
      (put : name ∉ document.cyclicDefinitions) (pending : name ∉ done)
      (entry : raw.definition? name = some body) : LeadsTo raw document done start body .lent

/-- The written nodes that the expansion of a document comes to.  Where there is a cycle, these are
also those in the definitions that lead into none, each of which is expanded in its turn. -/
inductive ComesTo (raw : Json) (document : Document) (written : Json) (standing : Standing) : Prop
  | root {members : Members Json} (whole : raw = .object members)
      (leads : LeadsTo raw document [] (.object (untabled members)) written standing)
  | definition {before after : List String} {name : String} {body : Json}
      (cycle : document.cyclicDefinitions ≠ [])
      (turn : document.acyclicDefinitions = before ++ name :: after)
      (entry : raw.definition? name = some body)
      (leads : LeadsTo raw document before body written standing)

/-- An array under `allOf` that expansion does not look at. -/
def Overlooks (document : Document) (written : Json) (standing : Standing)
    (members : List Json) : Prop :=
  members = [] ∨ document.Replaces written standing

/-! ## What is read there -/

section

variable (distinct : raw.distinct = true) (parsed : ofJson raw = .ok document)
include distinct parsed

theorem LeadsTo.isSchema (leads : LeadsTo raw document done startJson written standing)
    (first : startJson.distinct = true ∧ startJson.IsSchema) :
    written.distinct = true ∧ written.IsSchema := by
  induction leads with
  | start => exact first
  | child above stays below ih =>
      exact ⟨Json.distinct_of_mem_subschemas ih.1 below, ih.2.of_mem_subschemas below⟩
  | inlined above refers named put pending entry ih =>
      obtain ⟨body, -, reads⟩ := exists_readFrom_definition? distinct parsed entry
      exact ⟨distinct_definition? distinct entry, Schema.exists_ofJson_iff.1 ⟨body, reads⟩⟩

theorem ComesTo.isSchema (comes : ComesTo raw document written standing) :
    written.distinct = true ∧ written.IsSchema := by
  cases comes with
  | root whole leads =>
      subst whole
      obtain ⟨members, first, definitions, root, same, -, -, read, -⟩ := ofJson_eq_ok_iff.1 parsed
      cases same
      exact leads.isSchema distinct parsed
        ⟨distinct_untabled distinct, Schema.exists_ofJson_iff.1 ⟨root, read⟩⟩
  | definition cycle turn entry leads =>
      obtain ⟨body, -, reads⟩ := exists_readFrom_definition? distinct parsed entry
      exact leads.isSchema distinct parsed
        ⟨distinct_definition? distinct entry, Schema.exists_ofJson_iff.1 ⟨body, reads⟩⟩

end

/-! ## What expansion makes of it -/

/-- A node that expands, and that is not replaced, is expanded by its parts. -/
theorem inlined?_of_not_replaces {below : Schema → Except SchemaError Schema}
    {own expanded : Schema} (names : Members.keys table = Members.keys document.definitions)
    (reads : Schema.ofJson written = .ok own) (puts : standing.Puts own node)
    (stays : ¬ document.Replaces written standing)
    (expands : Expansion.expandNode ⟨table, document.cyclicDefinitions⟩ below node =
      .ok expanded) :
    Expansion.inlined? ⟨table, document.cyclicDefinitions⟩ node = .ok none := by
  rcases Expansion.expandNode_eq_ok_iff.1 expands with ⟨definition, inlined, -⟩ | ⟨none, -⟩
  · obtain ⟨reference, name, body, refers, named, found, put, -⟩ :=
      Expansion.inlined?_eq_some_iff.1 inlined
    cases standing with
    | own =>
        cases puts
        have defined : name ∈ Members.keys document.definitions :=
          names ▸ Members.mem_keys_iff_exists_get?.2 ⟨body, found⟩
        exact absurd ⟨rfl, reference, Schema.mem_references_of_ofJson reads refers, name, named,
          defined, put⟩ stays
    | lent =>
        obtain ⟨site, rfl⟩ := puts
        cases refers
  · exact none

section

variable {expanded : Schema} (distinct : raw.distinct = true) (parsed : ofJson raw = .ok document)
  (names : Members.keys table = Members.keys document.definitions)
  (untouched : ∀ name, name ∉ done →
    Members.get? table name = Members.get? document.definitions name)
  (grounded : (⟨table, document.cyclicDefinitions⟩ : Expansion).Grounded rank)
  (first : startJson.distinct = true) (reads : Schema.ofJson startJson = .ok start)
  (expands : Expansion.expand ⟨table, document.cyclicDefinitions⟩ start = .ok expanded)
  (leads : LeadsTo raw document done startJson written standing)
include distinct parsed names untouched grounded first reads expands leads

/-- The node that stands where expansion comes to is reached from the node where it starts. -/
theorem LeadsTo.exists_reached :
    ∃ own node, Schema.ofJson written = .ok own ∧ standing.Puts own node ∧
      Expansion.Reached ⟨table, document.cyclicDefinitions⟩ start node := by
  have schema : startJson.IsSchema := Schema.exists_ofJson_iff.1 ⟨start, reads⟩
  induction leads with
  | start => exact ⟨start, start, reads, rfl, .root⟩
  | @child written child standing above stays below ih =>
      obtain ⟨own, node, reads, puts, reached⟩ := ih
      obtain ⟨result, step⟩ := reached.expands grounded expands
      rw [grounded.expand_eq] at step
      have apart := inlined?_of_not_replaces names reads puts stays step
      have tidy := (above.isSchema distinct parsed ⟨first, schema⟩).1
      cases written with
      | object entries =>
          obtain ⟨member, mem, inside⟩ := Json.mem_subschemas_iff.1 below
          have each := Schema.forall₂_childrenAt (Json.distinct_object_iff.1 tidy).1 reads mem
          obtain ⟨node', found, reads'⟩ := Outcome.exists_of_forall₂ each inside
          refine ⟨node', node', reads', rfl, .child reached apart ?_⟩
          exact puts.children ▸ Schema.mem_children_iff_childrenAt.2 ⟨_, found⟩
      | _ => cases below
  | @inlined written body reference name above refers named put pending entry ih =>
      obtain ⟨own, node, reads, same, reached⟩ := ih
      cases same
      have tidy := (above.isSchema distinct parsed ⟨first, schema⟩).1
      cases written with
      | object entries =>
          have refers := Schema.reference_of_mem_references (Json.distinct_object_iff.1 tidy).1
            reads refers
          obtain ⟨node, found, reads'⟩ := exists_readFrom_definition? distinct parsed entry
          rw [← untouched name pending] at found
          exact ⟨node, node.overlaid own, reads', ⟨own, rfl⟩, .inlined reached
            (Expansion.inlined?_eq_some_iff.2
              ⟨reference, name, node, refers, named, found, put, rfl⟩)⟩
      | _ => cases refers

/-- A written node that is led to, and that is not replaced, has at most one member. -/
theorem LeadsTo.length_allOf_le_one (stays : ¬ document.Replaces written standing) {own : Schema}
    (found : Schema.ofJson written = .ok own) : own.allOf.length ≤ 1 := by
  obtain ⟨own', node, reads', puts, reached⟩ :=
    leads.exists_reached distinct parsed names untouched grounded first reads expands
  cases found.symm.trans reads'
  obtain ⟨result, step⟩ := reached.expands grounded expands
  rw [grounded.expand_eq] at step
  have apart := inlined?_of_not_replaces names reads' puts stays step
  rcases Expansion.expandNode_eq_ok_iff.1 step with ⟨definition, inlined, -⟩ | ⟨-, parts, each, -⟩
  · cases apart.symm.trans inlined
  · exact puts.allOf ▸ (Expansion.expandParts_eq_ok_iff.1 each).1

end

section

variable (distinct : raw.distinct = true) (parsed : ofJson raw = .ok document)
  (comes : ComesTo raw document written standing)
include distinct parsed comes

/-- Where a document expands, a written node that is come to, and that is not replaced, has at most
one member. -/
theorem ComesTo.length_allOf_le_one (stays : ¬ document.Replaces written standing)
    {expanded : Document} (expands : document.expand = .ok expanded) {own : Schema}
    (found : Schema.ofJson written = .ok own) : own.allOf.length ≤ 1 := by
  cases comes with
  | root whole leads =>
      subst whole
      rw [expand_of_apart (root_eq_apart parsed), Outcome.bind_eq_ok_iff] at expands
      obtain ⟨schema, step, -⟩ := expands
      have grounded := grounded_expansion (nodup_keys_definitions parsed)
      obtain ⟨members, _, definitions, root, same, -, -, read, rfl⟩ := ofJson_eq_ok_iff.1 parsed
      cases same
      exact leads.length_allOf_le_one distinct parsed rfl (fun _ _ => rfl) grounded
        (distinct_untabled distinct) read step stays found
  | definition cycle turn entry leads =>
      obtain ⟨body, defined, read⟩ := exists_readFrom_definition? distinct parsed entry
      obtain ⟨table, result, names, untouched, ⟨rank, grounded⟩, step⟩ :=
        exists_expand_of_turn (root_eq_apart parsed) (nodup_keys_definitions parsed) expands cycle
          turn defined
      exact leads.length_allOf_le_one distinct parsed names untouched grounded
        (distinct_definition? distinct entry) read step stays found

end

/-- An array under `allOf` of other than one member is rejected wherever expansion comes to it and
does not overlook it.  One that is overlooked might as well not be written: the same node is read
without it, or else one in the place of which the same definition is put. -/
theorem malformed_allOf_is_rejected_unless_overlooked (distinct : raw.distinct = true)
    (parsed : ofJson raw = .ok document)
    (comes : ComesTo raw document (.object entries) standing)
    (written : Members.get? entries "allOf" = some (.array members))
    (malformed : members.length ≠ 1) :
    (¬ document.Overlooks (.object entries) standing members →
      ∃ fault, document.expand = .error fault) ∧
    (document.Overlooks (.object entries) standing members →
      ∃ own without, Schema.ofJson (.object entries) = .ok own ∧
        Schema.ofJson (.object (Members.erase entries "allOf")) = .ok without ∧
        (own = without ∨ ∃ definition, document.expansion.inlined? own = .ok (some definition) ∧
          document.expansion.inlined? without = .ok (some definition))) := by
  obtain ⟨tidy, schema⟩ := comes.isSchema distinct parsed
  obtain ⟨own, reads⟩ := Schema.exists_ofJson_iff.2 schema
  have names := (Json.distinct_object_iff.1 tidy).1
  have each : List.Forall₂ Schema.ReadFrom members own.allOf :=
    Schema.forall₂_childrenAt names reads (Members.mem_of_get?_eq_some written)
  refine ⟨fun seen => ?_, fun overlooked => ?_⟩
  · cases expands : document.expand with
    | error fault => exact ⟨fault, rfl⟩
    | ok expanded =>
        have few := comes.length_allOf_le_one distinct parsed (fun replaced => seen (.inr replaced))
          expands reads
        have some : members.length ≠ 0 := fun none => seen (.inl (List.length_eq_zero_iff.1 none))
        have count := each.length_eq
        omega
  · refine ⟨own, { own with allOf := [] }, reads, Schema.readKeywords_erase_allOf reads, ?_⟩
    rcases overlooked with rfl | ⟨rfl, reference, mem, name, named, defined, put⟩
    · left
      have none := List.forall₂_nil_left_iff.1 each
      obtain ⟨⟩ := own
      cases none
      rfl
    · right
      obtain ⟨body, found⟩ := Members.mem_keys_iff_exists_get?.1 defined
      have refers := Schema.reference_of_mem_references names reads mem
      exact ⟨body.overlaid own,
        Expansion.inlined?_eq_some_iff.2 ⟨reference, name, body, refers, named, found, put, rfl⟩,
        Expansion.inlined?_eq_some_iff.2 ⟨reference, name, body, refers, named, found, put, rfl⟩⟩

/-- A cycle, and beside it a pair of which both a text and a number is asked. -/
def pairedJson : Json :=
  .object
    [("type", .string "object"),
      ("properties", .object [("next", .object [("$ref", .string "#/definitions/N")])]),
      ("definitions", .object
        [("N", .object
          [("type", .string "object"),
            ("properties", .object [("next", .object [("$ref", .string "#/definitions/N")])])]),
          ("Pair", .object
            [("items", .object
              [("allOf", .array
                [.object [("type", .string "string")], .object [("type", .string "number")]])])])])]

def paired : Document where
  root := .apart
    { types := [.object], properties := [("next", { reference := some "#/definitions/N" })] }
  definitions :=
    [("N",
      { types := [.object], properties := [("next", { reference := some "#/definitions/N" })] }),
      ("Pair", { items := some { allOf := [.ofType .string, .ofType .number] } })]

theorem several_members_of_pair_are_rejected :
    ComesTo pairedJson paired
        (.object [("allOf", .array
          [.object [("type", .string "string")], .object [("type", .string "number")]])]) .own ∧
      ∃ fault, paired.expand = .error fault := by
  have parsed : ofJson pairedJson = .ok paired := rfl
  have turn : paired.acyclicDefinitions = [] ++ "Pair" :: [] := by decide
  have stays : ¬ paired.Replaces (.object [("items", .object
      [("allOf", .array
        [.object [("type", .string "string")], .object [("type", .string "number")]])])]) .own := by
    rintro ⟨-, reference, mem, -⟩
    cases mem
  have comes : ComesTo pairedJson paired (.object [("allOf", .array
      [.object [("type", .string "string")], .object [("type", .string "number")]])]) .own :=
    .definition (by decide) turn rfl (.child .start stays (.head _))
  refine ⟨comes, (malformed_allOf_is_rejected_unless_overlooked (by decide) parsed comes rfl
    (by decide)).1 ?_⟩
  rintro (none | ⟨-, reference, mem, -⟩)
  · cases none
  · cases mem

/-- An array of no members. -/
def emptyArityJson : Json :=
  .object
    [("type", .string "object"),
      ("properties", .object [("x", .object [("allOf", .array [])])])]

/-- An empty array is read as if it was not there, and so it is accepted. -/
theorem not_every_malformed_allOf_is_rejected :
    ¬ ∀ (raw : Json) (document : Document) (entries : Members Json) (standing : Standing)
      (members : List Json), raw.distinct = true → ofJson raw = .ok document →
      ComesTo raw document (.object entries) standing →
      Members.get? entries "allOf" = some (.array members) → members.length ≠ 1 →
      ∃ fault, document.expand = .error fault := by
  intro claim
  let document : Document :=
    { root := .apart { types := [.object], properties := [("x", {})] } }
  have parsed : ofJson emptyArityJson = .ok document := rfl
  have stays : ¬ document.Replaces (.object
      [("type", .string "object"),
        ("properties", .object [("x", .object [("allOf", .array [])])])]) .own := by
    rintro ⟨-, reference, mem, -⟩
    cases mem
  have comes : ComesTo emptyArityJson document (.object [("allOf", .array [])]) .own :=
    .root rfl (.child .start stays (.head _))
  obtain ⟨fault, fails⟩ := claim emptyArityJson document _ .own [] (by decide) parsed comes rfl
    (by decide)
  have expands : document.expand = .ok document := rfl
  rw [expands] at fails
  cases fails

end Document

end SchemaStream
