import SchemaStream.Schema.Reader

/-!
# Written schemas

Where schemas stand in a written schema: at its top, under the names of its properties, under
`items` and in the lists of the combinators.  What stands under other keywords is no schema.
-/

namespace SchemaStream

namespace Json

/-- The schemas right under a keyword. -/
def subschemasAt (keyword : Keyword) (value : Json) : List Json :=
  match keyword, value with
  | .items, schema => [schema]
  | .properties, .object table => table.map Prod.snd
  | .anyOf, .array members | .oneOf, .array members | .allOf, .array members => members
  | _, _ => []

/-- The schemas right below a written schema. -/
def subschemas : Json → List Json
  | .object members => members.flatMap fun member =>
      subschemasAt (Keyword.ofName member.1) member.2
  | _ => []

mutual

/-- A written schema and all schemas below it. -/
def positions : Json → List Json
  | .object members => .object members :: memberPositions members
  | value => [value]

def memberPositions : List (String × Json) → List Json
  | [] => []
  | (name, value) :: rest =>
      (match Keyword.ofName name with
        | .items => positions value
        | .properties => tablePositions value
        | .anyOf | .oneOf | .allOf => listPositions value
        | _ => []) ++ memberPositions rest

def tablePositions : Json → List Json
  | .object table => entryPositions table
  | _ => []

def entryPositions : List (String × Json) → List Json
  | [] => []
  | (_, value) :: rest => positions value ++ entryPositions rest

def listPositions : Json → List Json
  | .array members => itemPositions members
  | _ => []

def itemPositions : List Json → List Json
  | [] => []
  | value :: rest => positions value ++ itemPositions rest

end

theorem entryPositions_eq_flatMap (table : List (String × Json)) :
    entryPositions table = (table.map Prod.snd).flatMap positions := by
  induction table with
  | nil => rfl
  | cons entry rest ih =>
      obtain ⟨name, value⟩ := entry
      rw [entryPositions, ih, List.map_cons, List.flatMap_cons]

theorem itemPositions_eq_flatMap (items : List Json) :
    itemPositions items = items.flatMap positions := by
  induction items with
  | nil => rfl
  | cons item rest ih => rw [itemPositions, ih, List.flatMap_cons]

theorem memberPositions_eq_flatMap (members : List (String × Json)) :
    memberPositions members = (subschemas (.object members)).flatMap positions := by
  induction members with
  | nil => rfl
  | cons member rest ih =>
      obtain ⟨name, value⟩ := member
      have first : (match Keyword.ofName name with
          | .items => positions value
          | .properties => tablePositions value
          | .anyOf | .oneOf | .allOf => listPositions value
          | _ => []) = (subschemasAt (Keyword.ofName name) value).flatMap positions := by
        cases Keyword.ofName name <;> cases value <;>
          simp [subschemasAt, tablePositions, listPositions, entryPositions_eq_flatMap,
            itemPositions_eq_flatMap]
      rw [memberPositions, ih, first, subschemas, subschemas, List.flatMap_cons,
        List.flatMap_append]

theorem positions_eq_cons_flatMap (value : Json) :
    value.positions = value :: value.subschemas.flatMap positions := by
  cases value with
  | object members => rw [positions, memberPositions_eq_flatMap]
  | _ => rfl

theorem mem_positions_iff {value position : Json} :
    position ∈ value.positions ↔
      position = value ∨ ∃ child ∈ value.subschemas, position ∈ child.positions := by
  rw [positions_eq_cons_flatMap, List.mem_cons, List.mem_flatMap]

theorem mem_subschemas_iff {members : Members Json} {child : Json} :
    child ∈ subschemas (.object members) ↔
      ∃ member ∈ members, child ∈ subschemasAt (Keyword.ofName member.1) member.2 :=
  List.mem_flatMap

/-- The references of a written schema, of which there is one at most where no name is repeated. -/
def references : Json → List String
  | .object members => members.filterMap fun member =>
      if member.1 = "$ref" then member.2.string? else none
  | _ => []

theorem mem_references_iff {members : Members Json} {reference : String} :
    reference ∈ references (.object members) ↔ ("$ref", .string reference) ∈ members := by
  rw [references, List.mem_filterMap]
  constructor
  · rintro ⟨⟨name, value⟩, mem, found⟩
    dsimp only at found
    split at found
    · next named =>
        cases value with
        | string text =>
            cases found
            exact named ▸ mem
        | _ => cases found
    · cases found
  · intro mem
    exact ⟨_, mem, rfl⟩

section

variable {members others : Members Json}

/-- What stands somewhere in an object with some members left out stands in the whole object. -/
theorem mem_positions_of_subset (subset : members ⊆ others) {position : Json}
    (mem : position ∈ (Json.object members).positions) :
    position = .object members ∨ position ∈ (Json.object others).positions := by
  refine (mem_positions_iff.1 mem).imp_right ?_
  rintro ⟨child, below, under⟩
  obtain ⟨member, own, found⟩ := mem_subschemas_iff.1 below
  have below := mem_subschemas_iff.2 ⟨member, subset own, found⟩
  exact mem_positions_iff.2 (.inr ⟨child, below, under⟩)

theorem references_subset (subset : members ⊆ others) :
    references (.object members) ⊆ references (.object others) :=
  fun _ mem => mem_references_iff.2 (subset (mem_references_iff.1 mem))

end

end Json

end SchemaStream
