import SchemaStream.Proofs.Schema.CycleSearch
import SchemaStream.Proofs.Schema.Remaining
import SchemaStream.Proofs.Schema.Shapes
import SchemaStream.Schema.Guard

/-!
# References that lead down

Ranked by the round in which they are settled, the definitions that lead into no cycle rank below
all definitions that refer to them.  So a node leads down wherever it comes to stand: as a child,
in a definition that is put in, and with an expanded member folded in.
-/

namespace SchemaStream

namespace Guard

variable {rank : String → Nat} {within : Option String} {name other : String}

theorem descending_iff :
    descending rank within name = true ↔ ∀ above ∈ within, rank name < rank above := by
  simp [descending, Option.all_eq_true]

theorem descending_of_lt (low : rank other < rank name)
    (descends : descending rank within name = true) : descending rank within other = true := by
  rw [descending_iff] at descends ⊢
  exact fun above mem => low.trans (descends above mem)

end Guard

/-! ## The rounds of all definitions -/

namespace Definitions

variable {definitions : Members Schema} {name other : String}

theorem settledAfter_subset {rounds more : Nat} (few : rounds ≤ more) :
    settledAfter definitions rounds ⊆ settledAfter definitions more := by
  induction few with
  | refl => exact List.Subset.refl _
  | step _ ih => exact List.Subset.trans ih (settledAfter_sublist_succ definitions _).subset

/-- A definition that is never settled ranks above all that are. -/
theorem length_le_round (unsettled : name ∉ settled definitions) :
    definitions.length ≤ round definitions name := by
  by_contra low
  rw [Nat.not_le] at low
  have inRange : round definitions name < (List.range definitions.length).length := by
    simpa using low
  have found : name ∈ settledAfter definitions
      ((List.range definitions.length)[round definitions name] + 1) :=
    List.contains_iff_mem.1 (List.findIdx_getElem (w := inRange))
  rw [List.getElem_range] at found
  exact unsettled (settledAfter_subset low found)

theorem round_lt_round (distinct : (Members.keys definitions).Nodup)
    (refers : Refers definitions name other) (acyclic : other ∉ cyclic definitions) :
    round definitions other < round definitions name := by
  obtain ⟨defined, body, found, mem⟩ := refers_iff.1 refers
  by_cases cycles : name ∈ cyclic definitions
  · have low := (mem_settledAfter_round ((mem_settled_iff defined).2 acyclic)).1
    exact low.trans_le (length_le_round (mem_cyclic_iff.1 cycles).2)
  · exact (grounded distinct).descends name body found cycles other mem ⟨defined, acyclic⟩

end Definitions

/-! ## Nodes -/

namespace Expansion

/-- The definitions that the references below a node are replaced by rank below the one that the
node belongs to. -/
def LeadsDown (expansion : Expansion) (rank : String → Nat) (within : Option String)
    (schema : Schema) : Prop :=
  ∀ name ∈ schema.referencedNames, expansion.Inlines name →
    Guard.descending rank within name = true

/-- A definition that may be put in for a node that belongs to `within`. -/
def Allows (expansion : Expansion) (rank : String → Nat) (within : Option String)
    (name : String) : Prop :=
  expansion.Inlines name ∧ Guard.descending rank within name = true

namespace LeadsDown

variable {expansion : Expansion} {rank : String → Nat} {within : Option String}
  {schema child member result body : Schema} {name : String}

theorem free (expansion : Expansion) (rank : String → Nat) (schema : Schema) :
    expansion.LeadsDown rank none schema := fun _ _ _ => rfl

theorem children (down : expansion.LeadsDown rank within schema) (mem : child ∈ schema.children) :
    expansion.LeadsDown rank within child := fun name refers =>
  down name (Schema.mem_referencedNames_iff.2 (.inr ⟨child, mem, refers⟩))

theorem reference {reference : String} (down : expansion.LeadsDown rank within schema)
    (refers : schema.reference = some reference) (named : Reference.name? reference = some name)
    (inlines : expansion.Inlines name) : Guard.descending rank within name = true :=
  down name (Schema.mem_referencedNames_iff.2 (.inl ⟨reference, refers, named⟩)) inlines

theorem definition (grounded : expansion.Grounded rank)
    (found : Members.get? expansion.definitions name = some body)
    (inlines : expansion.Inlines name) : expansion.LeadsDown rank (some name) body :=
  fun other refers put => Guard.descending_iff.2 fun _ above =>
    Option.some.inj above ▸ grounded.descends name body found inlines.2 other refers put

theorem overlaid (down : expansion.LeadsDown rank within body) (site : Schema) :
    expansion.LeadsDown rank within (body.overlaid site) := fun name refers =>
  down name (Schema.mem_referencedNames_of_overlaid refers)

/-- The member of an `allOf` brings nothing that is still to be replaced. -/
theorem folded (grounded : expansion.Grounded rank)
    (down : expansion.LeadsDown rank within schema)
    (expands : expansion.expand member = .ok result) :
    expansion.LeadsDown rank within (schema.folded result) := by
  intro name refers inlines
  rcases Schema.mem_referencedNames_iff.1 refers with ⟨reference, own, named⟩ | ⟨child, mem, below⟩
  · exact down.reference own named inlines
  · rcases List.mem_append.1 (Shape.children_folded_subset schema.shape result.shape mem) with
      own | added
    · exact down.children own name below inlines
    · exact absurd inlines (grounded.not_inlines_of_expand expands name
        (Schema.mem_referencedNames_iff.2 (.inr ⟨child, added, below⟩)))

end LeadsDown

end Expansion

end SchemaStream
