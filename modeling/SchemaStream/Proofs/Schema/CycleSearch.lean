import SchemaStream.Schema.CycleSearch
import SchemaStream.Proofs.Schema.Rounds
import Mathlib.Data.Finset.Card
import Mathlib.Logic.Relation

/-!
# The search for cycles is exact

A definition is found exactly if a walk along the references leads from it to a definition that
lies on a closed walk.  The invariant of the search is that verdicts once marked are right, and
that every definition under way leads to the one that is searched: so to come back to one under
way is to have closed a walk, and no verdict depends on what is still under way.  Nothing in
this depends on the order in which definitions are searched.
-/

namespace SchemaStream

namespace Schema

theorem mem_pendingNames_iff {pending : List Schema} {name : String} :
    name ∈ pendingNames pending ↔ ∃ node ∈ pending, name ∈ node.referencedNames := by
  induction pending using pendingNames.induct with
  | case1 => simp [pendingNames]
  | case2 node pending ih =>
      rw [pendingNames, List.mem_append, ih, List.exists_mem_cons_iff, mem_referencedNames_iff,
        Option.mem_toList, Option.bind_eq_bind, Option.bind_eq_some_iff, or_assoc]
      refine or_congr_right ?_
      simp only [List.mem_append, List.mem_reverse, or_and_right, exists_or]

end Schema

namespace Definitions

variable {definitions : Members Schema} {P Q : String → Prop} {name other : String}
  {marks after : Marks}

/-! ## Walks along references -/

/-- A node below a definition carries a reference to an existing definition. -/
def Refers (definitions : Members Schema) (name other : String) : Prop :=
  other ∈ Members.keys definitions ∧
    ∃ body, Members.get? definitions name = some body ∧
      ∃ node ∈ body.preorder, ∃ reference, node.reference = some reference ∧
        Reference.name? reference = some other

/-- A walk leads to a definition on a closed walk that is not empty. -/
def LeadsIntoCycle (definitions : Members Schema) (name : String) : Prop :=
  ∃ other, Relation.ReflTransGen (Refers definitions) name other ∧
    Relation.TransGen (Refers definitions) other other

theorem refers_iff : Refers definitions name other ↔
    other ∈ Members.keys definitions ∧
      ∃ body, Members.get? definitions name = some body ∧ other ∈ body.referencedNames := by
  refine and_congr_right fun _ => exists_congr fun body => and_congr_right fun _ => ?_
  simp only [Schema.referencedNames, List.mem_filterMap, Option.bind_eq_bind,
    Option.bind_eq_some_iff]

/-- What can be told of the definitions on a cycle or leading into one: it holds on a cycle, and
of a definition just if it refers to one of which it holds. -/
structure TellsCycles (definitions : Members Schema) (P : String → Prop) : Prop where
  closed : ∀ name, Relation.TransGen (Refers definitions) name name → P name
  step : ∀ name, P name ↔ ∃ other, Refers definitions name other ∧ P other

theorem TellsCycles.defined (tells : TellsCycles definitions P) (holds : P name) :
    ∃ body, Members.get? definitions name = some body := by
  obtain ⟨other, ⟨-, body, found, -⟩, -⟩ := (tells.step name).1 holds
  exact ⟨body, found⟩

theorem tellsCycles_leadsIntoCycle : TellsCycles definitions (LeadsIntoCycle definitions) where
  closed _ closes := ⟨_, .refl, closes⟩
  step name := by
    constructor
    · rintro ⟨last, leads, closes⟩
      rcases Relation.ReflTransGen.cases_head leads with rfl | ⟨next, first, rest⟩
      · obtain ⟨next, first, rest⟩ := Relation.TransGen.head'_iff.1 closes
        exact ⟨next, first, _, rest, closes⟩
      · exact ⟨next, first, last, rest, closes⟩
    · rintro ⟨next, first, last, rest, closes⟩
      exact ⟨last, rest.head first, closes⟩

/-- A walk from a settled definition goes down in rank. -/
theorem round_lt_of_transGen (distinct : (Members.keys definitions).Nodup)
    (walk : Relation.TransGen (Refers definitions) name other)
    (settled : name ∉ cyclic definitions) :
    other ∉ cyclic definitions ∧ round definitions other < round definitions name := by
  have one {name other : String} (refers : Refers definitions name other)
      (settled : name ∉ cyclic definitions) :
      other ∉ cyclic definitions ∧ round definitions other < round definitions name := by
    obtain ⟨defined, body, found, mem⟩ := refers_iff.1 refers
    have later : other ∉ cyclic definitions := fun cycles =>
      settled ((mem_cyclic_iff_exists distinct found).2 ⟨other, mem, cycles⟩)
    exact ⟨later, (grounded distinct).descends name body found settled other mem ⟨defined, later⟩⟩
  induction walk with
  | single refers => exact one refers settled
  | tail _ refers ih =>
      obtain ⟨later, low⟩ := one refers ih.1
      exact ⟨later, low.trans ih.2⟩

theorem tellsCycles_cyclic (distinct : (Members.keys definitions).Nodup) :
    TellsCycles definitions (· ∈ cyclic definitions) where
  closed name closes := by
    by_contra settled
    exact (round_lt_of_transGen distinct closes settled).2.false
  step name := by
    constructor
    · intro cycles
      obtain ⟨body, found⟩ := Members.mem_keys_iff_exists_get?.1 (cyclic_subset_keys cycles)
      obtain ⟨other, mem, next⟩ := (mem_cyclic_iff_exists distinct found).1 cycles
      exact ⟨other, refers_iff.2 ⟨cyclic_subset_keys next, body, found, mem⟩, next⟩
    · rintro ⟨other, refers, next⟩
      obtain ⟨-, body, found, mem⟩ := refers_iff.1 refers
      exact (mem_cyclic_iff_exists distinct found).2 ⟨other, mem, next⟩

/-! ## Marks -/

/-- Only definitions are marked, and each verdict says whether `P` holds. -/
structure Right (definitions : Members Schema) (P : String → Prop) (marks : Marks) : Prop where
  defined : Members.keys marks ⊆ Members.keys definitions
  verdict : ∀ name cyclic, Members.get? marks name = some (.searched cyclic) →
    (cyclic = true ↔ P name)

/-- Marks may come in, but what is under way stays the same. -/
structure Continues (marks after : Marks) : Prop where
  grows : Members.keys marks ⊆ Members.keys after
  underWay : ∀ name, Members.get? after name = some .underWay ↔
    Members.get? marks name = some .underWay

theorem Continues.refl (marks : Marks) : Continues marks marks :=
  ⟨List.Subset.refl _, fun _ => Iff.rfl⟩

theorem Continues.trans {last : Marks} (first : Continues marks after)
    (second : Continues after last) : Continues marks last :=
  ⟨List.Subset.trans first.grows second.grows,
    fun name => (second.underWay name).trans (first.underWay name)⟩

theorem Right.insert (right : Right definitions P marks) (defined : name ∈ Members.keys definitions)
    {mark : Mark} (own : ∀ cyclic, mark = .searched cyclic → (cyclic = true ↔ P name)) :
    Right definitions P (Members.insert marks name mark) where
  defined key mem := (Members.mem_keys_insert.1 mem).elim (· ▸ defined) (right.defined ·)
  verdict key cyclic found := by
    rw [Members.get?_insert] at found
    split at found
    · next same => exact same ▸ own cyclic (Option.some.inj found)
    · exact right.verdict key cyclic found

/-- A definition was under way in between, and has its verdict at the end. -/
theorem Continues.close (new : Members.get? marks name = none)
    (inside : Continues (Members.insert marks name .underWay) after) (cyclic : Bool) :
    Continues marks (Members.insert after name (.searched cyclic)) where
  grows key mem := Members.mem_keys_insert.2
    (.inr (inside.grows (Members.mem_keys_insert.2 (.inr mem))))
  underWay key := by
    have between := inside.underWay key
    rw [Members.get?_insert] at between ⊢
    split at between
    · next same =>
        subst same
        simp [new]
    · next other => rwa [if_neg other]

theorem right_nil : Right definitions P [] := ⟨List.nil_subset _, fun _ _ => nofun⟩

/-- How many definitions are not marked yet. -/
def unmarked (definitions : Members Schema) (marks : Marks) : Nat :=
  ((Members.keys definitions).toFinset \ (Members.keys marks).toFinset).card

theorem unmarked_nil_le (definitions : Members Schema) :
    unmarked definitions [] ≤ definitions.length := by
  refine (Finset.card_le_card Finset.sdiff_subset).trans ?_
  refine (List.toFinset_card_le _).trans ?_
  rw [Members.keys, List.length_map]

theorem unmarked_le (grows : Members.keys marks ⊆ Members.keys after) :
    unmarked definitions after ≤ unmarked definitions marks := by
  refine Finset.card_le_card (Finset.sdiff_subset_sdiff (Finset.Subset.refl _) fun name mem => ?_)
  rw [List.mem_toFinset] at mem ⊢
  exact grows mem

theorem unmarked_insert_lt (defined : name ∈ Members.keys definitions)
    (new : name ∉ Members.keys marks) (mark : Mark) :
    unmarked definitions (Members.insert marks name mark) < unmarked definitions marks := by
  refine Finset.card_lt_card (Finset.ssubset_iff_of_subset ?_ |>.2 ⟨name, ?_, ?_⟩)
  · refine Finset.sdiff_subset_sdiff (Finset.Subset.refl _) fun key mem => ?_
    rw [List.mem_toFinset] at mem ⊢
    exact Members.mem_keys_insert.2 (.inr mem)
  · simp [defined, new]
  · simp [Members.mem_keys_insert]

/-! ## Verdicts -/

/-- A search tells whether something holds, and goes on from right marks to right marks. -/
def Tells (definitions : Members Schema) (P : String → Prop) (marks : Marks)
    (search : CycleSearch Bool) (holds : Prop) : Prop :=
  ∃ cyclic after, search.run marks = some (cyclic, after) ∧ (cyclic = true ↔ holds) ∧
    Right definitions P after ∧ Continues marks after

theorem tells_anyM (names : List String) (search : String → CycleSearch Bool)
    (each : ∀ name ∈ names, ∀ after, Right definitions P after → Continues marks after →
      Tells definitions P after (search name) (P name))
    (right : Right definitions P marks) :
    Tells definitions P marks (names.anyM search) (∃ name ∈ names, P name) := by
  induction names generalizing marks with
  | nil => exact ⟨false, marks, rfl, by simp, right, .refl marks⟩
  | cons name rest ih =>
      rw [List.forall_mem_cons] at each
      obtain ⟨cyclic, mid, ran, holds, right', first⟩ := each.1 marks right (.refl marks)
      rw [List.anyM_cons]
      cases cyclic with
      | true =>
          refine ⟨true, mid, ?_, ?_, right', first⟩
          · rw [StateT.run_bind, ran]
            rfl
          · simpa using .inl (holds.1 rfl)
      | false =>
          obtain ⟨cyclic, last, ran', holds', right'', second⟩ :=
            ih (fun name mem after right continues =>
              each.2 name mem after right (first.trans continues)) right'
          refine ⟨cyclic, last, ?_, ?_, right'', first.trans second⟩
          · rw [StateT.run_bind, ran]
            exact ran'
          · have fails : ¬ P name := fun own => Bool.false_ne_true (holds.2 own)
            simpa [fails] using holds'

/-- Every definition under way leads to the one that is searched. -/
def Leads (definitions : Members Schema) (marks : Marks) (name : String) : Prop :=
  ∀ above, Members.get? marks above = some .underWay →
    Relation.TransGen (Refers definitions) above name

section

variable {body : Schema} {depth : Nat}

theorem run_reachesCycle_of_marked {mark : Mark} (marked : Members.get? marks name = some mark) :
    (reachesCycle definitions (depth + 1) name).run marks =
      some (match mark with | .underWay => true | .searched cyclic => cyclic, marks) := by
  rw [reachesCycle, StateT.run_bind, StateT.run_get]
  cases mark <;> simp [marked]

theorem run_reachesCycle_of_undefined (new : Members.get? marks name = none)
    (undefined : Members.get? definitions name = none) :
    (reachesCycle definitions (depth + 1) name).run marks = some (false, marks) := by
  rw [reachesCycle, StateT.run_bind, StateT.run_get]
  simp [new, undefined]

theorem run_reachesCycle_of_new (new : Members.get? marks name = none)
    (found : Members.get? definitions name = some body) {cyclic : Bool}
    (ran : ((Schema.pendingNames [body]).anyM (reachesCycle definitions depth)).run
      (Members.insert marks name .underWay) = some (cyclic, after)) :
    (reachesCycle definitions (depth + 1) name).run marks =
      some (cyclic, Members.insert after name (.searched cyclic)) := by
  rw [reachesCycle, StateT.run_bind, StateT.run_get]
  simp [new, found, ran]

end

/-- What a definition refers to is searched with that definition under way as well. -/
theorem Leads.underWay (leads : Leads definitions marks name)
    (refers : Refers definitions name other) :
    Leads definitions (Members.insert marks name .underWay) other := by
  intro above found
  rw [Members.get?_insert] at found
  split at found
  · next same => exact same ▸ .single refers
  · exact (leads above found).tail refers

theorem tells_reachesCycle (tells : TellsCycles definitions P) {depth : Nat}
    (right : Right definitions P marks)
    (leads : name ∈ Members.keys definitions → Leads definitions marks name)
    (enough : unmarked definitions marks < depth) :
    Tells definitions P marks (reachesCycle definitions depth name) (P name) := by
  induction depth generalizing marks name with
  | zero => exact absurd enough (Nat.not_lt_zero _)
  | succ depth ih =>
      cases marked : Members.get? marks name with
      | some mark =>
          have defined := right.defined (Members.mem_keys_iff_exists_get?.2 ⟨mark, marked⟩)
          refine ⟨_, marks, run_reachesCycle_of_marked marked, ?_, right, .refl marks⟩
          cases mark with
          | underWay => simpa using tells.closed name (leads defined name marked)
          | searched cyclic => exact right.verdict name cyclic marked
      | none =>
          cases found : Members.get? definitions name with
          | none =>
              refine ⟨false, marks, run_reachesCycle_of_undefined marked found, ?_, right,
                .refl marks⟩
              refine iff_of_false Bool.false_ne_true fun holds => ?_
              obtain ⟨body, found'⟩ := tells.defined holds
              cases found.symm.trans found'
          | some body =>
              have defined : name ∈ Members.keys definitions :=
                Members.mem_keys_iff_exists_get?.2 ⟨body, found⟩
              have start : Right definitions P (Members.insert marks name .underWay) :=
                right.insert defined nofun
              have fewer : unmarked definitions (Members.insert marks name .underWay) < depth :=
                Nat.lt_of_lt_of_le
                  (unmarked_insert_lt defined (Members.get?_eq_none_iff.1 marked) _)
                  (Nat.le_of_lt_succ enough)
              have refers {other : String} (mem : other ∈ Schema.pendingNames [body])
                  (existing : other ∈ Members.keys definitions) :
                  Refers definitions name other :=
                refers_iff.2
                  ⟨existing, body, found, by simpa [Schema.mem_pendingNames_iff] using mem⟩
              -- Whatever comes to be marked in between, the same definitions are under way.
              obtain ⟨cyclic, after, ran, holds, right', inside⟩ := tells_anyM (P := P) _
                (reachesCycle definitions depth) (fun other mem mid right continues => by
                  refine ih right (fun existing above under => ?_)
                    ((unmarked_le continues.grows).trans_lt fewer)
                  exact (leads defined).underWay (refers mem existing) above
                    ((continues.underWay above).1 under)) start
              have own : cyclic = true ↔ P name := by
                rw [holds, tells.step]
                constructor
                · rintro ⟨other, mem, next⟩
                  obtain ⟨body, existing⟩ := tells.defined next
                  exact ⟨other, refers mem (Members.mem_keys_iff_exists_get?.2 ⟨body, existing⟩),
                    next⟩
                · rintro ⟨other, edge, next⟩
                  obtain ⟨-, body', found', mem⟩ := refers_iff.1 edge
                  cases found.symm.trans found'
                  exact ⟨other, by simpa [Schema.mem_pendingNames_iff] using mem, next⟩
              refine ⟨cyclic, _, run_reachesCycle_of_new marked found ran, own, ?_,
                inside.close marked cyclic⟩
              exact right'.insert defined fun verdict same => by rwa [← Mark.searched.inj same]

/-! ## The whole table -/

section

variable {depth : Nat} (tells : TellsCycles definitions P) (enough : definitions.length < depth)
include tells enough

theorem tells_reachesCycle_of_idle (name : String) (right : Right definitions P marks)
    (idle : Continues [] marks) :
    Tells definitions P marks (reachesCycle definitions depth name) (P name) := by
  refine tells_reachesCycle tells right (fun _ above under => ?_) ?_
  · cases (idle.underWay above).1 under
  · exact (unmarked_le idle.grows).trans_lt ((unmarked_nil_le definitions).trans_lt enough)

theorem run_filterAuxM [DecidablePred P] (names found : List String)
    (right : Right definitions P marks) (idle : Continues [] marks) :
    ∃ after, (names.filterAuxM (reachesCycle definitions depth) found).run marks =
      some ((names.filter fun name => P name).reverse ++ found, after) := by
  induction names generalizing marks found with
  | nil => exact ⟨marks, rfl⟩
  | cons name rest ih =>
      obtain ⟨cyclic, mid, ran, holds, right', continues⟩ :=
        tells_reachesCycle_of_idle tells enough name right idle
      obtain ⟨after, more⟩ := ih (cond cyclic (name :: found) found) right' (idle.trans continues)
      refine ⟨after, ?_⟩
      rw [List.filterAuxM, StateT.run_bind, ran]
      refine more.trans ?_
      cases cyclic with
      | true => simp [holds.1 rfl]
      | false =>
          have fails : ¬ P name := fun own => Bool.false_ne_true (holds.2 own)
          simp [fails]

theorem run_filterM [DecidablePred P] (names : List String) :
    ∃ after, (names.filterM (reachesCycle definitions depth)).run [] =
      some (names.filter fun name => P name, after) := by
  obtain ⟨after, ran⟩ := run_filterAuxM tells enough names [] right_nil (.refl [])
  refine ⟨after, ?_⟩
  rw [List.filterM, StateT.run_bind, ran]
  simp

end

theorem run'_of_run {α : Type} {search : CycleSearch α} {value : α}
    (ran : search.run marks = some (value, after)) : search.run' marks = some value := by
  change Prod.fst <$> search.run marks = some value
  rw [ran]
  rfl

/-- One search comes to one verdict, so only one thing can be told of cycles. -/
theorem TellsCycles.unique (tells : TellsCycles definitions P) (tells' : TellsCycles definitions Q)
    (name : String) : P name ↔ Q name := by
  obtain ⟨cyclic, after, ran, holds, -⟩ := tells_reachesCycle_of_idle tells
    definitions.length.lt_succ_self name right_nil (.refl [])
  obtain ⟨cyclic', after', ran', holds', -⟩ := tells_reachesCycle_of_idle tells'
    definitions.length.lt_succ_self name right_nil (.refl [])
  cases ran.symm.trans ran'
  exact holds.symm.trans holds'

theorem mem_cyclic_iff_leadsIntoCycle (distinct : (Members.keys definitions).Nodup) :
    name ∈ cyclic definitions ↔ LeadsIntoCycle definitions name :=
  (tellsCycles_cyclic distinct).unique tellsCycles_leadsIntoCycle name

theorem refers_congr {others : Members Schema} (same : Members.Reordered definitions others) :
    Refers definitions = Refers others := by
  funext name other
  have names : other ∈ Members.keys definitions ↔ other ∈ Members.keys others :=
    (same.perm.map Prod.fst).mem_iff
  simp only [Refers, same.get?_eq, names]

end Definitions

namespace Document

open Definitions (LeadsIntoCycle)

variable {document : Document} {depth : Nat}

theorem searchCyclic_eq (distinct : (Members.keys document.definitions).Nodup)
    (enough : document.definitions.length < depth) :
    document.searchCyclic depth = some document.cyclicDefinitions := by
  obtain ⟨after, ran⟩ := Definitions.run_filterM (Definitions.tellsCycles_cyclic distinct) enough
    (Members.keys document.definitions)
  have own : (Members.keys document.definitions).filter
      (fun name => name ∈ Definitions.cyclic document.definitions) =
        document.cyclicDefinitions := by
    refine List.filter_congr fun name mem => ?_
    simp [Definitions.mem_cyclic_iff, mem]
  exact own ▸ Definitions.run'_of_run ran

theorem hasCycle_iff : document.hasCycle = true ↔ ∃ name, name ∈ document.cyclicDefinitions := by
  rw [hasCycle, Bool.not_eq_true', List.isEmpty_eq_false_iff_exists_mem]

theorem searchCycle_eq (distinct : (Members.keys document.definitions).Nodup)
    (enough : document.definitions.length < depth) :
    document.searchCycle depth = some document.hasCycle := by
  have tells := Definitions.tellsCycles_cyclic distinct
  obtain ⟨cyclic, after, ran, holds, -⟩ := Definitions.tells_anyM
    (Members.keys document.definitions) _
    (fun name _ mid right continues =>
      Definitions.tells_reachesCycle_of_idle tells enough name right continues)
    Definitions.right_nil
  have same : cyclic = document.hasCycle := by
    rw [Bool.eq_iff_iff, holds, hasCycle_iff]
    exact exists_congr fun name => and_iff_right_of_imp fun mem =>
      Definitions.cyclic_subset_keys mem
  exact same ▸ Definitions.run'_of_run ran

/-- The definitions found are those from which a walk along the references leads to a closed
walk, and the order of the table makes no difference. -/
theorem cycle_detection_is_exact (distinct : (Members.keys document.definitions).Nodup) :
    (∀ depth > document.definitions.length,
      document.searchCyclic depth = some document.cyclicDefinitions ∧
        document.searchCycle depth = some document.hasCycle) ∧
    (∀ name, name ∈ document.cyclicDefinitions ↔ LeadsIntoCycle document.definitions name) ∧
    (document.hasCycle = true ↔ ∃ name, name ∈ document.cyclicDefinitions) ∧
    ∀ other : Document, document.definitions.Perm other.definitions →
      (∀ name, name ∈ other.cyclicDefinitions ↔ name ∈ document.cyclicDefinitions) ∧
        other.hasCycle = document.hasCycle := by
  have exact (name : String) : name ∈ document.cyclicDefinitions ↔
      LeadsIntoCycle document.definitions name :=
    Definitions.mem_cyclic_iff_leadsIntoCycle distinct
  refine ⟨fun depth enough => ⟨searchCyclic_eq distinct enough, searchCycle_eq distinct enough⟩,
    exact, hasCycle_iff, fun other perm => ?_⟩
  have same : Members.Reordered document.definitions other.definitions := ⟨distinct, perm⟩
  have found (name : String) : name ∈ other.cyclicDefinitions ↔
      name ∈ document.cyclicDefinitions := by
    rw [exact, cyclicDefinitions, Definitions.mem_cyclic_iff_leadsIntoCycle same.distinct_right,
      LeadsIntoCycle, LeadsIntoCycle, Definitions.refers_congr same]
  refine ⟨found, ?_⟩
  rw [Bool.eq_iff_iff, hasCycle_iff, hasCycle_iff]
  exact exists_congr found

/-- Two definitions refer to each other; one leads into them, and one is shared with another
that does not. -/
def interlinked : Document where
  root := .apart {}
  definitions :=
    [("Entry", { reference := some "#/definitions/A" }),
      ("A",
        { properties :=
            [("leaf", { reference := some "#/definitions/Leaf" }),
              ("b", { reference := some "#/$defs/B" })] }),
      ("B", { items := some { reference := some "#/definitions/A" } }),
      ("Side", { anyOf := [{ reference := some "#/definitions/Leaf" },
        { reference := some "#/definitions/Missing" }] }),
      ("Leaf", .ofType .string)]

theorem cycles_of_interlinked :
    (Members.keys interlinked.definitions).Nodup ∧
      interlinked.searchCyclic 6 = some ["Entry", "A", "B"] ∧
      interlinked.searchCycle 6 = some true ∧
      LeadsIntoCycle interlinked.definitions "Entry" ∧
      ¬ LeadsIntoCycle interlinked.definitions "Side" ∧
      "Entry" ∈ cyclicDefinitions { interlinked with
        definitions := interlinked.definitions.reverse } := by
  have distinct : (Members.keys interlinked.definitions).Nodup := by decide
  have found : interlinked.cyclicDefinitions = ["Entry", "A", "B"] := by decide
  have cycle : interlinked.hasCycle = true := by decide
  obtain ⟨searched, exact, -, orders⟩ := cycle_detection_is_exact distinct
  rw [found, cycle] at searched
  rw [found] at exact orders
  refine ⟨distinct, (searched 6 (by decide)).1, (searched 6 (by decide)).2, ?_, ?_, ?_⟩
  · exact (exact "Entry").1 (by decide)
  · exact fun leads => absurd ((exact "Side").2 leads) (by decide)
  · refine ((orders { interlinked with definitions := interlinked.definitions.reverse } ?_).1
      "Entry").2 (by decide)
    exact (List.reverse_perm _).symm

end Document

end SchemaStream
