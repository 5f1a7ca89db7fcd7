import SchemaStream.Proofs.Schema.Expanded
import SchemaStream.Proofs.Schema.ReferenceChains
import SchemaStream.Proofs.Typing.Alike

/-!
# Types before and after expansion

The type of a schema reads through the references that expansion replaces.  The two agree at a
node if the node is typed like what is put in its place, and the union that it may be like the
union of what is put in the place of its members.
-/

namespace SchemaStream

namespace Expansion

open Schema (TypedAlike SameFrame)

variable {expansion after : Expansion} {rank rank' : String → Nat}
  {root node definition result expanded : Schema}

/-! ## What is put in the place of a node -/

/-- What stands in the place of a node before it is expanded further. -/
def putIn (expansion : Expansion) (node : Schema) : Schema :=
  (expansion.inlined? node).toOption.join.getD node

/-- A node with definitions put in for the node itself and for the members of its unions. -/
def opened (expansion : Expansion) (node : Schema) : Schema :=
  { expansion.putIn node with
    anyOf := (expansion.putIn node).anyOf.map expansion.putIn
    oneOf := (expansion.putIn node).oneOf.map expansion.putIn }

theorem putIn_of_inlined (found : expansion.inlined? node = .ok (some definition)) :
    expansion.putIn node = definition := by
  rw [putIn, found]
  rfl

theorem putIn_of_stays (stays : expansion.inlined? node = .ok none) :
    expansion.putIn node = node := by
  rw [putIn, stays]
  rfl

theorem inlined?_of_inlined (found : expansion.inlined? node = .ok (some definition)) :
    expansion.inlined? definition = .ok none := by
  obtain ⟨_, _, body, _, _, _, _, rfl⟩ := inlined?_eq_some_iff.1 found
  exact inlined?_of_no_reference rfl

theorem opened_of_inlined (found : expansion.inlined? node = .ok (some definition)) :
    expansion.opened node = expansion.opened definition := by
  rw [opened, opened, putIn_of_inlined found, putIn_of_stays (inlined?_of_inlined found)]

theorem opened_of_stays (stays : expansion.inlined? node = .ok none) :
    expansion.opened node =
      { node with
        anyOf := node.anyOf.map expansion.putIn
        oneOf := node.oneOf.map expansion.putIn } := by
  rw [opened, putIn_of_stays stays]

theorem inlined?_putIn_or (expansion : Expansion) (node : Schema) :
    expansion.inlined? node = .ok (some (expansion.putIn node)) ∨ expansion.putIn node = node := by
  cases found : expansion.inlined? node with
  | error fault => exact .inr (by rw [putIn, found]; rfl)
  | ok definition =>
      cases definition with
      | none => exact .inr (putIn_of_stays found)
      | some definition => exact .inl (by rw [putIn_of_inlined found])

theorem Grounded.expand_putIn (grounded : expansion.Grounded rank) (node : Schema) :
    expansion.expand (expansion.putIn node) = expansion.expand node := by
  rcases expansion.inlined?_putIn_or node with found | own
  · rw [grounded.expand_eq node, expandNode_of_inlined found]
  · rw [own]

theorem Reached.putIn (reached : expansion.Reached root node) :
    expansion.Reached root (expansion.putIn node) := by
  rcases expansion.inlined?_putIn_or node with found | own
  · exact .inlined reached found
  · rwa [own]

/-! ## Expanding without `allOf` -/

/-- A node that stays is expanded child by child. -/
theorem Grounded.expand_of_stays (grounded : expansion.Grounded rank)
    (stays : expansion.inlined? node = .ok none) (bare : node.allOf = [])
    (expands : expansion.expand node = .ok result) :
    (Parts.ofNode node).Rel (fun child part => expansion.expand child = .ok part)
        (Parts.ofNode result) ∧
      result = { node with
        properties := result.properties
        items := result.items
        anyOf := result.anyOf
        oneOf := result.oneOf } := by
  rw [grounded.expand_eq, expandNode_eq_ok_iff] at expands
  obtain ⟨parts, placed, rfl⟩ := (expands.resolve_left fun ⟨definition, found, _⟩ => by
    cases stays.symm.trans found).2
  have each := (expandParts_eq_ok_iff.1 placed).2
  obtain ⟨allOf, properties, items, anyOf, oneOf⟩ := parts
  have none : allOf = [] := by
    have count : node.allOf.length = allOf.length := each.allOf.length_eq
    rw [bare] at count
    exact List.length_eq_zero_iff.1 count.symm
  subst none
  refine ⟨?_, rfl⟩
  have same : Parts.ofNode (Parts.under { allOf := [], properties, items, anyOf, oneOf } node) =
      { allOf := [], properties, items, anyOf, oneOf } := by
    rw [Parts.under, Parts.ofNode]
    simp [bare]
  rw [same]
  simpa only [grounded.expand_eq] using each

theorem Grounded.kind_expand (grounded : expansion.Grounded rank)
    (stays : expansion.inlined? node = .ok none) (bare : node.allOf = [])
    (expands : expansion.expand node = .ok result) : node.kind = result.kind := by
  obtain ⟨parts, same⟩ := grounded.expand_of_stays stays bare expands
  exact Schema.kind_eq_of_parts (by rw [same]) (by rw [same]) (by rw [same]) parts

/-- Expansion shows whether a node is null of what is put in its place. -/
theorem Grounded.isNull_putIn (grounded : expansion.Grounded rank)
    (bare : (expansion.putIn node).allOf = []) (expands : expansion.expand node = .ok result) :
    (expansion.putIn node).isNull = result.isNull := by
  have stays : expansion.inlined? (expansion.putIn node) = .ok none := by
    rw [grounded.expand_eq, expandNode_eq_ok_iff] at expands
    rcases expands with ⟨definition, found, -⟩ | ⟨stays, -⟩
    · rw [putIn_of_inlined found]
      exact inlined?_of_inlined found
    · rwa [putIn_of_stays stays]
  rw [← grounded.expand_putIn] at expands
  rw [Schema.isNull, Schema.isNull, grounded.kind_expand stays bare expands]

/-! ## The type of what a node expands to -/

/-- A reference that is kept is not read through. -/
theorem Grounded.typeOf_of_kept (grounded : expansion.Grounded rank) {reference key : String}
    (refers : node.reference = some reference) (named : Reference.name? reference = some key)
    (kept : key ∈ expansion.kept) (name : String) : expansion.typeOf name node = .union := by
  have kind : node.kind = .reference := by rw [Schema.kind, refers]; rfl
  have closed : expansion.typing.target? reference = none := by
    rw [Option.eq_none_iff_forall_ne_some]
    intro target found
    obtain ⟨other, same, put, -⟩ := TypeContext.target?_eq_some_iff.1 found
    cases named.symm.trans same
    exact put kept
  rw [← grounded.typeOf_eq, Schema.fieldType_eq]
  dsimp only
  rw [kind, refers, Option.bind_eq_bind, Option.bind_some, closed]

/-- A node has the type of what it expands to, the one read through the references that the other
has no longer. -/
def ShowsType (expansion after : Expansion) (node : Schema) : Prop :=
  ∀ result, expansion.expand node = .ok result →
    TypedAlike expansion.typeOf after.typeOf node result

theorem Grounded.showsType_putIn (grounded : expansion.Grounded rank)
    (shows : expansion.ShowsType after (expansion.putIn node))
    (expands : expansion.expand node = .ok result) :
    TypedAlike expansion.typeOf after.typeOf (expansion.putIn node) result :=
  shows result (by rwa [grounded.expand_putIn])

/-- A node without a reference, opened, has the type of what the node expands to, if all its
children have the types of what they expand to. -/
theorem Grounded.alike_opened (grounded : expansion.Grounded rank)
    (grounded' : after.Grounded rank') (unreferring : node.reference = none)
    (bare : node.allOf = [] ∧ ∀ child ∈ node.children, (expansion.putIn child).allOf = [])
    (expands : expansion.expand node = .ok result)
    (children : ∀ child ∈ node.children, expansion.ShowsType after child ∧
      expansion.ShowsType after (expansion.putIn child)) :
    TypedAlike expansion.typeOf after.typeOf (expansion.opened node) result := by
  have stays : expansion.inlined? node = .ok none := inlined?_of_no_reference unreferring
  obtain ⟨parts, same⟩ := grounded.expand_of_stays stays bare.1 expands
  have each := parts.imp_of_mem (S := fun child part =>
      TypedAlike expansion.typeOf after.typeOf child part ∧
        TypedAlike expansion.typeOf after.typeOf (expansion.putIn child) part ∧
          (expansion.putIn child).isNull = part.isNull) fun child mem part h =>
    ⟨(children child mem).1 part h, grounded.showsType_putIn (children child mem).2 h,
      grounded.isNull_putIn (bare.2 child mem) h⟩
  have frame : SameFrame (expansion.opened node) result := by
    rw [opened_of_stays stays, same]
    refine ⟨⟨unreferring, unreferring⟩, ⟨bare.1, bare.1⟩, rfl, rfl, rfl, fun _ => ?_, fun _ => ?_⟩
    · exact List.forall₂_map_left_iff.2 (each.anyOf.imp fun _ _ both => both.2.2)
    · exact List.forall₂_map_left_iff.2 (each.oneOf.imp fun _ _ both => both.2.2)
  have opens : (Parts.ofNode (expansion.opened node)).Rel
      (TypedAlike expansion.typeOf after.typeOf) (Parts.ofNode result) := by
    rw [opened_of_stays stays]
    refine ⟨each.allOf.imp fun _ _ both => both.1,
      each.properties.imp fun _ _ both => ⟨both.1, both.2.1⟩,
      each.items.imp fun _ _ both => both.1, ?_, ?_⟩
    · exact List.forall₂_map_left_iff.2 (each.anyOf.imp fun _ _ both => both.2.1)
    · exact List.forall₂_map_left_iff.2 (each.oneOf.imp fun _ _ both => both.2.1)
  rw [← grounded.typeOf_eq, ← grounded'.typeOf_eq] at opens ⊢
  exact frame.alike opens

theorem Grounded.alike_of_kept (grounded : expansion.Grounded rank)
    (grounded' : after.Grounded rank') (same : after.kept = expansion.kept)
    (stays : expansion.inlined? node = .ok none) {reference : String}
    (refers : node.reference = some reference) (refers' : result.reference = some reference) :
    TypedAlike expansion.typeOf after.typeOf node result := by
  obtain ⟨key, named, -, kept⟩ := inlined?_eq_none_iff.1 stays reference refers
  intro name name'
  rw [grounded.typeOf_of_kept refers named kept,
    grounded'.typeOf_of_kept refers' named (same ▸ kept)]
  exact .refl _

/-! ## All positions -/

section

variable (grounded : expansion.Grounded rank) (start : root.Everywhere fun node => node.allOf = [])
  (definitions : ∀ definition ∈ expansion.definitions,
    definition.2.Everywhere fun node => node.allOf = [])

include start definitions in
theorem Reached.bare (reached : expansion.Reached root node) :
    node.Everywhere fun node => node.allOf = [] :=
  reached.everywhere (fun _ _ own _ => own) start definitions

include start definitions in
theorem Reached.allOf_putIn (reached : expansion.Reached root node) :
    (expansion.putIn node).allOf = [] :=
  (Schema.everywhere_iff.1 (reached.putIn.bare start definitions)).1

include grounded start definitions

/-- Where every node is typed like the node opened, every node has the type of what it expands
to. -/
theorem showsType_of_opened (grounded' : after.Grounded rank') (same : after.kept = expansion.kept)
    (opens : ∀ node, expansion.Reached root node →
      TypedAlike expansion.typeOf expansion.typeOf node (expansion.opened node))
    (reached : expansion.Reached root node) :
    expansion.ShowsType after node ∧ expansion.ShowsType after (expansion.putIn node) := by
  revert reached
  refine grounded.induct (motive := fun node => expansion.Reached root node →
    expansion.ShowsType after node ∧ expansion.ShowsType after (expansion.putIn node)) ?_ node
  intro node children inlined reached
  have bare := (Schema.everywhere_iff.1 (reached.bare start definitions)).1
  cases found : expansion.inlined? node with
  | error fault =>
      have fails : ∀ result, expansion.expand node ≠ .ok result := by
        intro result expands
        rw [grounded.expand_eq, expandNode_eq, found] at expands
        cases expands
      have own : expansion.putIn node = node := by rw [putIn, found]; rfl
      rw [own]
      exact ⟨fun result expands => absurd expands (fails result),
        fun result expands => absurd expands (fails result)⟩
  | ok definition =>
      cases definition with
      | some definition =>
          -- The definition opened is the node opened.
          have below := Reached.inlined reached found
          have put := (inlined definition found below).1
          rw [putIn_of_inlined found]
          refine ⟨fun result expands => ?_, put⟩
          rw [grounded.expand_eq, expandNode_of_inlined found] at expands
          have here := opens node reached
          rw [opened_of_inlined found] at here
          exact here.trans ((opens definition below).symm.trans (put result expands))
      | none =>
          rw [putIn_of_stays found]
          suffices shows : expansion.ShowsType after node from ⟨shows, shows⟩
          intro result expands
          cases refers : node.reference with
          | some reference =>
              obtain ⟨-, form⟩ := grounded.expand_of_stays found bare expands
              exact grounded.alike_of_kept grounded' same found refers (by rw [form]; exact refers)
          | none =>
              have child (child : Schema) (mem : child ∈ node.children) :
                  expansion.Reached root child := .child reached found mem
              exact (opens node reached).trans (grounded.alike_opened grounded' refers
                ⟨bare, fun part mem => (child part mem).allOf_putIn start definitions⟩ expands
                fun part mem => children part mem (child part mem))

theorem opened_of_showsType (grounded' : after.Grounded rank')
    (succeeds : expansion.expand root = .ok expanded)
    (shows : ∀ node, expansion.Reached root node → expansion.ShowsType after node)
    (reached : expansion.Reached root node) :
    TypedAlike expansion.typeOf expansion.typeOf node (expansion.opened node) := by
  have plain {node : Schema} (reached : expansion.Reached root node)
      (unreferring : node.reference = none) {result : Schema}
      (expands : expansion.expand node = .ok result) :
      TypedAlike expansion.typeOf after.typeOf (expansion.opened node) result := by
    have child (child : Schema) (mem : child ∈ node.children) : expansion.Reached root child :=
      .child reached (inlined?_of_no_reference unreferring) mem
    exact grounded.alike_opened grounded' unreferring
      ⟨(Schema.everywhere_iff.1 (reached.bare start definitions)).1,
        fun part mem => (child part mem).allOf_putIn start definitions⟩ expands
      fun part mem => ⟨shows _ (child part mem), shows _ (child part mem).putIn⟩
  -- The node and the node opened are compared through what both expand to.
  obtain ⟨result, expands⟩ := reached.expands grounded succeeds
  have own := shows node reached result expands
  have step := expands
  rw [grounded.expand_eq, expandNode_eq_ok_iff] at step
  rcases step with ⟨definition, found, step⟩ | ⟨stays, -⟩
  · obtain ⟨_, _, body, _, _, _, _, rfl⟩ := inlined?_eq_some_iff.1 found
    rw [opened_of_inlined found]
    exact own.trans (plain (.inlined reached found) rfl step).symm
  · cases refers : node.reference with
    | some reference =>
        refine grounded.alike_of_kept grounded rfl stays refers ?_
        rw [opened_of_stays stays]
        exact refers
    | none => exact own.trans (plain reached refers expands).symm

end

/-! ## Nodes that are read through as they are put in -/

theorem inlined?_eq_some_iff_target :
    expansion.inlined? node = .ok (some definition) ↔
      ∃ target ∈ node.reference >>= expansion.typing.target?,
        definition = target.overlaid node := by
  simp only [inlined?_eq_some_iff, Option.mem_def, Option.bind_eq_bind, Option.bind_eq_some_iff,
    TypeContext.target?_eq_some_iff]
  constructor
  · rintro ⟨reference, name, body, refers, named, found, put, same⟩
    exact ⟨body, ⟨reference, refers, name, named, put, found⟩, same⟩
  · rintro ⟨body, ⟨reference, refers, name, named, put, found⟩, same⟩
    exact ⟨reference, name, body, refers, named, found, put, same⟩

/-- A node whose reference leads to no other reference, and of whose two members in a union none
is a reference to null. -/
structure Direct (expansion : Expansion) (node : Schema) : Prop where
  last : ∀ target ∈ node.reference >>= expansion.typing.target?, target.reference = none
  nulls : ∀ members ∈ [node.anyOf, node.oneOf], members.length = 2 → ∀ member ∈ members,
    ∀ target ∈ member.reference >>= expansion.typing.target?, target.isNull = false

theorem direct_iff :
    expansion.Direct node ↔
      (∀ target ∈ node.reference >>= expansion.typing.target?, target.reference = none) ∧
        ∀ members ∈ [node.anyOf, node.oneOf], members.length = 2 → ∀ member ∈ members,
          ∀ target ∈ member.reference >>= expansion.typing.target?, target.isNull = false :=
  ⟨fun direct => ⟨direct.last, direct.nulls⟩, fun ⟨last, nulls⟩ => ⟨last, nulls⟩⟩

instance : DecidablePred expansion.Direct := fun _ => decidable_of_iff _ direct_iff.symm

theorem Direct.overlaid {site : Schema} (direct : expansion.Direct definition) :
    expansion.Direct (definition.overlaid site) :=
  ⟨nofun, direct.nulls⟩

theorem putIn_of_no_target (closed : node.reference >>= expansion.typing.target? = none) :
    expansion.putIn node = node := by
  refine (expansion.inlined?_putIn_or node).resolve_left fun found => ?_
  obtain ⟨target, leads, -⟩ := inlined?_eq_some_iff_target.1 found
  rw [closed] at leads
  cases leads

theorem kind_of_target {target : Schema}
    (found : node.reference >>= expansion.typing.target? = some target) :
    node.kind = .reference := by
  obtain ⟨reference, refers, -⟩ := Option.bind_eq_some_iff.1 found
  rw [Schema.kind, refers]
  rfl

theorem Grounded.typeOf_of_target (grounded : expansion.Grounded rank) {target : Schema}
    (found : node.reference >>= expansion.typing.target? = some target) (name : String) :
    expansion.typeOf name node = expansion.typeOf name target := by
  rw [← grounded.typeOf_eq, Schema.fieldType_eq]
  dsimp only
  rw [kind_of_target found, found, grounded.typeOf_eq]

/-- A definition put in is null if it is by itself, unless it is a reference. -/
theorem isNull_overlaid (site : Schema) (unreferring : definition.reference = none) :
    (definition.overlaid site).isNull = definition.isNull := by
  rw [Schema.isNull, Schema.isNull, Schema.kind, Schema.kind, unreferring]
  rfl

theorem isNull_putIn_of_direct (direct : expansion.Direct node)
    (other : ∀ target ∈ node.reference >>= expansion.typing.target?, target.isNull = false) :
    (expansion.putIn node).isNull = node.isNull := by
  cases found : node.reference >>= expansion.typing.target? with
  | none => rw [putIn_of_no_target found]
  | some target =>
      have inlined : expansion.inlined? node = .ok (some (target.overlaid node)) :=
        inlined?_eq_some_iff_target.2 ⟨target, found, rfl⟩
      have unnull : node.isNull = false := by
        rw [Schema.isNull, kind_of_target found]
        rfl
      rw [putIn_of_inlined inlined, isNull_overlaid node (direct.last target found),
        other target found, unnull]

section

variable (grounded : expansion.Grounded rank)
  (definitions : ∀ definition ∈ expansion.definitions,
    definition.2.Everywhere fun node => node.allOf = [])
include definitions

theorem typeOf_self (bare : node.Everywhere fun node => node.allOf = []) :
    TypedAlike expansion.typeOf expansion.typeOf node node :=
  TypeContext.typedAlike_typeWithin definitions _ bare

include grounded

/-- What a site adds to a definition is of no matter to a type. -/
theorem alike_overlaid (site : Schema) (unreferring : definition.reference = none)
    (bare : definition.Everywhere fun node => node.allOf = []) :
    TypedAlike expansion.typeOf expansion.typeOf definition (definition.overlaid site) := by
  obtain ⟨own, children⟩ := Schema.everywhere_iff.1 bare
  have frame : SameFrame definition (definition.overlaid site) :=
    ⟨⟨unreferring, rfl⟩, ⟨own, own⟩, rfl, rfl, rfl, fun _ => List.forall₂_same.2 fun _ _ => rfl,
      fun _ => List.forall₂_same.2 fun _ _ => rfl⟩
  have parts : (Parts.ofNode definition).Rel (TypedAlike expansion.typeOf expansion.typeOf)
      (Parts.ofNode definition) :=
    Parts.Rel.refl_of_mem fun child mem => typeOf_self definitions (children child mem)
  rw [← grounded.typeOf_eq] at parts ⊢
  exact frame.alike parts

variable (start : root.Everywhere fun node => node.allOf = [])
include start

theorem alike_putIn_of_direct (direct : expansion.Direct node)
    (reached : expansion.Reached root node) :
    TypedAlike expansion.typeOf expansion.typeOf node (expansion.putIn node) := by
  cases found : node.reference >>= expansion.typing.target? with
  | none =>
      rw [putIn_of_no_target found]
      exact typeOf_self definitions (reached.bare start definitions)
  | some target =>
      have inlined : expansion.inlined? node = .ok (some (target.overlaid node)) :=
        inlined?_eq_some_iff_target.2 ⟨target, found, rfl⟩
      obtain ⟨reference, -, leads⟩ := Option.bind_eq_some_iff.1 found
      have bare := TypeContext.everywhere_of_target? definitions leads
      rw [putIn_of_inlined inlined]
      intro name name'
      rw [grounded.typeOf_of_target found]
      exact alike_overlaid grounded definitions node (direct.last target found) bare name name'

variable (direct : ∀ node, expansion.Reached root node → expansion.Direct node)
include direct

theorem rel_opened_of_direct (reached : expansion.Reached root node)
    (stays : expansion.inlined? node = .ok none) :
    (Parts.ofNode node).Rel (TypedAlike expansion.typeOf expansion.typeOf)
      (Parts.ofNode (expansion.opened node)) := by
  have each : (Parts.ofNode node).Rel (fun child part =>
      TypedAlike expansion.typeOf expansion.typeOf child part ∧
        TypedAlike expansion.typeOf expansion.typeOf child (expansion.putIn part))
      (Parts.ofNode node) := by
    refine Parts.Rel.refl_of_mem fun child mem => ?_
    have below : expansion.Reached root child := .child reached stays mem
    exact ⟨typeOf_self definitions (below.bare start definitions),
      alike_putIn_of_direct grounded definitions start (direct child below) below⟩
  rw [opened_of_stays stays]
  refine ⟨each.allOf.imp fun _ _ both => both.1,
    each.properties.imp fun _ _ both => ⟨both.1, both.2.1⟩,
    each.items.imp fun _ _ both => both.1, ?_, ?_⟩
  · exact List.forall₂_map_right_iff.2 (each.anyOf.imp fun _ _ both => both.2)
  · exact List.forall₂_map_right_iff.2 (each.oneOf.imp fun _ _ both => both.2)

omit grounded definitions start in
theorem nulls_putIn_of_direct (reached : expansion.Reached root node)
    (stays : expansion.inlined? node = .ok none) {members : List Schema}
    (mem : members ∈ [node.anyOf, node.oneOf]) (two : members.length = 2) :
    List.Forall₂ (fun member other => member.isNull = other.isNull) members
      (members.map expansion.putIn) := by
  refine List.forall₂_map_right_iff.2 (List.forall₂_same.2 fun member within => ?_)
  have child : member ∈ node.children := by
    rcases List.mem_pair.1 mem with rfl | rfl
    · exact Schema.mem_children_of_anyOf within
    · exact Schema.mem_children_of_oneOf within
  exact (isNull_putIn_of_direct (direct member (.child reached stays child))
    ((direct node reached).nulls members mem two member within)).symm

theorem opened_of_direct_of_stays (reached : expansion.Reached root node)
    (stays : expansion.inlined? node = .ok none) :
    TypedAlike expansion.typeOf expansion.typeOf node (expansion.opened node) := by
  cases refers : node.reference with
  | some reference =>
      refine grounded.alike_of_kept grounded rfl stays refers ?_
      rw [opened_of_stays stays]
      exact refers
  | none =>
      have own := (Schema.everywhere_iff.1 (reached.bare start definitions)).1
      have nulls := @nulls_putIn_of_direct _ _ _ direct reached stays
      have frame : SameFrame node (expansion.opened node) := by
        rw [opened_of_stays stays]
        exact ⟨⟨refers, refers⟩, ⟨own, own⟩, rfl, rfl, rfl, nulls (by simp), nulls (by simp)⟩
      have parts := rel_opened_of_direct grounded definitions start direct reached stays
      rw [← grounded.typeOf_eq] at parts ⊢
      exact frame.alike parts

/-- Direct nodes are typed like the nodes opened. -/
theorem opened_of_direct (succeeds : expansion.expand root = .ok expanded)
    (reached : expansion.Reached root node) :
    TypedAlike expansion.typeOf expansion.typeOf node (expansion.opened node) := by
  obtain ⟨result, expands⟩ := reached.expands grounded succeeds
  rw [grounded.expand_eq, expandNode_eq_ok_iff] at expands
  rcases expands with ⟨definition, found, -⟩ | ⟨stays, -⟩
  · have put := alike_putIn_of_direct grounded definitions start (direct node reached) reached
    rw [putIn_of_inlined found] at put
    rw [opened_of_inlined found]
    exact put.trans (opened_of_direct_of_stays grounded definitions start direct
      (.inlined reached found) (inlined?_of_inlined found))
  · exact opened_of_direct_of_stays grounded definitions start direct reached stays

end

end Expansion

namespace Document

open Expansion (Reached ShowsType Direct)

variable {raw : Json} {document expanded : Document} {rootName : String} {record : RecordType}

theorem expand_schema_of_expand (root : document.root = .apart document.schema)
    (expands : document.expand = .ok expanded) :
    document.expansion.expand document.schema = .ok expanded.schema := by
  rw [expand_of_apart root, Outcome.bind_eq_ok_iff] at expands
  obtain ⟨schema, first, expands⟩ := expands
  split at expands
  · cases expands
    exact first
  · obtain ⟨definitions, -, expands⟩ := Outcome.bind_eq_ok_iff.1 expands
    cases expands
    exact first

/-- Whether all nodes that expansion comes by have the types of what they expand to. -/
def KeepsTypes (document expanded : Document) : Prop :=
  ∀ node, document.expansion.Reached document.schema node →
    document.expansion.ShowsType expanded.expansion node

/-- A record of which the properties keep their types accepts the same values. -/
theorem exists_recordType_of_expand (distinct : (Members.keys document.definitions).Nodup)
    (root : document.root = .apart document.schema) (bare : document.schema.allOf = [])
    (unreferring : document.schema.reference = none) (expands : document.expand = .ok expanded)
    (typed : document.recordType rootName = .ok record) :
    ∃ shown, expanded.recordType rootName = .ok shown ∧
      (document.KeepsTypes expanded →
        ∀ value, record.validate value = .ok () ↔ shown.validate value = .ok ()) := by
  have grounded := grounded_expansion distinct
  obtain ⟨-, -, distinct'⟩ := expanded_of_expand root distinct expands
  have grounded' := grounded_expansion distinct'
  have stays : document.expansion.inlined? document.schema = .ok none :=
    Expansion.inlined?_of_no_reference unreferring
  have first := expand_schema_of_expand root expands
  obtain ⟨parts, same⟩ := grounded.expand_of_stays stays bare first
  have unreferring' : expanded.schema.reference = none := by rw [same, unreferring]
  have described : expanded.schema.describesObject = document.schema.describesObject := by
    have kind := grounded.kind_expand stays bare first
    rw [Schema.describesObject, Schema.describesObject, Schema.isObject, Schema.isObject, ← kind]
    rw [same]
  obtain ⟨_, own, describes, rfl⟩ := recordType_eq_ok_iff.1 typed
  rw [recordNode_of_no_reference unreferring] at own
  cases own
  refine ⟨_, recordType_eq_ok_iff.2 ⟨_, recordNode_of_no_reference unreferring',
    described.trans describes, rfl⟩, fun keeps value => ?_⟩
  rw [RecordType.validate_eq_ok_iff, RecordType.validate_eq_ok_iff]
  -- The root is no reference, so only its properties are typed.
  have each := (parts.imp_of_mem fun child mem part h =>
    keeps child (.child .root stays mem) part h).properties
  have required : expanded.schema.required = document.schema.required := by rw [same]
  rw [← grounded.typeOf_eq, ← grounded'.typeOf_eq] at each
  have fields : List.Forall₂ FieldType.SameField
      (Schema.recordFields document.expansion.typing document.expansion.typeOf
        document.schema.required document.schema.properties)
      (Schema.recordFields expanded.expansion.typing expanded.expansion.typeOf
        expanded.schema.required expanded.schema.properties) := by
    rw [required]
    exact Schema.alike_recordFields _ each
  exact FieldType.AdmitsAlike.record fields value

/-- Expansion keeps the values that the type of a document without `allOf` accepts where it keeps
the types of nodes.  It does just where each node is typed like the node opened, as are nodes whose
references lead to no reference, and not to null from a union of two. -/
theorem expansion_keeps_accepted_values (parsed : ofJson raw = .ok document)
    (bare : document.Everywhere fun node => node.allOf = [])
    (unreferring : document.schema.reference = none) (expands : document.expand = .ok expanded)
    (typed : document.recordType rootName = .ok record) :
    ∃ shown, expanded.recordType rootName = .ok shown ∧
      (document.KeepsTypes expanded →
        ∀ value, record.validate value = .ok () ↔ shown.validate value = .ok ()) ∧
      (document.KeepsTypes expanded ↔
        ∀ node, document.expansion.Reached document.schema node →
          Schema.TypedAlike document.expansion.typeOf document.expansion.typeOf node
            (document.expansion.opened node)) ∧
      ((∀ node, document.expansion.Reached document.schema node →
          document.expansion.Direct node) → document.KeepsTypes expanded) := by
  have distinct := nodup_keys_definitions parsed
  have root := root_eq_apart parsed
  have grounded := grounded_expansion distinct
  obtain ⟨-, cycles, distinct'⟩ := expanded_of_expand root distinct expands
  have grounded' := grounded_expansion distinct'
  have first := expand_schema_of_expand root expands
  have own := (Schema.everywhere_iff.1 bare.schema).1
  obtain ⟨shown, made, agrees⟩ :=
    exists_recordType_of_expand distinct root own unreferring expands typed
  have keeps (opens : ∀ node, document.expansion.Reached document.schema node →
      Schema.TypedAlike document.expansion.typeOf document.expansion.typeOf node
        (document.expansion.opened node)) : document.KeepsTypes expanded := fun node reached =>
    (Expansion.showsType_of_opened grounded bare.schema bare.definitions grounded' cycles opens
      reached).1
  refine ⟨shown, made, agrees, ⟨fun kept node reached => ?_, keeps⟩, fun direct => keeps ?_⟩
  · exact Expansion.opened_of_showsType grounded bare.schema bare.definitions grounded' first kept
      reached
  · intro node reached
    exact Expansion.opened_of_direct grounded bare.definitions bare.schema direct first reached

/-- References to a record from a property, a list and a union with null, and one into a cycle. -/
def household : Document where
  root := .apart
    { types := [.object]
      properties :=
        [("home", { reference := some "#/definitions/Address", description := some "site" }),
          ("others",
            { types := [.array], items := some { reference := some "#/definitions/Address" } }),
          ("last", { anyOf := [{ reference := some "#/definitions/Address" }, .ofType .null] }),
          ("tree", { reference := some "#/definitions/Tree" })]
      required := ["home"] }
  definitions :=
    [("Address", { types := [.object], properties := [("street", .ofType .string)] }),
      ("Tree",
        { types := [.object]
          properties := [("next", { reference := some "#/definitions/Tree" })] })]

def householdJson : Json :=
  .object
    [("type", .string "object"),
      ("properties", .object
        [("home", .object
            [("$ref", .string "#/definitions/Address"), ("description", .string "site")]),
          ("others", .object
            [("type", .string "array"),
              ("items", .object [("$ref", .string "#/definitions/Address")])]),
          ("last", .object
            [("anyOf", .array [.object [("$ref", .string "#/definitions/Address")],
              .object [("type", .string "null")]])]),
          ("tree", .object [("$ref", .string "#/definitions/Tree")])]),
      ("required", .array [.string "home"]),
      ("definitions", .object
        [("Address", .object
            [("type", .string "object"),
              ("properties", .object [("street", .object [("type", .string "string")])])]),
          ("Tree", .object
            [("type", .string "object"),
              ("properties", .object
                [("next", .object [("$ref", .string "#/definitions/Tree")])])])])]

def expandedHousehold : Document where
  root := .apart
    { types := [.object]
      properties :=
        [("home",
            { types := [.object], properties := [("street", .ofType .string)]
              description := some "site" }),
          ("others",
            { types := [.array]
              items := some { types := [.object], properties := [("street", .ofType .string)] } }),
          ("last",
            { anyOf := [{ types := [.object], properties := [("street", .ofType .string)] },
              .ofType .null] }),
          ("tree", { reference := some "#/definitions/Tree" })]
      required := ["home"] }
  definitions := household.definitions

theorem direct_of_household {node : Schema}
    (reached : household.expansion.Reached household.schema node) :
    household.expansion.Direct node :=
  (Schema.everywhere_iff.1 (reached.everywhere (fun _ _ direct _ => direct.overlaid) (by decide)
    (by decide))).1

theorem expansion_of_household_keeps_accepted_values :
    ∃ record shown, household.recordType "Household" = .ok record ∧
      expandedHousehold.recordType "Household" = .ok shown ∧
        ∀ value, record.validate value = .ok () ↔ shown.validate value = .ok () := by
  have bare : household.Everywhere fun node => node.allOf = [] := ⟨by decide, by decide⟩
  obtain ⟨shown, made, agrees, -, keeps⟩ := expansion_keeps_accepted_values
    (show ofJson householdJson = .ok household from rfl) bare rfl
    (show household.expand = .ok expandedHousehold from rfl)
    (show household.recordType "Household" = .ok _ from rfl)
  exact ⟨_, shown, rfl, made, agrees (keeps fun _ => direct_of_household)⟩

/-- Whether expansion keeps the accepted values of all documents that meet a condition. -/
def ExpansionKeepsAccepted (condition : Document → Prop) : Prop :=
  ∀ (raw : Json) (document expanded : Document) (rootName : String) (record shown : RecordType),
    ofJson raw = .ok document → document.Everywhere (fun node => node.allOf = []) →
    document.schema.reference = none → document.expand = .ok expanded →
    document.recordType rootName = .ok record → expanded.recordType rootName = .ok shown →
    condition document → ∀ value, record.validate value = .ok () ↔ shown.validate value = .ok ()

theorem not_expansionKeepsAccepted {condition : Document → Prop} {shown : RecordType}
    {value : Json} (parsed : ofJson raw = .ok document)
    (bare : document.Everywhere fun node => node.allOf = [])
    (unreferring : document.schema.reference = none) (expands : document.expand = .ok expanded)
    (typed : document.recordType rootName = .ok record)
    (typed' : expanded.recordType rootName = .ok shown)
    (differ : record.accepts value ≠ shown.accepts value) (holds : condition document) :
    ¬ ExpansionKeepsAccepted condition := by
  intro claim
  have same := claim raw document expanded rootName record shown parsed bare unreferring expands
    typed typed' holds value
  rw [RecordType.validate_eq_ok_iff, RecordType.validate_eq_ok_iff, ← RecordType.accepts_iff,
    ← RecordType.accepts_iff] at same
  exact differ (Bool.eq_iff_iff.2 same)

/-- A union of a text with a reference to null, which is a nullable text only once expanded. -/
def optionalText : Document where
  root := .apart
    { types := [.object]
      properties :=
        [("x", { anyOf := [{ reference := some "#/definitions/N" }, .ofType .string] })] }
  definitions := [("N", .ofType .null)]

def optionalTextJson : Json :=
  .object
    [("type", .string "object"),
      ("properties", .object
        [("x", .object
            [("anyOf", .array [.object [("$ref", .string "#/definitions/N")],
              .object [("type", .string "string")]])])]),
      ("definitions", .object [("N", .object [("type", .string "null")])])]

def expandedOptionalText : Document where
  root := .apart
    { types := [.object]
      properties := [("x", { anyOf := [.ofType .null, .ofType .string] })] }

/-- The union accepts what is neither text nor null before it is expanded, and not after. -/
theorem not_kept_by_union {condition : Document → Prop} (holds : condition optionalText) :
    ¬ ExpansionKeepsAccepted condition :=
  @not_expansionKeepsAccepted optionalTextJson optionalText expandedOptionalText "Root"
    ⟨"Root", [⟨"x", .union, true, none⟩]⟩ condition
    ⟨"Root", [⟨"x", .nullable (.scalar .string), true, none⟩]⟩ (.object [("x", .bool true)])
    rfl ⟨by decide, by decide⟩ rfl rfl (by decide +kernel) (by decide +kernel) (by decide) holds

def expandedChained : Document where
  root := .apart
    { types := [.object]
      properties := [("x", { description := some "site" }), ("y", .ofType .string)] }

/-- The property that refers to an alias is a text before it is expanded, and not after. -/
theorem not_kept_by_chain {condition : Document → Prop} (holds : condition chained) :
    ¬ ExpansionKeepsAccepted condition :=
  @not_expansionKeepsAccepted chainedJson chained expandedChained "Root"
    ⟨"Root", [⟨"x", .scalar .string, true, some "site"⟩, ⟨"y", .scalar .string, true, none⟩]⟩
    condition
    ⟨"Root", [⟨"x", .scalar .any, true, some "site"⟩, ⟨"y", .scalar .string, true, none⟩]⟩
    (.object [("x", .bool true)])
    rfl ⟨by decide, by decide⟩ rfl rfl (by decide +kernel) (by decide +kernel) (by decide) holds

/-- Neither part of directness can go. -/
theorem not_every_expansion_keeps_accepted_values :
    ¬ ExpansionKeepsAccepted (fun _ => True) ∧
      ¬ ExpansionKeepsAccepted (fun document =>
        ∀ node, document.expansion.Reached document.schema node →
          ∀ target ∈ node.reference >>= document.expansion.typing.target?,
            target.reference = none) ∧
      ¬ ExpansionKeepsAccepted (fun document =>
        ∀ node, document.expansion.Reached document.schema node →
          ∀ members ∈ [node.anyOf, node.oneOf], members.length = 2 → ∀ member ∈ members,
            ∀ target ∈ member.reference >>= document.expansion.typing.target?,
              target.isNull = false) := by
  refine ⟨not_kept_by_union trivial, not_kept_by_union fun node reached => ?_,
    not_kept_by_chain fun node reached => ?_⟩
  · refine (Schema.everywhere_iff.1 (reached.everywhere (P := fun node =>
      ∀ target ∈ node.reference >>= optionalText.expansion.typing.target?,
        target.reference = none) ?_ (by decide) (by decide))).1
    intro definition site last _
    exact nofun
  · exact (Schema.everywhere_iff.1 (reached.everywhere (P := fun node =>
      ∀ members ∈ [node.anyOf, node.oneOf], members.length = 2 → ∀ member ∈ members,
        ∀ target ∈ member.reference >>= chained.expansion.typing.target?,
          target.isNull = false) (fun _ _ nulls _ => nulls) (by decide) (by decide))).1

end Document

end SchemaStream
