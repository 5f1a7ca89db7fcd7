import SchemaStream.Proofs.Schema.AugmentedDocuments
import Mathlib.Data.Set.Subsingleton

/-!
# How often a slot is filled

The root and the items of an array have a slot for the reasoning about them.  A union hands its
slot on to all of its members as soon as one of them is an object and the others are not, also to
those that are unions and hand it on again.  So a slot is filled as often as there are unions that
hand it to an object that asks for it.
-/

namespace SchemaStream

/-- Whether a slot holds a member of a union. -/
def Slot.isUnion : Slot → Bool
  | .anyOf _ | .oneOf _ => true
  | .property _ | .items | .allOf _ => false

/-- A path that leads through members of unions alone. -/
abbrev UnionPath (path : List Slot) : Prop := ∀ step ∈ path, step.isUnion = true

theorem eq_of_countP_eq_one {α : Type} {p : α → Bool} {list : List α}
    (one : list.countP p = 1) {first second : Nat} {a b : α} (here : list[first]? = some a)
    (own : p a = true) (there : list[second]? = some b) (other : p b = true) : first = second := by
  have none {rest : List α} (zero : rest.countP p = 0) {index : Nat} {c : α}
      (found : rest[index]? = some c) : ¬ p c = true :=
    List.countP_eq_zero.1 zero c (List.mem_of_getElem? found)
  induction list generalizing first second with
  | nil => cases here
  | cons head rest ih =>
      rw [List.countP_cons] at one
      cases first with
      | zero =>
          cases second with
          | zero => rfl
          | succ second =>
              cases here
              rw [if_pos own] at one
              exact absurd other (none (Nat.succ.inj one) there)
      | succ first =>
          cases second with
          | zero =>
              cases there
              rw [if_pos other] at one
              exact absurd own (none (Nat.succ.inj one) here)
          | succ second =>
              by_cases counts : p head = true
              · rw [if_pos counts] at one
                exact absurd own (none (Nat.succ.inj one) here)
              · rw [if_neg counts] at one
                exact congrArg Nat.succ (ih one here there)

namespace Schema

variable {schema child own result : Schema} {slot next handed : Option String} {step : Slot}
  {path : List Slot} {name : String}

/-! ## Unions that hand their slot on -/

def handsOn (schema : Schema) : Bool :=
  !schema.describesObject && schema.unionMembers.countP describesObject == 1

theorem memberSlot_eq (slot : Option String) (schema : Schema) :
    schema.memberSlot slot = if schema.handsOn then slot else none := by
  rw [memberSlot, handsOn]
  cases schema.describesObject <;> cases h : schema.unionMembers.countP describesObject == 1 <;>
    simp_all

/-- An object without the reasoning field of a name that asks for reasoning about itself. -/
structure AsksFor (name : String) (schema : Schema) : Prop where
  describes : schema.describesObject = true
  asks : ∃ prompt, schema.prompt? .reasoningPrompt = some prompt
  lacks : Auxiliary.reasoningField name ∉ Members.keys schema.properties

/-! ## Fields that come into objects -/

/-- The reasoning field of a name comes into an object because the object asks for it, or a property
of that name does. -/
theorem reasoningField_mem_keys_iff (plain : Auxiliary.isAuxiliary name = false)
    (lacks : Auxiliary.reasoningField name ∉ Members.keys own.properties) :
    Auxiliary.reasoningField name ∈ Members.keys (own.augmentedProperties slot) ↔
      own.describesObject = true ∧
        ((slot = some name ∧ ∃ prompt, own.prompt? .reasoningPrompt = some prompt) ∨
          ∃ child, (name, child) ∈ own.properties ∧
            ∃ prompt, child.reasoningPrompt? = some prompt) := by
  by_cases describes : own.describesObject = true
  · rw [and_iff_right describes]
    constructor
    · intro mem
      obtain ⟨property, below, same⟩ := List.mem_map.1 mem
      rw [augmentedProperties_of_describes slot describes] at below
      rcases List.mem_append.1 below with self | added
      · obtain ⟨other, prompt, rfl, asks, -, rfl⟩ :=
          selfReasoning?_eq_some_iff.1 (Option.mem_toList.1 self)
        exact .inl ⟨congrArg some (Auxiliary.reasoningField_inj.1 same), prompt, asks⟩
      · obtain ⟨⟨key, child⟩, within, found | rfl | found⟩ := mem_augmentProperties_iff.1 added
        · obtain ⟨-, -, prompt, asks, rfl⟩ := leading?_eq_some_iff.1 found
          cases Auxiliary.reasoningField_inj.1 same
          exact .inr ⟨child, within, prompt, asks⟩
        · exact absurd (List.mem_map.2 ⟨_, within, same⟩) lacks
        · obtain ⟨-, -, -, -, rfl⟩ := trailing?_eq_some_iff.1 found
          exact absurd same.symm (Auxiliary.reasoningField_ne_sourceField name key)
    · intro asked
      by_cases taken : Auxiliary.reasoningField name ∈ own.takenNames slot
      · exact keys_subset_augmentedProperties slot describes taken
      rw [augmentedProperties_of_describes slot describes]
      rcases asked with ⟨handed, prompt, asks⟩ | ⟨child, mem, prompt, asks⟩
      · have self := selfReasoning?_eq_some_iff.2 ⟨name, prompt, handed, asks, lacks, rfl⟩
        exact List.mem_map.2 ⟨_, List.mem_append_left _ (Option.mem_toList.2 self), rfl⟩
      · have sibling : leading? (own.takenNames slot) (name, child) =
            some (Auxiliary.reasoningField name, textField prompt) :=
          leading?_eq_some_iff.2 ⟨plain, taken, prompt, asks, rfl⟩
        exact List.mem_map.2 ⟨_, List.mem_append_right _
          (mem_augmentProperties_iff.2 ⟨(name, child), mem, .inl sibling⟩), rfl⟩
  · rw [augmentedProperties, if_neg describes]
    exact iff_of_false lacks fun both => describes both.1

/-! ## Members of unions -/

theorem exists_step_of_mem_unionMembers (mem : child ∈ schema.unionMembers) :
    ∃ step : Slot, step.isUnion = true ∧ schema.child? step = some child := by
  rcases List.mem_append.1 mem with below | below
  · obtain ⟨index, found⟩ := List.mem_iff_getElem?.1 below
    exact ⟨.anyOf index, rfl, found⟩
  · obtain ⟨index, found⟩ := List.mem_iff_getElem?.1 below
    exact ⟨.oneOf index, rfl, found⟩

theorem mem_unionMembers_of_child? (union : step.isUnion = true)
    (found : schema.child? step = some child) : child ∈ schema.unionMembers := by
  cases step with
  | anyOf index => exact List.mem_append_left _ (List.mem_of_getElem? found)
  | oneOf index => exact List.mem_append_right _ (List.mem_of_getElem? found)
  | _ => cases union

/-- A union that hands its slot on has only one place for an object. -/
theorem eq_of_handsOn {other : Schema} {step' : Slot} (hands : schema.handsOn = true)
    (union : step.isUnion = true) (union' : step'.isUnion = true)
    (found : schema.child? step = some child) (found' : schema.child? step' = some other)
    (object : child.describesObject = true) (object' : other.describesObject = true) :
    step = step' := by
  have one : schema.unionMembers.countP describesObject = 1 :=
    eq_of_beq (Bool.and_eq_true_iff.1 hands).2
  have anyOf {index : Nat} {child : Schema} (found : schema.child? (.anyOf index) = some child) :
      schema.unionMembers[index]? = some child ∧ index < schema.anyOf.length := by
    obtain ⟨bound, -⟩ := List.getElem?_eq_some_iff.1 found
    exact ⟨(List.getElem?_append_left bound).trans found, bound⟩
  have oneOf {index : Nat} {child : Schema} (found : schema.child? (.oneOf index) = some child) :
      schema.unionMembers[schema.anyOf.length + index]? = some child := by
    rw [unionMembers, List.getElem?_append_right (Nat.le_add_right ..), Nat.add_sub_cancel_left]
    exact found
  cases step with
  | anyOf index =>
      cases step' with
      | anyOf index' =>
          exact congrArg _ (eq_of_countP_eq_one one (anyOf found).1 object (anyOf found').1
            object')
      | oneOf index' =>
          have same := eq_of_countP_eq_one one (anyOf found).1 object (oneOf found') object'
          have bound := (anyOf found).2
          omega
      | _ => cases union'
  | oneOf index =>
      cases step' with
      | anyOf index' =>
          have same := eq_of_countP_eq_one one (oneOf found) object (anyOf found').1 object'
          have bound := (anyOf found').2
          omega
      | oneOf index' =>
          have same := eq_of_countP_eq_one one (oneOf found) object (oneOf found') object'
          exact congrArg _ (Nat.add_left_cancel same)
      | _ => cases union'
  | _ => cases union

theorem handed?_of_isUnion (union : step.isUnion = true) (slot : Option String)
    (schema : Schema) :
    schema.handed? slot step = some (if schema.handsOn then slot else none) := by
  rw [← memberSlot_eq]
  cases step with
  | anyOf index | oneOf index => rfl
  | _ => cases union

theorem visit?_cons_of_isUnion (union : step.isUnion = true) (slot : Option String)
    (schema : Schema) (path : List Slot) :
    schema.visit? slot (step :: path) = (schema.child? step).bind fun child =>
      child.visit? (if schema.handsOn then slot else none) path := by
  rw [visit?, handed?_of_isUnion union]
  rfl

/-- No slot is handed down where there is none. -/
theorem eq_none_of_visit? (unions : UnionPath path)
    (visited : schema.visit? none path = some (handed, own)) : handed = none := by
  induction path generalizing schema with
  | nil =>
      cases visited
      rfl
  | cons step path ih =>
      obtain ⟨union, below⟩ := List.forall_mem_cons.1 unions
      rw [visit?_cons_of_isUnion union, ite_self] at visited
      obtain ⟨child, -, visited⟩ := Option.bind_eq_some_iff.1 visited
      exact ih below visited

/-- The members of a node have its slot only if it hands it on. -/
theorem handsOn_of_visit? (unions : UnionPath path) (below : path ≠ [])
    (visited : schema.visit? slot path = some (some name, own)) : schema.handsOn = true := by
  cases path with
  | nil => exact absurd rfl below
  | cons step path =>
      obtain ⟨union, rest⟩ := List.forall_mem_cons.1 unions
      by_contra keeps
      rw [visit?_cons_of_isUnion union, if_neg keeps] at visited
      obtain ⟨child, -, visited⟩ := Option.bind_eq_some_iff.1 visited
      cases eq_none_of_visit? rest visited

theorem not_handsOn_of_describesObject (describes : schema.describesObject = true) :
    ¬ schema.handsOn = true := by
  rw [handsOn, describes]
  exact Bool.false_ne_true

theorem visit?_concat_eq_some_iff (union : step.isUnion = true) :
    schema.visit? slot (path ++ [step]) = some (some name, own) ↔
      ∃ node, schema.visit? slot path = some (some name, node) ∧ node.handsOn = true ∧
        node.child? step = some own := by
  rw [visit?_append, Option.bind_eq_some_iff]
  constructor
  · rintro ⟨⟨handed, node⟩, visited, last⟩
    rw [visit?_cons_of_isUnion union, Option.bind_eq_some_iff] at last
    obtain ⟨child, found, same⟩ := last
    simp only [visit?, Option.some.injEq, Prod.mk.injEq] at same
    obtain ⟨hands, rfl⟩ := same
    by_cases on : node.handsOn = true
    · rw [if_pos on] at hands
      exact ⟨node, hands ▸ visited, on, found⟩
    · rw [if_neg on] at hands
      cases hands
  · rintro ⟨node, visited, on, found⟩
    refine ⟨_, visited, ?_⟩
    rw [visit?_cons_of_isUnion union, found, if_pos on]
    rfl

end Schema

namespace Document

variable {document : Document} {name : String} {path : List Slot}

/-- The reasoning field of a name comes into the node at a path. -/
def FilledAt (document : Document) (name : String) (path : List Slot) : Prop :=
  ∃ own result, document.schema.at? path = some own ∧
    document.augment.schema.at? path = some result ∧
      Auxiliary.reasoningField name ∉ Members.keys own.properties ∧
        Auxiliary.reasoningField name ∈ Members.keys result.properties

/-- At a path there is an object that has the slot of a name and asks for its field. -/
def TakenAt (document : Document) (name : String) (path : List Slot) : Prop :=
  ∃ own, document.schema.visit? (some Schema.rootSlot) path = some (some name, own) ∧
    own.AsksFor name

/-- The union at a path hands the slot of a name on to an object that asks for its field. -/
def HandsAt (document : Document) (name : String) (path : List Slot) : Prop :=
  ∃ union, document.schema.visit? (some Schema.rootSlot) path = some (some name, union) ∧
    union.handsOn = true ∧ ∃ member ∈ union.unionMembers, member.AsksFor name

theorem filledAt_iff (named : document.schema.Named)
    (plain : Auxiliary.isAuxiliary name = false) :
    document.FilledAt name path ↔ ∃ handed own,
      document.schema.visit? (some Schema.rootSlot) path = some (handed, own) ∧
        own.describesObject = true ∧
        Auxiliary.reasoningField name ∉ Members.keys own.properties ∧
        ((handed = some name ∧ ∃ prompt, own.prompt? .reasoningPrompt = some prompt) ∨
          ∃ child, (name, child) ∈ own.properties ∧
            ∃ prompt, child.reasoningPrompt? = some prompt) := by
  rw [FilledAt, schema_augment named]
  constructor
  · rintro ⟨own, result, found, there, lacks, has⟩
    cases visited : document.schema.visit? (some Schema.rootSlot) path with
    | none =>
        rw [Schema.at?_of_visit?_eq_none (.inl rfl) visited found] at there
        cases there
        exact absurd has lacks
    | some visit =>
        obtain ⟨handed, node⟩ := visit
        cases (Schema.at?_of_visit? visited).symm.trans found
        obtain ⟨after, found', made⟩ := Schema.exists_at?_of_visit? (.inl rfl) visited
        cases found'.symm.trans there
        rw [made.properties_eq, Schema.reasoningField_mem_keys_iff plain lacks] at has
        exact ⟨handed, own, rfl, has.1, lacks, has.2⟩
  · rintro ⟨handed, own, visited, describes, lacks, asked⟩
    obtain ⟨result, there, made⟩ := Schema.exists_at?_of_visit? (.inl rfl) visited
    refine ⟨own, result, Schema.at?_of_visit? visited, there, lacks, ?_⟩
    rw [made.properties_eq, Schema.reasoningField_mem_keys_iff plain lacks]
    exact ⟨describes, asked⟩

/-- Where no property is called like a slot, only objects that have the slot get its field. -/
theorem filledAt_iff_takenAt (named : document.schema.Named)
    (plain : Auxiliary.isAuxiliary name = false)
    (alone : ∀ own, document.schema.at? path = some own → ∀ child,
      (name, child) ∈ own.properties → child.reasoningPrompt? = none) :
    document.FilledAt name path ↔ document.TakenAt name path := by
  rw [filledAt_iff named plain]
  constructor
  · rintro ⟨handed, own, visited, describes, lacks, ⟨rfl, asks⟩ | ⟨child, mem, prompt, asks⟩⟩
    · exact ⟨own, visited, describes, asks, lacks⟩
    · rw [alone own (Schema.at?_of_visit? visited) child mem] at asks
      cases asks
  · rintro ⟨own, visited, describes, asks, lacks⟩
    exact ⟨some name, own, visited, describes, lacks, .inl ⟨rfl, asks⟩⟩

theorem handsAt_iff : document.HandsAt name path ↔
    ∃ step : Slot, step.isUnion = true ∧ document.TakenAt name (path ++ [step]) := by
  constructor
  · rintro ⟨union, visited, hands, member, mem, asks⟩
    obtain ⟨step, isUnion, found⟩ := Schema.exists_step_of_mem_unionMembers mem
    exact ⟨step, isUnion, member,
      (Schema.visit?_concat_eq_some_iff isUnion).2 ⟨union, visited, hands, found⟩, asks⟩
  · rintro ⟨step, isUnion, member, visited, asks⟩
    obtain ⟨union, visited, hands, found⟩ := (Schema.visit?_concat_eq_some_iff isUnion).1 visited
    exact ⟨union, visited, hands, member, Schema.mem_unionMembers_of_child? isUnion found, asks⟩

/-- One union hands its slot to one object. -/
theorem TakenAt.step_eq {step step' : Slot} (taken : document.TakenAt name (path ++ [step]))
    (taken' : document.TakenAt name (path ++ [step'])) (isUnion : step.isUnion = true)
    (isUnion' : step'.isUnion = true) : step = step' := by
  obtain ⟨own, visited, asks⟩ := taken
  obtain ⟨own', visited', asks'⟩ := taken'
  obtain ⟨union, first, hands, found⟩ := (Schema.visit?_concat_eq_some_iff isUnion).1 visited
  obtain ⟨_, first', -, found'⟩ := (Schema.visit?_concat_eq_some_iff isUnion').1 visited'
  cases first.symm.trans first'
  exact Schema.eq_of_handsOn hands isUnion isUnion' found found' asks.describes asks'.describes

/-- An object keeps its slot to itself. -/
theorem TakenAt.eq_nil {position : List Slot} (taken : document.TakenAt name position)
    (unions : UnionPath path) (below : document.TakenAt name (position ++ path)) : path = [] := by
  obtain ⟨own, visited, asks⟩ := taken
  obtain ⟨member, visited', -⟩ := below
  rw [Schema.visit?_append, visited, Option.bind_some] at visited'
  by_contra further
  exact Schema.not_handsOn_of_describesObject asks.describes
    (Schema.handsOn_of_visit? unions further visited')

/-- A slot is filled once at most just if at most one union hands it to an object that asks for its
field, where no property of the objects is called like the slot. -/
theorem slot_is_filled_once_iff (named : document.Holds Schema.Named) {position : List Slot}
    (slots : position = [] ∧ name = Schema.rootSlot ∨
      ∃ front, position = front ++ [.items] ∧ name = Schema.itemSlot)
    (alone : ∀ path, UnionPath path → ∀ own, document.schema.at? (position ++ path) = some own →
      ∀ child, (name, child) ∈ own.properties → child.reasoningPrompt? = none) :
    {path | UnionPath path ∧ document.FilledAt name (position ++ path)}.Subsingleton ↔
      {path | UnionPath path ∧ document.HandsAt name (position ++ path)}.Subsingleton := by
  have plain : Auxiliary.isAuxiliary name = false := by
    rcases slots with ⟨-, rfl⟩ | ⟨-, -, rfl⟩ <;> decide
  have filled {path : List Slot} (unions : UnionPath path) :=
    filledAt_iff_takenAt named.named plain (alone path unions)
  constructor
  · rintro once first ⟨unions, hands⟩ second ⟨unions', hands'⟩
    obtain ⟨step, isUnion, taken⟩ := handsAt_iff.1 hands
    obtain ⟨step', isUnion', taken'⟩ := handsAt_iff.1 hands'
    rw [List.append_assoc] at taken taken'
    have further {path : List Slot} {step : Slot} (unions : UnionPath path)
        (isUnion : step.isUnion = true) : UnionPath (path ++ [step]) :=
      List.forall_mem_append.2 ⟨unions, List.forall_mem_singleton.2 isUnion⟩
    have same := once ⟨further unions isUnion, (filled (further unions isUnion)).2 taken⟩
      ⟨further unions' isUnion', (filled (further unions' isUnion')).2 taken'⟩
    exact List.append_inj_left' same rfl
  · rintro once first ⟨unions, fills⟩ second ⟨unions', fills'⟩
    have taken := (filled unions).1 fills
    have taken' := (filled unions').1 fills'
    rcases List.eq_nil_or_concat' first with rfl | ⟨front, step, rfl⟩
    · rw [List.append_nil] at taken
      exact (taken.eq_nil unions' taken').symm
    rcases List.eq_nil_or_concat' second with rfl | ⟨front', step', rfl⟩
    · rw [List.append_nil] at taken'
      exact taken'.eq_nil unions taken
    obtain ⟨above, last⟩ := List.forall_mem_append.1 unions
    obtain ⟨above', last'⟩ := List.forall_mem_append.1 unions'
    have isUnion := last step List.mem_cons_self
    have isUnion' := last' step' List.mem_cons_self
    rw [← List.append_assoc] at taken taken'
    cases once ⟨above, handsAt_iff.2 ⟨step, isUnion, taken⟩⟩
      ⟨above', handsAt_iff.2 ⟨step', isUnion', taken'⟩⟩
    rw [taken.step_eq taken' isUnion isUnion']

/-- A line that may be missing, and that asks for reasoning about itself. -/
def optionalLine : Schema where
  anyOf :=
    [{ types := [.object]
       properties := [("amount", { types := [.number] })]
       extensions := [("X-ReasoningPrompt", .string "Why this line?")] },
      { types := [.null] }]

def optionalLines : Document where
  root := .apart
    { types := [.object]
      properties := [("lines", { types := [.array], items := some optionalLine })] }

/-- The members of an optional line have no members themselves. -/
theorem eq_nil_of_handsAt_optionalLines {path : List Slot} (unions : UnionPath path)
    (hands : optionalLines.HandsAt "item" ([.property "lines", .items] ++ path)) : path = [] := by
  obtain ⟨step, isUnion, own, visited, -⟩ := handsAt_iff.1 hands
  have start : optionalLines.schema.visit? (some Schema.rootSlot) [.property "lines", .items] =
      some (some "item", optionalLine) := rfl
  rw [List.append_assoc, Schema.visit?_append, start, Option.bind_some] at visited
  cases path with
  | nil => rfl
  | cons first rest =>
      obtain ⟨isUnion', unions⟩ := List.forall_mem_cons.1 unions
      rw [List.cons_append, Schema.visit?_cons_of_isUnion isUnion', Option.bind_eq_some_iff]
        at visited
      obtain ⟨child, found, visited⟩ := visited
      have plain : child.handsOn = false := by
        have members : ∀ member ∈ optionalLine.unionMembers, member.handsOn = false := by decide
        exact members child (Schema.mem_unionMembers_of_child? isUnion' found)
      have below : UnionPath (rest ++ [step]) :=
        List.forall_mem_append.2 ⟨unions, List.forall_mem_singleton.2 isUnion⟩
      have on := Schema.handsOn_of_visit? below (List.append_ne_nil_of_right_ne_nil _
        (List.cons_ne_nil _ _)) visited
      rw [plain] at on
      cases on

theorem slot_of_optional_line_is_filled_once :
    optionalLines.Holds Schema.Named ∧
      {path | UnionPath path ∧
        optionalLines.FilledAt "item" ([.property "lines", .items] ++ path)}.Subsingleton := by
  have named : optionalLines.Holds Schema.Named := by
    refine ⟨?_, by decide⟩
    rintro _ ⟨⟩
    decide
  have names : optionalLines.schema.Everywhere fun node =>
      "item" ∉ Members.keys node.properties := by decide
  have alone (path : List Slot) (_ : UnionPath path) (own : Schema)
      (found : optionalLines.schema.at? ([.property "lines", .items] ++ path) = some own)
      (child : Schema) (mem : ("item", child) ∈ own.properties) : child.reasoningPrompt? = none :=
    absurd (List.mem_map_of_mem mem) (Schema.everywhere_iff.1 (names.at? found)).1
  refine ⟨named, (slot_is_filled_once_iff named (.inr ⟨[.property "lines"], rfl, rfl⟩) alone).2 ?_⟩
  rintro first ⟨unions, hands⟩ second ⟨unions', hands'⟩
  rw [eq_nil_of_handsAt_optionalLines unions hands, eq_nil_of_handsAt_optionalLines unions' hands']

/-- A union of an object and of a union that has an object and nothing else. -/
def nestedUnionJson : Json :=
  .object
    [("anyOf", .array
      [.object
        [("type", .string "object"), ("X-ReasoningPrompt", .string "a"),
          ("properties", .object [("x", .object [("type", .string "string")])])],
        .object
          [("anyOf", .array
            [.object
              [("type", .string "object"), ("X-ReasoningPrompt", .string "b"),
                ("properties", .object [("y", .object [("type", .string "string")])])],
              .object [("type", .string "null")]])]])]

def nestedUnion : Document where
  root := .apart
    { anyOf :=
        [{ types := [.object]
           properties := [("x", { types := [.string] })]
           extensions := [("X-ReasoningPrompt", .string "a")] },
          { anyOf :=
              [{ types := [.object]
                 properties := [("y", { types := [.string] })]
                 extensions := [("X-ReasoningPrompt", .string "b")] },
                { types := [.null] }] }] }

theorem ofJson_nestedUnion : ofJson nestedUnionJson = .ok nestedUnion := rfl

/-- Both unions hand the slot of the root to their object. -/
theorem not_every_slot_is_filled_once :
    ¬ ∀ (raw : Json) (document : Document), raw.distinct = true → ofJson raw = .ok document →
      ∀ (position : List Slot) (name : String),
        (position = [] ∧ name = Schema.rootSlot ∨
          ∃ front, position = front ++ [.items] ∧ name = Schema.itemSlot) →
        {path | UnionPath path ∧ document.FilledAt name (position ++ path)}.Subsingleton := by
  intro claim
  have once := claim nestedUnionJson nestedUnion (by decide) ofJson_nestedUnion [] _
    (.inl ⟨rfl, rfl⟩)
  have outer : nestedUnion.FilledAt Schema.rootSlot [.anyOf 0] :=
    ⟨_, _, rfl, rfl, by decide, by decide⟩
  have inner : nestedUnion.FilledAt Schema.rootSlot [.anyOf 1, .anyOf 0] :=
    ⟨_, _, rfl, rfl, by decide, by decide⟩
  exact absurd (once ⟨by decide, outer⟩ ⟨by decide, inner⟩) (by decide)

end Document

end SchemaStream
