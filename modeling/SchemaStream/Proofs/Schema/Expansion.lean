import SchemaStream.Proofs.Outcome
import SchemaStream.Schema.Expansion

/-!
# The steps of expansion

Expansion either puts a definition in the place of a node, or else expands what stands below
the node and sets the node up again from these parts.
-/

namespace SchemaStream

namespace Expansion

variable {expansion : Expansion} {below : Schema → Except SchemaError Schema}

/-! ## Putting definitions in -/

theorem inlined?_of_no_reference {schema : Schema} (none : schema.reference = none) :
    expansion.inlined? schema = .ok .none := by
  rw [inlined?, none]

theorem resolve_eq_ok_iff {definitions : Members Schema} {reference : String} {body : Schema} :
    Reference.resolve definitions reference = .ok body ↔
      ∃ name, Reference.name? reference = some name ∧
        Members.get? definitions name = some body := by
  rw [Reference.resolve]
  cases Reference.name? reference with
  | none => simp
  | some name =>
      cases h : Members.get? definitions name with
      | none => simp [h]
      | some found => simp [h]

theorem inlined?_eq_some_iff {schema definition : Schema} :
    expansion.inlined? schema = .ok (some definition) ↔
      ∃ reference name body, schema.reference = some reference ∧
        Reference.name? reference = some name ∧
        Members.get? expansion.definitions name = some body ∧ name ∉ expansion.kept ∧
        definition = body.overlaid schema := by
  rw [inlined?]
  cases hr : schema.reference with
  | none => simp
  | some reference =>
      simp only [Outcome.bind_eq_ok_iff, resolve_eq_ok_iff]
      constructor
      · rintro ⟨body, ⟨name, named, found⟩, h⟩
        simp only [named] at h
        by_cases kept : name ∈ expansion.kept
        · simp [kept, pure, Except.pure] at h
        · simp only [List.contains_eq_mem, kept, decide_false, Bool.false_eq_true, ↓reduceIte,
            pure, Except.pure, Except.ok.injEq, Option.some.injEq] at h
          exact ⟨reference, name, body, rfl, named, found, kept, h.symm⟩
      · rintro ⟨other, name, body, same, named, found, kept, rfl⟩
        cases same
        refine ⟨body, ⟨name, named, found⟩, ?_⟩
        simp [named, kept, pure, Except.pure]

theorem inlined?_eq_none_iff {schema : Schema} :
    expansion.inlined? schema = .ok none ↔
      ∀ reference, schema.reference = some reference →
        ∃ name, Reference.name? reference = some name ∧
          name ∈ Members.keys expansion.definitions ∧ name ∈ expansion.kept := by
  rw [inlined?]
  cases hr : schema.reference with
  | none => simp
  | some reference =>
      simp only [Outcome.bind_eq_ok_iff, resolve_eq_ok_iff, Option.some.injEq, forall_eq']
      constructor
      · rintro ⟨body, ⟨name, named, found⟩, h⟩
        simp only [named] at h
        by_cases kept : name ∈ expansion.kept
        · exact ⟨name, named, Members.mem_keys_iff_exists_get?.2 ⟨body, found⟩, kept⟩
        · simp [kept, pure, Except.pure] at h
      · rintro ⟨name, named, mem, kept⟩
        obtain ⟨body, found⟩ := Members.mem_keys_iff_exists_get?.1 mem
        refine ⟨body, ⟨name, named, found⟩, ?_⟩
        simp [named, kept, pure, Except.pure]

/-! ## The parts of a node -/

/-- What stands below a node, or is to stand below it. -/
structure Parts where
  allOf : List Schema
  properties : List (String × Schema)
  items : Option Schema
  anyOf : List Schema
  oneOf : List Schema

namespace Parts

def ofNode (schema : Schema) : Parts :=
  { allOf := schema.allOf
    properties := schema.properties
    items := schema.items
    anyOf := schema.anyOf
    oneOf := schema.oneOf }

/-- Parts of the same shape, each in a relation to the one in its place. -/
structure Rel (R : Schema → Schema → Prop) (parts others : Parts) : Prop where
  allOf : List.Forall₂ R parts.allOf others.allOf
  properties : List.Forall₂ (fun property other => property.1 = other.1 ∧ R property.2 other.2)
    parts.properties others.properties
  items : List.Forall₂ R parts.items.toList others.items.toList
  anyOf : List.Forall₂ R parts.anyOf others.anyOf
  oneOf : List.Forall₂ R parts.oneOf others.oneOf

variable {R S : Schema → Schema → Prop} {parts : Parts}

theorem Rel.imp_of_mem {schema : Schema} (related : (ofNode schema).Rel R parts)
    (step : ∀ child ∈ schema.children, ∀ part, R child part → S child part) :
    (ofNode schema).Rel S parts := by
  have list {children others : List Schema} (below : ∀ child ∈ children, child ∈ schema.children)
      (h : List.Forall₂ R children others) : List.Forall₂ S children others :=
    (((List.forall₂_and_left _ _).2 ⟨below, h⟩).imp fun child part both =>
      step child both.1 part both.2)
  refine ⟨list (fun _ => Schema.mem_children_of_allOf) related.allOf, ?_,
    list ?_ related.items, list (fun _ => Schema.mem_children_of_anyOf) related.anyOf,
    list (fun _ => Schema.mem_children_of_oneOf) related.oneOf⟩
  · have below : ∀ property ∈ schema.properties, property.2 ∈ schema.children :=
      fun property mem => Schema.mem_children_of_properties mem
    refine ((List.forall₂_and_left _ _).2 ⟨below, related.properties⟩).imp ?_
    rintro property other ⟨mem, name, h⟩
    exact ⟨name, step property.2 mem other.2 h⟩
  · intro child mem
    exact Schema.mem_children_of_items (Option.mem_toList.1 mem)

theorem Rel.refl_of_mem {schema : Schema} (step : ∀ child ∈ schema.children, S child child) :
    (ofNode schema).Rel S (ofNode schema) := by
  have same : (ofNode schema).Rel Eq (ofNode schema) := by
    constructor <;> simp [List.forall₂_same]
  refine same.imp_of_mem ?_
  rintro child mem _ rfl
  exact step child mem

theorem Rel.eq {others : Parts} (related : parts.Rel Eq others) : parts = others := by
  obtain ⟨allOf, properties, items, anyOf, oneOf⟩ := parts
  obtain ⟨ha, hp, hi, hn, ho⟩ := related
  have same : properties = others.properties :=
    List.forall₂_eq_eq_eq ▸ hp.imp fun property other both => Prod.ext both.1 both.2
  rw [List.forall₂_eq_eq_eq] at ha hi hn ho
  have items : items = others.items := Option.ext fun part => by
    rw [← Option.mem_toList, ← Option.mem_toList, hi]
  subst same items ha hn ho
  rfl

/-- All parts, in the order of the children of a node. -/
def all (parts : Parts) : List Schema :=
  parts.properties.map Prod.snd ++ parts.items.toList ++ parts.anyOf ++ parts.oneOf ++ parts.allOf

theorem mem_all_iff {part : Schema} :
    part ∈ parts.all ↔ part ∈ parts.properties.map Prod.snd ∨ parts.items = some part ∨
      part ∈ parts.anyOf ∨ part ∈ parts.oneOf ∨ part ∈ parts.allOf := by
  simp [all]

theorem Rel.all {others : Parts} (related : parts.Rel R others) :
    List.Forall₂ R parts.all others.all := by
  have properties : List.Forall₂ R (parts.properties.map Prod.snd)
      (others.properties.map Prod.snd) := by
    rw [List.forall₂_map_left_iff, List.forall₂_map_right_iff]
    exact related.properties.imp fun _ _ both => both.2
  exact List.rel_append (List.rel_append (List.rel_append (List.rel_append properties
    related.items) related.anyOf) related.oneOf) related.allOf

/-- The node with these parts below it, the one under `allOf` folded in. -/
def under (parts : Parts) (schema : Schema) : Schema :=
  let expanded : Schema :=
    { schema with
      properties := parts.properties
      items := parts.items
      anyOf := parts.anyOf
      oneOf := parts.oneOf }
  match parts.allOf with
  | [] => expanded
  | member :: _ => expanded.folded member

end Parts

/-! ## Expanding the parts -/

def expandParts (expansion : Expansion) (below : Schema → Except SchemaError Schema)
    (schema : Schema) : Except SchemaError Parts := do
  let member ← expandSole expansion below schema.allOf
  let properties ← schema.properties.mapM fun property => do
    return (property.1, ← expandNode expansion below property.2)
  let items ← schema.items.mapM (expandNode expansion below)
  let anyOf ← schema.anyOf.mapM (expandNode expansion below)
  let oneOf ← schema.oneOf.mapM (expandNode expansion below)
  return { allOf := member.toList, properties, items, anyOf, oneOf }

theorem expandNode_eq (expansion : Expansion) (below : Schema → Except SchemaError Schema)
    (schema : Schema) :
    expandNode expansion below schema = (do
      match ← expansion.inlined? schema with
      | some definition => below definition
      | none => return (← expandParts expansion below schema).under schema) := by
  obtain ⟨⟩ := schema
  rw [expandNode]
  simp only [expandParts, expandProperties_eq_mapM, expandItems_eq_mapM, expandMembers_eq_mapM,
    bind_assoc, pure_bind]
  congr 1
  funext definition
  cases definition with
  | some definition => rfl
  | none =>
      dsimp only
      congr 1
      funext member
      cases member <;> rfl

theorem expandNode_of_inlined {schema definition : Schema}
    (found : expansion.inlined? schema = .ok (some definition)) :
    expandNode expansion below schema = below definition := by
  rw [expandNode_eq, found]
  rfl

theorem expandNode_of_stays {schema : Schema} (stays : expansion.inlined? schema = .ok none) :
    expandNode expansion below schema =
      (expandParts expansion below schema).map fun parts => parts.under schema := by
  rw [expandNode_eq, stays]
  rfl

theorem expandSole_eq_ok_iff {members : List Schema} {member : Option Schema} :
    expandSole expansion below members = .ok member ↔
      members.length ≤ 1 ∧
        List.Forall₂ (fun schema result => expandNode expansion below schema = .ok result)
          members member.toList := by
  match members with
  | [] =>
      rw [expandSole]
      cases member <;> simp
  | [schema] =>
      rw [expandSole, Outcome.bind_eq_ok_iff]
      cases member <;> simp [pure, Except.pure]
  | _ :: _ :: _ =>
      rw [expandSole]
      · simp
      · exact nofun
      · exact nofun

theorem expandParts_eq_ok_iff {schema : Schema} {parts : Parts} :
    expandParts expansion below schema = .ok parts ↔
      schema.allOf.length ≤ 1 ∧
        (Parts.ofNode schema).Rel (fun child part => expandNode expansion below child = .ok part)
          parts := by
  have property (entry part : String × Schema) :
      (do return (entry.1, ← expandNode expansion below entry.2) : Except SchemaError _) =
          .ok part ↔
        entry.1 = part.1 ∧ expandNode expansion below entry.2 = .ok part.2 := by
    obtain ⟨name, part⟩ := part
    simp [Outcome.bind_eq_ok_iff, pure, Except.pure]
    tauto
  simp only [expandParts, Outcome.bind_eq_ok_iff, expandSole_eq_ok_iff, Outcome.mapM_eq_ok_iff,
    Outcome.optionMapM_eq_ok_iff, property]
  constructor
  · rintro ⟨member, ⟨sole, hm⟩, properties, hp, items, hi, anyOf, ha, oneOf, ho, last⟩
    cases last
    exact ⟨sole, hm, hp, hi, ha, ho⟩
  · rintro ⟨sole, hm, hp, hi, ha, ho⟩
    obtain ⟨allOf, properties, items, anyOf, oneOf⟩ := parts
    have count : allOf.length ≤ 1 := hm.length_eq ▸ sole
    have listed : allOf.head?.toList = allOf := by
      match allOf with
      | [] | [_] => rfl
      | _ :: _ :: _ => simp at count
    refine ⟨allOf.head?, ⟨sole, listed.symm ▸ hm⟩, _, hp, _, hi, _, ha, _, ho, ?_⟩
    simp [pure, Except.pure, listed]

/-- A node is expanded by the definition put in its place or by its parts. -/
theorem expandNode_eq_ok_iff {schema result : Schema} :
    expandNode expansion below schema = .ok result ↔
      (∃ definition, expansion.inlined? schema = .ok (some definition) ∧
        below definition = .ok result) ∨
      (expansion.inlined? schema = .ok none ∧ ∃ parts,
        expandParts expansion below schema = .ok parts ∧ parts.under schema = result) := by
  rw [expandNode_eq, Outcome.bind_eq_ok_iff]
  constructor
  · rintro ⟨_ | definition, found, h⟩
    · obtain ⟨parts, hp, last⟩ := Outcome.bind_eq_ok_iff.1 h
      cases last
      exact .inr ⟨found, parts, hp, rfl⟩
    · exact .inl ⟨definition, found, h⟩
  · rintro (⟨definition, found, h⟩ | ⟨found, parts, hp, rfl⟩)
    · exact ⟨some definition, found, h⟩
    · exact ⟨none, found, Outcome.bind_eq_ok_iff.2 ⟨parts, hp, rfl⟩⟩

/-- A node only expands if what it refers to is defined. -/
theorem exists_definition_of_expandNode {schema result : Schema} {reference : String}
    (refers : schema.reference = some reference)
    (expands : expandNode expansion below schema = .ok result) :
    ∃ name body, Reference.name? reference = some name ∧
      Members.get? expansion.definitions name = some body := by
  rcases expandNode_eq_ok_iff.1 expands with ⟨definition, found, -⟩ | ⟨stays, -⟩
  · obtain ⟨_, name, body, refers', named, hb, -, -⟩ := inlined?_eq_some_iff.1 found
    cases refers.symm.trans refers'
    exact ⟨name, body, named, hb⟩
  · obtain ⟨name, named, mem, -⟩ := inlined?_eq_none_iff.1 stays reference refers
    obtain ⟨body, hb⟩ := Members.mem_keys_iff_exists_get?.1 mem
    exact ⟨name, body, named, hb⟩

theorem reference_under (parts : Parts) (schema : Schema) :
    (parts.under schema).reference = schema.reference := by
  rw [Parts.under]
  cases parts.allOf <;> rfl

/-- Nodes whose children expand alike have parts that are alike, or fail alike. -/
theorem expandParts_agrees {expansion' : Expansion} {below' : Schema → Except SchemaError Schema}
    {R : Schema → Schema → Prop} {schema schema' : Schema}
    (children : (Parts.ofNode schema).Rel (fun child child' =>
      Outcome.Agrees R (expandNode expansion below child) (expandNode expansion' below' child'))
      (Parts.ofNode schema')) :
    Outcome.Agrees (Parts.Rel R) (expandParts expansion below schema)
      (expandParts expansion' below' schema') := by
  have sole : Outcome.Agrees
      (fun member member' : Option Schema => List.Forall₂ R member.toList member'.toList)
      (expandSole expansion below schema.allOf) (expandSole expansion' below' schema'.allOf) := by
    have h : List.Forall₂ _ schema.allOf schema'.allOf := children.allOf
    generalize schema.allOf = members at h ⊢
    generalize schema'.allOf = members' at h ⊢
    cases h with
    | nil => exact .ok .nil
    | cons first rest =>
        cases rest with
        | nil => exact first.bind fun part part' related => .ok (.cons related .nil)
        | cons second more =>
            rw [expandSole, expandSole]
            · simp only [List.length_cons, more.length_eq]
              exact .error _
            all_goals exact nofun
  refine sole.bind fun member member' hm => ?_
  have properties := children.properties.imp
    (S := fun property property' => Outcome.Agrees
      (fun part part' : String × Schema => part.1 = part'.1 ∧ R part.2 part'.2)
      (do return (property.1, ← expandNode expansion below property.2))
      (do return (property'.1, ← expandNode expansion' below' property'.2)))
    fun property property' both => both.2.bind fun part part' related => .ok ⟨both.1, related⟩
  refine (Outcome.Agrees.mapM properties).bind fun properties properties' hp => ?_
  refine (Outcome.Agrees.optionMapM children.items).bind fun items items' hi => ?_
  refine (Outcome.Agrees.mapM children.anyOf).bind fun anyOf anyOf' ha => ?_
  refine (Outcome.Agrees.mapM children.oneOf).bind fun oneOf oneOf' ho => ?_
  exact .ok ⟨hm, hp, hi, ha, ho⟩

end Expansion

end SchemaStream
