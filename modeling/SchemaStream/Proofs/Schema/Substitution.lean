import SchemaStream.Proofs.Schema.Expanded
import SchemaStream.Proofs.Schema.Shapes

/-!
# Expansion as substitution

Substitution is the recursion that expansion stands for, without a bound on its depth and with
nothing done before it is needed.  A node that refers to a definition gives way to the
definition, which takes the metadata of the node; a sole member of an `allOf` is substituted
and folded in; in a node with neither, the children are substituted in their order.
If the definitions lead into no cycle and are no references themselves, substitution ends on
every schema, and with the outcome of expansion.
-/

namespace SchemaStream

/-- A definition with the metadata of a node that refers to it on top. -/
def Schema.underSite (definition site : Schema) : Schema :=
  { definition.overlaid site with reference := definition.reference }

namespace Definitions

mutual

/-- What a schema comes to once all definitions are put in. -/
inductive Substitutes (definitions : Members Schema) : Schema → Except SchemaError Schema → Prop
  | unresolved {schema : Schema} {reference : String} {fault : SchemaError}
      (refers : schema.reference = some reference)
      (fails : Reference.resolve definitions reference = .error fault) :
      Substitutes definitions schema (.error fault)
  | inlined {schema definition : Schema} {reference : String}
      {outcome : Except SchemaError Schema} (refers : schema.reference = some reference)
      (resolves : Reference.resolve definitions reference = .ok definition)
      (next : Substitutes definitions (definition.underSite schema) outcome) :
      Substitutes definitions schema outcome
  | parent {schema : Schema} {outcome : Except SchemaError (List Schema)}
      (bare : schema.reference = none) (none : schema.allOf = [])
      (children : SubstitutesAll definitions schema.children outcome) :
      Substitutes definitions schema
        (outcome.map fun children => (schema.shape.withChildren children).schema)
  | folded {schema member result : Schema} {outcome : Except SchemaError Schema}
      (bare : schema.reference = none) (sole : schema.allOf = [member])
      (first : Substitutes definitions member (.ok result))
      (next : Substitutes definitions (schema.folded result) outcome) :
      Substitutes definitions schema outcome
  | faulty {schema member : Schema} {fault : SchemaError}
      (bare : schema.reference = none) (sole : schema.allOf = [member])
      (first : Substitutes definitions member (.error fault)) :
      Substitutes definitions schema (.error fault)
  | several {schema : Schema} (bare : schema.reference = none)
      (several : 1 < schema.allOf.length) :
      Substitutes definitions schema (.error (.allOfArity schema.allOf.length))

/-- The same for schemas in their order, up to the first fault. -/
inductive SubstitutesAll (definitions : Members Schema) :
    List Schema → Except SchemaError (List Schema) → Prop
  | nil : SubstitutesAll definitions [] (.ok [])
  | cons {schema result : Schema} {rest : List Schema} {outcome : Except SchemaError (List Schema)}
      (first : Substitutes definitions schema (.ok result))
      (others : SubstitutesAll definitions rest outcome) :
      SubstitutesAll definitions (schema :: rest) (outcome.map (result :: ·))
  | faulty {schema : Schema} {rest : List Schema} {fault : SchemaError}
      (first : Substitutes definitions schema (.error fault)) :
      SubstitutesAll definitions (schema :: rest) (.error fault)

end

end Definitions

/-! ## Traversals that leave what is added alone -/

namespace Outcome

variable {ε α : Type} {f : α → Except ε α}

theorem optionMapM_or {other : Option α} (fixed : ∀ value, other = some value → f value = .ok value)
    (own : Option α) : (own.or other).mapM f = (fun own => own.or other) <$> own.mapM f := by
  cases own with
  | some value =>
      change some <$> f value = (fun own => own.or other) <$> (some <$> f value)
      cases f value <;> rfl
  | none =>
      refine (optionMapM_eq_ok_iff.2 (List.forall₂_same.2 fun value mem => ?_)).trans rfl
      exact fixed value (Option.mem_toList.1 mem)

theorem mapM_ite_isEmpty {other : List α} (fixed : ∀ value ∈ other, f value = .ok value)
    (own : List α) : (if own.isEmpty then other else own).mapM f =
      (fun own => if own.isEmpty then other else own) <$> own.mapM f := by
  cases own with
  | nil => exact (mapM_eq_ok_iff.2 (List.forall₂_same.2 fixed)).trans rfl
  | cons value rest => simp [List.mapM_cons]

end Outcome

namespace Members

variable {ε α : Type}

theorem mapM_insertAllNew {f : String × α → Except ε (String × α)}
    (named : ∀ member result, f member = .ok result → result.1 = member.1) {added : Members α}
    (fixed : ∀ member ∈ added, f member = .ok member) (members : Members α) :
    (insertAllNew members added).mapM f =
      (fun members => insertAllNew members added) <$> members.mapM f := by
  obtain ⟨new, sub, appends⟩ := exists_insertAllNew_eq members added
  have kept : new.mapM f = .ok new :=
    Outcome.mapM_eq_ok_iff.2 (List.forall₂_same.2 fun member mem => fixed member (sub.subset mem))
  rw [appends members rfl, List.mapM_append, kept, map_eq_pure_bind]
  refine Outcome.bind_congr_ok fun results h => ?_
  have names : List.Forall₂ Eq (keys results) (keys members) := by
    rw [keys, keys, List.forall₂_map_left_iff, List.forall₂_map_right_iff]
    exact (Outcome.mapM_eq_ok_iff.1 h).flip.imp fun result member same => named member result same
  rw [List.forall₂_eq_eq_eq] at names
  rw [appends results names]
  rfl

end Members

/-! ## The equations of expansion -/

namespace Expansion

variable {expansion : Expansion} {rank : String → Nat} {schema member : Schema}

theorem inlined?_folded (stays : expansion.inlined? schema = .ok none) (member : Schema) :
    expansion.inlined? (schema.folded member) = .ok none :=
  inlined?_eq_none_iff.2 fun reference refers => inlined?_eq_none_iff.1 stays reference refers

theorem Grounded.expand_of_fields (grounded : expansion.Grounded rank)
    (stays : expansion.inlined? schema = .ok none) :
    expansion.expand schema = (do
      let member ← expandSole expansion expansion.expand schema.allOf
      let properties ← schema.properties.mapM fun property => do
        return (property.1, ← expansion.expand property.2)
      let items ← schema.items.mapM expansion.expand
      let anyOf ← schema.anyOf.mapM expansion.expand
      let oneOf ← schema.oneOf.mapM expansion.expand
      return Parts.under { allOf := member.toList, properties, items, anyOf, oneOf } schema) := by
  have same : expandNode expansion expansion.expand = expansion.expand :=
    funext fun node => (grounded.expand_eq node).symm
  rw [grounded.expand_eq, expandNode_of_stays stays]
  simp only [expandParts, same]
  change (fun parts => Parts.under parts schema) <$> (_ : Except SchemaError Parts) = _
  simp only [map_eq_pure_bind, bind_assoc, pure_bind]

theorem Grounded.expand_of_children (grounded : expansion.Grounded rank)
    (stays : expansion.inlined? schema = .ok none) (bare : schema.allOf = []) :
    expansion.expand schema =
      (fun children => (schema.shape.withChildren children).schema) <$>
        schema.children.mapM expansion.expand := by
  have fields := congrArg (Shape.schema <$> ·) (schema.shape.mapM_children expansion.expand)
  simp only [Functor.map_map] at fields
  rw [grounded.expand_of_fields stays, ← Shape.children_shape, fields]
  obtain ⟨⟩ := schema
  cases bare
  simp only [Schema.shape, map_bind, map_pure, List.mapM_nil, pure_bind, expandSole,
    Outcome.ok_bind]
  rfl

/-- A node with one `allOf` member that stays is expanded by the member and then as the node
that the member is folded into. -/
theorem Grounded.expand_of_sole (grounded : expansion.Grounded rank)
    (defined : expansion.kept ⊆ Members.keys expansion.definitions)
    (stays : expansion.inlined? schema = .ok none) (sole : schema.allOf = [member]) :
    expansion.expand schema = (do
      let member ← expansion.expand member
      expansion.expand (schema.folded member)) := by
  have same : expandNode expansion expansion.expand = expansion.expand :=
    funext fun node => (grounded.expand_eq node).symm
  rw [grounded.expand_of_fields stays, sole]
  simp only [expandSole, same, bind_assoc, pure_bind]
  refine Outcome.bind_congr_ok fun result expands => ?_
  have fixed (child : Schema) (mem : child ∈ result.children) :
      expansion.expand child = .ok child :=
    expand_of_expanded defined
      ((Schema.everywhere_iff.1 (grounded.everywhere_expanded expands)).2 child mem)
  have properties := Members.mapM_insertAllNew
    (f := fun property => do return (property.1, ← expansion.expand property.2))
    (fun property other h => by
      obtain ⟨value, -, last⟩ := Outcome.bind_eq_ok_iff.1 h
      cases last
      rfl)
    (fun property mem => by
      rw [fixed property.2 (Schema.mem_children_of_properties mem)]
      rfl)
    schema.properties
  have items := Outcome.optionMapM_or
    (fun child item => fixed child (Schema.mem_children_of_items item)) schema.items
  have anyOf := Outcome.mapM_ite_isEmpty
    (fun child mem => fixed child (Schema.mem_children_of_anyOf mem)) schema.anyOf
  have oneOf := Outcome.mapM_ite_isEmpty
    (fun child mem => fixed child (Schema.mem_children_of_oneOf mem)) schema.oneOf
  rw [grounded.expand_of_fields (inlined?_folded stays result)]
  simp only [Schema.folded, expandSole, Outcome.ok_bind, properties, items, anyOf, oneOf,
    map_eq_pure_bind, bind_assoc, pure_bind]
  rfl

theorem Grounded.expand_of_inlined (grounded : expansion.Grounded rank) {definition : Schema}
    (found : expansion.inlined? schema = .ok (some definition)) :
    expansion.expand schema = expansion.expand definition := by
  rw [grounded.expand_eq, expandNode_of_inlined found]

theorem Grounded.expand_of_fault (grounded : expansion.Grounded rank) {fault : SchemaError}
    (faulty : expansion.inlined? schema = .error fault) :
    expansion.expand schema = .error fault := by
  rw [grounded.expand_eq, expandNode_eq, faulty]
  rfl

theorem Grounded.expand_of_several (grounded : expansion.Grounded rank)
    (stays : expansion.inlined? schema = .ok none) (several : 1 < schema.allOf.length) :
    expansion.expand schema = .error (.allOfArity schema.allOf.length) := by
  rw [grounded.expand_of_fields stays]
  match schema.allOf, several with
  | _ :: _ :: _, _ => rfl

theorem inlined?_eq_error_iff {fault : SchemaError} :
    expansion.inlined? schema = .error fault ↔
      ∃ reference, schema.reference = some reference ∧
        Reference.resolve expansion.definitions reference = .error fault := by
  rw [inlined?]
  cases schema.reference with
  | none => simp
  | some reference =>
      simp only [Option.some.injEq, exists_eq_left']
      cases resolves : Reference.resolve expansion.definitions reference with
      | error other => simp [bind, Except.bind]
      | ok body =>
          obtain ⟨name, named, -⟩ := resolve_eq_ok_iff.1 resolves
          simp [named, pure, Except.pure, Outcome.ok_bind]

/-! ## Along an expansion -/

/-- To show something of every schema, follow its expansion: a definition put in, children in a
node without an `allOf`, a member and then the node it is folded into. -/
theorem Grounded.inductExpansion (grounded : expansion.Grounded rank)
    (defined : expansion.kept ⊆ Members.keys expansion.definitions) {motive : Schema → Prop}
    (faulty : ∀ schema fault, expansion.inlined? schema = .error fault → motive schema)
    (inlined : ∀ schema definition, expansion.inlined? schema = .ok (some definition) →
      motive definition → motive schema)
    (parent : ∀ schema, expansion.inlined? schema = .ok none → schema.allOf = [] →
      (∀ child ∈ schema.children, motive child) → motive schema)
    (sole : ∀ schema member, expansion.inlined? schema = .ok none → schema.allOf = [member] →
      motive member →
      (∀ result, expansion.expand member = .ok result → motive (schema.folded result)) →
      motive schema)
    (several : ∀ schema, expansion.inlined? schema = .ok none → 1 < schema.allOf.length →
      motive schema)
    (schema : Schema) : motive schema := by
  -- The children taken over from a member are expanded already: nothing is put in below them.
  have settled (schema : Schema) (everywhere : schema.Everywhere (Schema.Expanded expansion.kept)) :
      motive schema := by
    induction schema using Schema.induct with
    | node schema ih =>
        obtain ⟨own, children⟩ := Schema.everywhere_iff.1 everywhere
        exact parent schema (inlined?_of_expanded defined own) own.allOf fun child mem =>
          ih child mem (children child mem)
  refine grounded.induct (fun schema children put => ?_) schema
  cases found : expansion.inlined? schema with
  | error fault => exact faulty schema fault found
  | ok definition =>
      cases definition with
      | some definition => exact inlined schema definition found (put definition found)
      | none =>
          match members : schema.allOf with
          | [] => exact parent schema found members children
          | [member] =>
              have below : member ∈ schema.children :=
                Schema.mem_children_of_allOf (members ▸ List.mem_singleton_self member)
              refine sole schema member found members (children member below) ?_
              intro result expands
              refine parent (schema.folded result) (inlined?_folded found result) rfl
                fun child mem => ?_
              rcases List.mem_append.1 (Shape.children_folded_subset schema.shape result.shape mem)
                with own | added
              · exact children child own
              · exact settled child
                  ((Schema.everywhere_iff.1 (grounded.everywhere_expanded expands)).2 child added)
          | _ :: _ :: _ => exact several schema found (by simp [members])

end Expansion

/-! ## Substitution -/

namespace Definitions

variable {definitions : Members Schema} {rank : String → Nat} {schema : Schema}

/-- With nothing kept, just the nodes that refer to nothing stay. -/
theorem stays_iff : Expansion.inlined? ⟨definitions, []⟩ schema = .ok none ↔
    schema.reference = none := by
  rw [Expansion.inlined?_eq_none_iff]
  constructor
  · intro stays
    refine Option.eq_none_iff_forall_ne_some.2 fun reference refers => ?_
    obtain ⟨name, -, -, kept⟩ := stays reference refers
    cases kept
  · intro bare reference refers
    cases bare.symm.trans refers

theorem inlined?_of_resolve
    (plain : ∀ name body, Members.get? definitions name = some body → body.reference = none)
    {reference : String} {definition : Schema} (refers : schema.reference = some reference)
    (resolves : Reference.resolve definitions reference = .ok definition) :
    Expansion.inlined? ⟨definitions, []⟩ schema = .ok (some (definition.underSite schema)) := by
  obtain ⟨name, named, defined⟩ := Expansion.resolve_eq_ok_iff.1 resolves
  refine Expansion.inlined?_eq_some_iff.2
    ⟨reference, name, definition, refers, named, defined, List.not_mem_nil, ?_⟩
  rw [Schema.underSite, plain name definition defined]
  rfl

theorem substitutesAll_of_forall {expand : Schema → Except SchemaError Schema}
    {schemas : List Schema}
    (each : ∀ schema ∈ schemas, Substitutes definitions schema (expand schema)) :
    SubstitutesAll definitions schemas (schemas.mapM expand) := by
  induction schemas with
  | nil => exact .nil
  | cons schema rest ih =>
      rw [List.forall_mem_cons] at each
      obtain ⟨first, others⟩ := each
      rw [List.mapM_cons]
      cases expands : expand schema with
      | error fault =>
          rw [expands] at first
          exact .faulty first
      | ok result =>
          rw [expands] at first
          have all := SubstitutesAll.cons first (ih others)
          cases more : rest.mapM expand with
          | error fault => rwa [more] at all
          | ok results => rwa [more] at all

section

variable (grounded : (⟨definitions, []⟩ : Expansion).Grounded rank)
  (plain : ∀ name body, Members.get? definitions name = some body → body.reference = none)
include grounded plain

theorem expand_eq_of_substitutes {outcome : Except SchemaError Schema}
    (h : Substitutes definitions schema outcome) :
    Expansion.expand ⟨definitions, []⟩ schema = outcome := by
  refine @Substitutes.rec definitions
    (fun schema outcome _ => Expansion.expand ⟨definitions, []⟩ schema = outcome)
    (fun schemas outcome _ => schemas.mapM (Expansion.expand ⟨definitions, []⟩) = outcome)
    ?unresolved ?inlined ?parent ?folded ?faulty ?several ?nil ?cons ?stop schema outcome h
  case unresolved =>
    intro schema reference fault refers fails
    exact grounded.expand_of_fault (Expansion.inlined?_eq_error_iff.2 ⟨reference, refers, fails⟩)
  case inlined =>
    intro schema definition reference outcome refers resolves _ next
    rw [grounded.expand_of_inlined (inlined?_of_resolve plain refers resolves), next]
  case parent =>
    intro schema outcome bare none _ children
    rw [grounded.expand_of_children (stays_iff.2 bare) none, children]
    rfl
  case folded =>
    intro schema member result outcome bare sole _ _ first next
    rw [grounded.expand_of_sole (List.nil_subset _) (stays_iff.2 bare) sole, first]
    exact next
  case faulty =>
    intro schema member fault bare sole _ first
    rw [grounded.expand_of_sole (List.nil_subset _) (stays_iff.2 bare) sole, first]
    rfl
  case several =>
    intro schema bare several
    exact grounded.expand_of_several (stays_iff.2 bare) several
  case nil => rfl
  case cons =>
    intro schema result rest outcome _ _ first others
    rw [List.mapM_cons, first, others]
    cases outcome <;> rfl
  case stop =>
    intro schema rest fault _ first
    rw [List.mapM_cons, first]
    rfl

/-- Substitution comes to the outcome of expansion, and to nothing else. -/
theorem substitutes_iff {outcome : Except SchemaError Schema} :
    Substitutes definitions schema outcome ↔
      Expansion.expand ⟨definitions, []⟩ schema = outcome := by
  refine ⟨expand_eq_of_substitutes grounded plain, ?_⟩
  rintro rfl
  induction schema using grounded.inductExpansion (List.nil_subset _) with
  | faulty schema fault found =>
      obtain ⟨reference, refers, fails⟩ := Expansion.inlined?_eq_error_iff.1 found
      rw [grounded.expand_of_fault found]
      exact .unresolved refers fails
  | inlined schema definition found ih =>
      obtain ⟨reference, name, body, refers, named, defined, -, -⟩ :=
        Expansion.inlined?_eq_some_iff.1 found
      have resolves := Expansion.resolve_eq_ok_iff.2 ⟨name, named, defined⟩
      cases found.symm.trans (inlined?_of_resolve plain refers resolves)
      rw [grounded.expand_of_inlined found]
      exact .inlined refers resolves ih
  | parent schema stays bare ih =>
      rw [grounded.expand_of_children stays bare]
      exact .parent (stays_iff.1 stays) bare (substitutesAll_of_forall ih)
  | sole schema member stays sole first ih =>
      rw [grounded.expand_of_sole (List.nil_subset _) stays sole]
      cases expands : Expansion.expand ⟨definitions, []⟩ member with
      | error fault => exact .faulty (stays_iff.1 stays) sole (expands ▸ first)
      | ok result => exact .folded (stays_iff.1 stays) sole (expands ▸ first) (ih result expands)
  | several schema stays several =>
      rw [grounded.expand_of_several stays several]
      exact .several (stays_iff.1 stays) several

end

end Definitions

end SchemaStream
