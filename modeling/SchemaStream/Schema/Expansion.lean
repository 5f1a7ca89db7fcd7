import SchemaStream.Schema.Cycle

/-!
# Expansion

Expansion puts the referenced definitions in the place of references and folds an `allOf`
of one member into the node that holds it.  References to kept definitions, those that
lead into a cycle, stay.  Where a definition is put in, it may itself hold references; as
no definition on such a chain comes twice, the chain is no longer than the table.
-/

namespace SchemaStream

namespace Schema

/-- A definition in the place of a node that refers to it.  The node keeps its description,
its extensions and its further keywords; what is left counts as expanded in place, so the
reference of the definition itself is not carried. -/
def overlaid (definition site : Schema) : Schema :=
  { definition with
    reference := none
    description := site.description.or definition.description
    extensions := Members.insertAll definition.extensions site.extensions
    keywords := Members.insertAll definition.keywords site.keywords }

def addRequired (required : List String) (name : String) : List String :=
  if required.contains name then required else required ++ [name]

/-- Folds the member of an `allOf` into its node, what the node has itself coming first. -/
def folded (schema member : Schema) : Schema :=
  { schema with
    types := if schema.types.isEmpty then member.types else schema.types
    typesListed := if schema.types.isEmpty then member.typesListed else schema.typesListed
    properties := Members.insertAllNew schema.properties member.properties
    required := member.required.foldl addRequired schema.required
    items := schema.items.or member.items
    anyOf := if schema.anyOf.isEmpty then member.anyOf else schema.anyOf
    oneOf := if schema.oneOf.isEmpty then member.oneOf else schema.oneOf
    allOf := []
    enumeration := schema.enumeration.or member.enumeration
    description := schema.description.or member.description
    extensions := Members.insertAllNew schema.extensions member.extensions
    keywords := Members.insertAllNew schema.keywords member.keywords }

end Schema

/-- What references mean during expansion. -/
structure Expansion where
  definitions : Members Schema
  kept : List String

namespace Expansion

/-- The definition to put in the place of a node, laid under it, unless the node stays. -/
def inlined? (expansion : Expansion) (schema : Schema) : Except SchemaError (Option Schema) :=
  match schema.reference with
  | none => .ok none
  | some reference => do
      let definition ← Reference.resolve expansion.definitions reference
      match Reference.name? reference with
      | some name =>
          return if expansion.kept.contains name then none else some (definition.overlaid schema)
      | none => return none

mutual

/-- Expands a node, and by `below` what is put in its place. -/
def expandNode (expansion : Expansion) (below : Schema → Except SchemaError Schema)
    (schema : Schema) : Except SchemaError Schema :=
  match schema with
  | { types, typesListed, properties, required, items, anyOf, oneOf, allOf, enumeration,
      reference, description, extensions, keywords } => do
    let site : Schema :=
      { types, typesListed, properties, required, items, anyOf, oneOf, allOf, enumeration,
        reference, description, extensions, keywords }
    match ← expansion.inlined? site with
    | some definition => below definition
    | none =>
        let member ← expandSole expansion below allOf
        let expanded : Schema :=
          { site with
            properties := ← expandProperties expansion below properties
            items := ← expandItems expansion below items
            anyOf := ← expandMembers expansion below anyOf
            oneOf := ← expandMembers expansion below oneOf }
        return match member with
          | none => expanded
          | some member => expanded.folded member

/-- The member of an `allOf`, of which there must not be several. -/
def expandSole (expansion : Expansion) (below : Schema → Except SchemaError Schema) :
    List Schema → Except SchemaError (Option Schema)
  | [] => .ok none
  | [member] => do return some (← expandNode expansion below member)
  | members => .error (.allOfArity members.length)

def expandProperties (expansion : Expansion) (below : Schema → Except SchemaError Schema) :
    List (String × Schema) → Except SchemaError (List (String × Schema))
  | [] => .ok []
  | (name, schema) :: rest => do
      let expanded ← expandNode expansion below schema
      let others ← expandProperties expansion below rest
      return (name, expanded) :: others

def expandItems (expansion : Expansion) (below : Schema → Except SchemaError Schema) :
    Option Schema → Except SchemaError (Option Schema)
  | none => .ok none
  | some schema => do return some (← expandNode expansion below schema)

def expandMembers (expansion : Expansion) (below : Schema → Except SchemaError Schema) :
    List Schema → Except SchemaError (List Schema)
  | [] => .ok []
  | schema :: rest => do
      let expanded ← expandNode expansion below schema
      let others ← expandMembers expansion below rest
      return expanded :: others

end

theorem expandProperties_eq_mapM (expansion : Expansion)
    (below : Schema → Except SchemaError Schema) (properties : List (String × Schema)) :
    expandProperties expansion below properties = properties.mapM fun property => do
      return (property.1, ← expandNode expansion below property.2) := by
  induction properties with
  | nil => rfl
  | cons property rest ih =>
      obtain ⟨name, schema⟩ := property
      simp [expandProperties, ih, List.mapM_cons]

theorem expandItems_eq_mapM (expansion : Expansion)
    (below : Schema → Except SchemaError Schema) (items : Option Schema) :
    expandItems expansion below items = items.mapM (expandNode expansion below) := by
  cases items <;> rfl

theorem expandMembers_eq_mapM (expansion : Expansion)
    (below : Schema → Except SchemaError Schema) (members : List Schema) :
    expandMembers expansion below members = members.mapM (expandNode expansion below) := by
  induction members with
  | nil => rfl
  | cons member rest ih => rw [expandMembers, ih, List.mapM_cons]

/-- Expansion through at most `depth` definitions put into each other. -/
def expandWithin (expansion : Expansion) : Nat → Schema → Except SchemaError Schema
  | 0 => expandNode expansion .ok
  | depth + 1 => expandNode expansion (expandWithin expansion depth)

def expand (expansion : Expansion) (schema : Schema) : Except SchemaError Schema :=
  expandWithin expansion expansion.definitions.length schema

/-- Whether a slot of a node is its own, so that no folded member fills it. -/
def occupied (schema : Schema) : Slot → Bool
  | .property name => Members.has schema.properties name
  | .items => schema.items.isSome
  | .anyOf _ => !schema.anyOf.isEmpty
  | .oneOf _ => !schema.oneOf.isEmpty
  | .allOf _ => true

/-- What becomes of a node when a node above it is expanded. -/
inductive Fate where
  | placed (path : List Slot)
  /-- The node is folded into the one at `path`, which takes its children at `shared`. -/
  | folded (path : List Slot) (shared : List Slot)
  | replaced

/-- What a node makes of the fate that its child at `slot` has for a node below. -/
def Fate.below (schema : Schema) (slot : Slot) (node : Schema) (fate : Fate) : Fate :=
  match slot, fate with
  | .allOf _, .placed [] => .folded [] (node.slots.filter fun slot => !occupied schema slot)
  | .allOf _, .folded [] shared => .folded [] (shared.filter fun slot => !occupied schema slot)
  | .allOf _, .placed (next :: path) =>
      if occupied schema next then .replaced else .placed (next :: path)
  | .allOf _, .folded (next :: path) shared =>
      if occupied schema next then .replaced else .folded (next :: path) shared
  | slot, .placed path => .placed (slot :: path)
  | slot, .folded path shared => .folded (slot :: path) shared
  | _, .replaced => .replaced

/-- The fate of the node at a path, itself expanded before. -/
def fate (expansion : Expansion) (schema : Schema) : List Slot → Fate
  | [] => .placed []
  | slot :: path =>
      if (expansion.inlined? schema).toOption.join.isSome then .replaced
      else
        match schema.child? slot with
        | none => .replaced
        | some child => (fate expansion child path).below schema slot child

end Expansion

namespace Document

/-- Expands the definitions that are not kept, each with those before it already expanded. -/
def expandDefinitions (kept : List String) :
    List String → Members Schema → Except SchemaError (Members Schema)
  | [], definitions => .ok definitions
  | name :: names, definitions => do
      match Members.get? definitions name with
      | none => expandDefinitions kept names definitions
      | some body =>
          let expanded ← Expansion.expand ⟨definitions, kept⟩ body
          expandDefinitions kept names (Members.insert definitions name expanded)

/-- A root inside an expanded definition goes where expansion places it.  Where its node is
replaced it stands apart, and beside the node that it is folded into. -/
def movedRoot (document : Document) (kept : List String) : Root :=
  match document.root with
  | .within name path =>
      if kept.contains name then .within name path
      else
        match Members.get? document.definitions name with
        | none => .apart document.schema
        | some body =>
            match Expansion.fate ⟨document.definitions, kept⟩ body path with
            | .placed path => .within name path
            | .folded path shared => .beside document.schema name path shared
            | .replaced => .apart document.schema
  | root => root

/-- Without a cycle the definitions are no longer needed and go.  With one, all stay: those
on a cycle or leading into one as they are, the others expanded. -/
def expand (document : Document) : Except SchemaError Document := do
  let kept := document.cyclicDefinitions
  let schema ← Expansion.expand ⟨document.definitions, kept⟩ document.schema
  if kept.isEmpty then return { document with root := .apart schema, definitions := [] }
  else
    let document := document.setSchema schema
    let others := (Members.keys document.definitions).filter fun name => !kept.contains name
    let definitions ← expandDefinitions kept others document.definitions
    return { document with root := document.movedRoot kept, definitions }

end Document

end SchemaStream
