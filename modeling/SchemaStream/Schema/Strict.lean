import SchemaStream.Schema.Cycle

/-!
# The strict dialect

Constrained decoding accepts a narrow dialect: every object lists its properties, requires
them all and admits no others; there are numbers but no integers; an enumeration holds
strings only.  References must have been expanded before, save those to definitions that
lead into a cycle; such definitions are passed through as they are.
-/

namespace SchemaStream

structure StrictOptions where
  stripKeywords : List String := ["default", "format"]
  stripExtensions : Bool := true
  deriving DecidableEq, Repr

namespace Strict

/-- The keywords that the dialect sets itself or never has. -/
def reserved : List String := ["$schema", "additionalProperties"]

def narrowed : JsonType → JsonType
  | .integer => .number
  | type => type

/-- Each entry where it comes first. -/
def distinct {α : Type} [BEq α] (entries : List α) : List α :=
  entries.foldl (fun found entry => if found.contains entry then found else found ++ [entry]) []

def narrowTypes (types : List JsonType) : List JsonType := distinct (types.map narrowed)

def memberText : Json → String
  | .string text => text
  | value => value.text

/-- The members of an enumeration as strings. -/
def memberTexts (values : List Json) : List String := distinct (values.map memberText)

/-- What references mean to the compiler, and what it is to leave out. -/
structure Context where
  definitions : Members Schema
  tolerated : List String
  options : StrictOptions

def compileReference (context : Context) (reference : String) : Except SchemaError Json := do
  let _ ← Reference.resolve context.definitions reference
  match Reference.name? reference with
  | some name =>
      if context.tolerated.contains name then return .object [("$ref", .string reference)]
      else throw (.unexpandedReference reference)
  | none => throw (.unexpandedReference reference)

def typeMembers (types : List JsonType) (listed : Bool) : Option (List Json) → Members Json
  | some values => [("type", .string "string"), ("enum", .strings (memberTexts values))]
  | none => Schema.typesMembers (narrowTypes types) listed

def objectMembers (properties : Members Json) : Members Json :=
  [("properties", .object properties), ("required", .strings (Members.keys properties)),
    ("additionalProperties", .bool false)]

def keptKeywords (options : StrictOptions) (keywords : Members Json) : Members Json :=
  keywords.filter fun keyword =>
    !reserved.contains keyword.1 && !options.stripKeywords.contains keyword.1

def keptExtensions (options : StrictOptions) (extensions : Members Json) : Members Json :=
  if options.stripExtensions then [] else extensions

/-- An enumeration is a string, whatever its type was, so it keeps no properties. -/
def hasProperties (schema : Schema) : Bool :=
  (schema.types.contains .object || (schema.types.isEmpty && !schema.properties.isEmpty)) &&
    schema.enumeration.isNone

mutual

def compileNode (context : Context) (schema : Schema) : Except SchemaError Json :=
  match schema with
  | { types, typesListed, properties, required, items, anyOf, oneOf, allOf, enumeration,
      reference, description, extensions, keywords } =>
    match reference with
    | some reference => compileReference context reference
    | none => do
        let node : Schema :=
          { types, typesListed, properties, required, items, anyOf, oneOf, allOf, enumeration,
            reference, description, extensions, keywords }
        let object ←
          if hasProperties node then (compileProperties context properties).map objectMembers
          else .ok []
        let items ← compileItems context items
        let anyOf ← compileMembers context anyOf
        let oneOf ← compileMembers context oneOf
        let allOf ← compileMembers context allOf
        return .object (typeMembers types typesListed enumeration ++
          Schema.textMembers "description" description ++ object ++ items ++
          Schema.listMembers "anyOf" anyOf ++ Schema.listMembers "oneOf" oneOf ++
          Schema.listMembers "allOf" allOf ++ keptKeywords context.options keywords ++
          keptExtensions context.options extensions)

def compileProperties (context : Context) :
    List (String × Schema) → Except SchemaError (List (String × Json))
  | [] => .ok []
  | (name, schema) :: rest => do
      let compiled ← compileNode context schema
      let others ← compileProperties context rest
      return (name, compiled) :: others

def compileItems (context : Context) : Option Schema → Except SchemaError (Members Json)
  | none => .ok []
  | some schema => do return [("items", ← compileNode context schema)]

def compileMembers (context : Context) : List Schema → Except SchemaError (List Json)
  | [] => .ok []
  | schema :: rest => do
      let compiled ← compileNode context schema
      let others ← compileMembers context rest
      return compiled :: others

end

theorem compileProperties_eq_mapM (context : Context) (properties : List (String × Schema)) :
    compileProperties context properties = properties.mapM fun property => do
      return (property.1, ← compileNode context property.2) := by
  induction properties with
  | nil => rfl
  | cons property rest ih =>
      obtain ⟨name, schema⟩ := property
      simp [compileProperties, ih, List.mapM_cons]

theorem compileMembers_eq_mapM (context : Context) (members : List Schema) :
    compileMembers context members = members.mapM (compileNode context) := by
  induction members with
  | nil => rfl
  | cons member rest ih => rw [compileMembers, ih, List.mapM_cons]

/-- The definitions in order, those that are tolerated as they are. -/
def compileDefinitions (context : Context) :
    Members Schema → Except SchemaError (Members Json)
  | [] => .ok []
  | (name, schema) :: rest => do
      let compiled ←
        if context.tolerated.contains name then pure schema.toJson else compileNode context schema
      let others ← compileDefinitions context rest
      return (name, compiled) :: others

end Strict

def Document.strict (document : Document) (options : StrictOptions) : Except SchemaError Json := do
  let context : Strict.Context :=
    { definitions := document.definitions, tolerated := document.cyclicDefinitions, options }
  let root ← Strict.compileNode context document.schema
  let definitions ← Strict.compileDefinitions context document.definitions
  return document.withTable root definitions

end SchemaStream
