import SchemaStream.Schema.Basic
import SchemaStream.Schema.Error

/-!
# Reading schemas

A schema is an object, or `true`, which stands for the schema without keywords.  The
keywords of an object are read in their order, so the first faulty one is reported.
-/

namespace SchemaStream

inductive Keyword where
  | type
  | properties
  | required
  | items
  | anyOf
  | oneOf
  | allOf
  | enumeration
  | reference
  | description
  | extensions
  | other
  deriving DecidableEq, Repr

namespace Keyword

def ofName (name : String) : Keyword :=
  if name = "type" then .type
  else if name = "properties" then .properties
  else if name = "required" then .required
  else if name = "items" then .items
  else if name = "anyOf" then .anyOf
  else if name = "oneOf" then .oneOf
  else if name = "allOf" then .allOf
  else if name = "enum" then .enumeration
  else if name = "$ref" then .reference
  else if name = "description" then .description
  else if Text.begins "X-" name then .extensions
  else .other

end Keyword

namespace Schema

def readType (name : String) : Except SchemaError JsonType :=
  match JsonType.ofName? name with
  | some type => .ok type
  | none => .error (.invalid (.unknownType name))

def readTypeEntry (entry : Json) : Except SchemaError JsonType :=
  match entry with
  | .string name => readType name
  | _ => .error (.invalid .typeEntryNotString)

/-- The types named, and whether as a list. -/
def readTypes (value : Json) : Except SchemaError (List JsonType × Bool) :=
  match value with
  | .string name => do return ([← readType name], false)
  | .array entries => do return (← entries.mapM readTypeEntry, true)
  | found => .error (.invalid (.typeNeitherNameNorList found))

/-- Each name once, where it is first listed. -/
def readRequired (listed : List String) : List Json → Except SchemaError (List String)
  | [] => .ok listed
  | .string name :: rest =>
      readRequired (if listed.contains name then listed else listed ++ [name]) rest
  | _ :: _ => .error (.invalid .requiredEntryNotString)

def readEnumeration : Json → Except SchemaError (List Json)
  | .array values => .ok values
  | _ => .error (.invalid .enumerationNotArray)

def readText (fault : MalformedSchema) : Json → Except SchemaError String
  | .string text => .ok text
  | _ => .error (.invalid fault)

def readNames : Json → Except SchemaError (List String)
  | .array names => readRequired [] names
  | _ => .error (.invalid .requiredNotArray)

mutual

def ofJson (value : Json) : Except SchemaError Schema :=
  match value with
  | .object members => readKeywords {} members
  | .bool true => .ok {}
  | found => .error (.invalid (.notSchema found))

def readTable (value : Json) : Except SchemaError (List (String × Schema)) :=
  match value with
  | .object members => readProperties members
  | _ => .error (.invalid .propertiesNotObject)

def readCombinator (keyword : String) (value : Json) : Except SchemaError (List Schema) :=
  match value with
  | .array members => readMembers members
  | _ => .error (.invalid (.combinatorNotArray keyword))

def readKeywords (schema : Schema) : List (String × Json) → Except SchemaError Schema
  | [] => .ok schema
  | (name, value) :: rest => do
      let schema : Schema ← match Keyword.ofName name with
        | .type => do
            let (types, listed) ← readTypes value
            pure { schema with types := types, typesListed := listed }
        | .properties => do pure { schema with properties := ← readTable value }
        | .required => do pure { schema with required := ← readNames value }
        | .items => do pure { schema with items := some (← ofJson value) }
        | .anyOf => do pure { schema with anyOf := ← readCombinator name value }
        | .oneOf => do pure { schema with oneOf := ← readCombinator name value }
        | .allOf => do pure { schema with allOf := ← readCombinator name value }
        | .enumeration => do pure { schema with enumeration := some (← readEnumeration value) }
        | .reference => do
            pure { schema with reference := some (← readText .referenceNotString value) }
        | .description => do
            pure { schema with description := some (← readText .descriptionNotString value) }
        | .extensions =>
            pure { schema with extensions := Members.insert schema.extensions name value }
        | .other => pure { schema with keywords := Members.insert schema.keywords name value }
      readKeywords schema rest

def readProperties : List (String × Json) → Except SchemaError (List (String × Schema))
  | [] => .ok []
  | (name, value) :: rest => do
      let schema ← ofJson value
      let schemas ← readProperties rest
      return (name, schema) :: schemas

def readMembers : List Json → Except SchemaError (List Schema)
  | [] => .ok []
  | value :: rest => do
      let schema ← ofJson value
      let schemas ← readMembers rest
      return schema :: schemas

end

theorem readProperties_eq_mapM (members : List (String × Json)) :
    readProperties members = members.mapM fun member => do
      return (member.1, ← ofJson member.2) := by
  induction members with
  | nil => rfl
  | cons member rest ih =>
      obtain ⟨name, value⟩ := member
      simp [readProperties, ih, List.mapM_cons]

theorem readMembers_eq_mapM (values : List Json) : readMembers values = values.mapM ofJson := by
  induction values with
  | nil => rfl
  | cons value rest ih => rw [readMembers, ih, List.mapM_cons]

end Schema

end SchemaStream
