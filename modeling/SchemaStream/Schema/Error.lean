import SchemaStream.Json.Printer

/-!
# Faults of schemas
-/

namespace SchemaStream

/-- What makes a JSON value no schema, or a schema no description of a record. -/
inductive MalformedSchema where
  | rootNotObject
  | tableNotObject (table : String)
  | notSchema (found : Json)
  | unknownType (name : String)
  | typeEntryNotString
  | typeNeitherNameNorList (found : Json)
  | propertiesNotObject
  | requiredNotArray
  | requiredEntryNotString
  | combinatorNotArray (keyword : String)
  | enumerationNotArray
  | referenceNotString
  | descriptionNotString
  | rootDescribesNoObject
  deriving DecidableEq

def MalformedSchema.message : MalformedSchema → String
  | .rootNotObject => "schema root must be an object"
  | .tableNotObject table => "`" ++ table ++ "` must be an object"
  | .notSchema found => "expected schema object, found " ++ found.text
  | .unknownType name => "unknown type `" ++ name ++ "`"
  | .typeEntryNotString => "`type` entries must be strings"
  | .typeNeitherNameNorList found => "invalid `type`: " ++ found.text
  | .propertiesNotObject => "`properties` must be an object"
  | .requiredNotArray => "`required` must be an array"
  | .requiredEntryNotString => "`required` entries must be strings"
  | .combinatorNotArray keyword => "`" ++ keyword ++ "` must be an array"
  | .enumerationNotArray => "`enum` must be an array"
  | .referenceNotString => "`$ref` must be a string"
  | .descriptionNotString => "`description` must be a string"
  | .rootDescribesNoObject => "root schema must describe an object"

inductive SchemaError where
  | unresolvedReference (reference : String)
  | unsupportedReference (reference : String)
  | allOfArity (count : Nat)
  | unexpandedReference (reference : String)
  | invalid (fault : MalformedSchema)
  deriving DecidableEq

def SchemaError.message : SchemaError → String
  | .unresolvedReference reference => "unresolved reference: " ++ reference
  | .unsupportedReference reference => "unsupported reference: " ++ reference
  | .allOfArity count => "allOf must have exactly one member, found " ++ toString count
  | .unexpandedReference reference =>
      "reference was not expanded before strict compilation: " ++ reference
  | .invalid fault => "invalid schema: " ++ fault.message

end SchemaStream
