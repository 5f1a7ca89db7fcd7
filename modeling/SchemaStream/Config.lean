import SchemaStream.Json.Record
import SchemaStream.Schema.Strict

/-!
# Configuration
-/

namespace SchemaStream

structure AccumulatorOptions where
  /-- Whether data still in progress is checked against the partial type. -/
  validatePartials : Bool := true
  /-- How many candidates are followed; without a number, all. -/
  maxChoices : Option Nat := none
  deriving DecidableEq, Repr

structure Config where
  augment : Bool := true
  rootName : String := "Extraction"
  strict : StrictOptions := {}
  accumulator : AccumulatorOptions := {}
  deriving DecidableEq, Repr

def StrictOptions.alsoStripping (options : StrictOptions) (keywords : List String) :
    StrictOptions :=
  { options with stripKeywords := options.stripKeywords ++ keywords }

namespace StrictOptions

def ofWritten? (tree : Written) : Option StrictOptions := do
  match ← tree.fields? ["strip_keywords", "strip_extensions"] with
  | [keywords, extensions] =>
      let default : StrictOptions := {}
      return {
        stripKeywords :=
          ← Written.fieldOr default.stripKeywords (Written.list? Written.string?) keywords
        stripExtensions := ← Written.fieldOr default.stripExtensions Written.bool? extensions }
  | _ => none

def ofJson? (value : Json) : Option StrictOptions := ofWritten? (Written.ofJson value)

def toJson (options : StrictOptions) : Json :=
  .object [("strip_keywords", .strings options.stripKeywords),
    ("strip_extensions", .bool options.stripExtensions)]

end StrictOptions

namespace AccumulatorOptions

def ofWritten? (tree : Written) : Option AccumulatorOptions := do
  match ← tree.fields? ["validate_partials", "max_choices"] with
  | [validate, max] =>
      let default : AccumulatorOptions := {}
      return {
        validatePartials := ← Written.fieldOr default.validatePartials Written.bool? validate
        maxChoices :=
          ← Written.fieldOr default.maxChoices (Written.optional? Written.natural?) max }
  | _ => none

def ofJson? (value : Json) : Option AccumulatorOptions := ofWritten? (Written.ofJson value)

def toJson (options : AccumulatorOptions) : Json :=
  .object [("validate_partials", .bool options.validatePartials),
    ("max_choices", (options.maxChoices.map Json.nat).getD .null)]

end AccumulatorOptions

namespace Config

def ofWritten? (tree : Written) : Option Config := do
  match ← tree.fields? ["augment", "root_name", "strict", "accumulator"] with
  | [augment, rootName, strict, accumulator] =>
      let default : Config := {}
      return {
        augment := ← Written.fieldOr default.augment Written.bool? augment
        rootName := ← Written.fieldOr default.rootName Written.string? rootName
        strict := ← Written.fieldOr default.strict StrictOptions.ofWritten? strict
        accumulator :=
          ← Written.fieldOr default.accumulator AccumulatorOptions.ofWritten? accumulator }
  | _ => none

def ofJson? (value : Json) : Option Config := ofWritten? (Written.ofJson value)

def toJson (config : Config) : Json :=
  .object [("augment", .bool config.augment), ("root_name", .string config.rootName),
    ("strict", config.strict.toJson), ("accumulator", config.accumulator.toJson)]

end Config

end SchemaStream
