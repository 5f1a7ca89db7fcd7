import SchemaStream.Config
import SchemaStream.Schema.Augmentation
import SchemaStream.Schema.Expansion
import SchemaStream.Schema.Prompts
import SchemaStream.Typing.Synthesis
import SchemaStream.Typing.Validation

/-!
# Prepared schemas

A schema is prepared for one extraction by reading, expanding and, unless that is turned
off, augmenting it.  What the model is told and what its answers are checked against are
both derived from the prepared document.
-/

namespace SchemaStream

structure Prepared where
  document : Document
  /-- Whether the definitions as written had a cycle. -/
  cyclic : Bool
  config : Config

namespace Prepared

def ofJson (value : Json) (config : Config) : Except SchemaError Prepared := do
  let document ← Document.ofJson value
  let expanded ← document.expand
  return {
    document := if config.augment then expanded.augment else expanded
    cyclic := document.hasCycle
    config }

def toJson (prepared : Prepared) : Json := prepared.document.toJson

def strict (prepared : Prepared) : Except SchemaError Json :=
  prepared.document.strict prepared.config.strict

def recordType (prepared : Prepared) : Except SchemaError RecordType :=
  prepared.document.recordType prepared.config.rootName

def prompts (prepared : Prepared) : Prompts := prepared.document.prompts

end Prepared

end SchemaStream
