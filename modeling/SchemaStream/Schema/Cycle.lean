import SchemaStream.Schema.Document

/-!
# Cycles among definitions

A definition refers to another when some node of its body carries a reference to it.  In
rounds, every definition whose references all lead to definitions settled before is
settled; the definitions never settled are those from which the references lead into a
cycle.  There are no more rounds of change than definitions.
-/

namespace SchemaStream

namespace Schema

/-- The names that the references below a node spell, whether defined or not. -/
def referencedNames (schema : Schema) : List String :=
  schema.preorder.filterMap fun node => node.reference >>= Reference.name?

end Schema

namespace Definitions

def settles (definitions : Members Schema) (settled : List String) (body : Schema) : Bool :=
  body.referencedNames.all fun name => !Members.has definitions name || settled.contains name

def settledAfter (definitions : Members Schema) : Nat → List String
  | 0 => []
  | rounds + 1 =>
      let before := settledAfter definitions rounds
      Members.keys (definitions.filter fun entry => settles definitions before entry.2)

def settled (definitions : Members Schema) : List String :=
  settledAfter definitions definitions.length

/-- The definitions that lie on a cycle or lead into one. -/
def cyclic (definitions : Members Schema) : List String :=
  let settled := settled definitions
  (Members.keys definitions).filter fun name => !settled.contains name

end Definitions

namespace Document

def cyclicDefinitions (document : Document) : List String :=
  Definitions.cyclic document.definitions

def hasCycle (document : Document) : Bool := !document.cyclicDefinitions.isEmpty

end Document

end SchemaStream
