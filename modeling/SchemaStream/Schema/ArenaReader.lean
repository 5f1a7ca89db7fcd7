import SchemaStream.Schema.Arena

/-!
# Reading into an arena

A schema is put into an arena as it is read, each node after its children, whose places it then
names.  The keywords are read in their order, as in `Schema.ofJson`.
-/

namespace SchemaStream

/-- A reader with the nodes put into the arena so far. -/
abbrev NodeReader := StateT Nodes (Except SchemaError)

namespace Nodes

/-- Puts a node at the end of the arena. -/
def add (node : Shape Nat) : NodeReader Nat :=
  modifyGet fun nodes => (nodes.size, nodes.push node)

mutual

def read (value : Json) : NodeReader Nat :=
  match value with
  | .object members => do add (← readKeywords {} members)
  | .bool true => add {}
  | found => throw (.invalid (.notSchema found))

def readTable (value : Json) : NodeReader (List (String × Nat)) :=
  match value with
  | .object members => readProperties members
  | _ => throw (.invalid .propertiesNotObject)

def readCombinator (keyword : String) (value : Json) : NodeReader (List Nat) :=
  match value with
  | .array members => readMembers members
  | _ => throw (.invalid (.combinatorNotArray keyword))

def readKeywords (node : Shape Nat) : List (String × Json) → NodeReader (Shape Nat)
  | [] => pure node
  | (name, value) :: rest => do
      let node : Shape Nat ← match Keyword.ofName name with
        | .type => do
            let (types, listed) ← StateT.lift (Schema.readTypes value)
            pure { node with types := types, typesListed := listed }
        | .properties => do pure { node with properties := ← readTable value }
        | .required => do pure { node with required := ← StateT.lift (Schema.readNames value) }
        | .items => do pure { node with items := some (← read value) }
        | .anyOf => do pure { node with anyOf := ← readCombinator name value }
        | .oneOf => do pure { node with oneOf := ← readCombinator name value }
        | .allOf => do pure { node with allOf := ← readCombinator name value }
        | .enumeration => do
            pure { node with enumeration := some (← StateT.lift (Schema.readEnumeration value)) }
        | .reference => do
            let text ← StateT.lift (Schema.readText .referenceNotString value)
            pure { node with reference := some text }
        | .description => do
            let text ← StateT.lift (Schema.readText .descriptionNotString value)
            pure { node with description := some text }
        | .extensions =>
            pure { node with extensions := Members.insert node.extensions name value }
        | .other => pure { node with keywords := Members.insert node.keywords name value }
      readKeywords node rest

def readProperties : List (String × Json) → NodeReader (List (String × Nat))
  | [] => pure []
  | (name, value) :: rest => do
      let place ← read value
      let places ← readProperties rest
      return (name, place) :: places

def readMembers : List Json → NodeReader (List Nat)
  | [] => pure []
  | value :: rest => do
      let place ← read value
      let places ← readMembers rest
      return place :: places

end

end Nodes

namespace Arena

def readTable (members : Members Json) (table : TableKeyword) (definitions : Members Nat) :
    NodeReader (Members Nat) :=
  match Members.get? members table.name with
  | none => pure definitions
  | some (.object entries) => do
      return Members.insertAll definitions (← Nodes.readProperties entries)
  | some _ => throw (.invalid (.tableNotObject table.name))

/-- The definitions of both tables and the root, as in `Document.ofJson`. -/
def readMembers (members : Members Json) : NodeReader (Members Nat × Nat) := do
  let definitions ← readTable members .definitions []
  let definitions ← readTable members .defs definitions
  let rest := Members.erase (Members.erase members TableKeyword.definitions.name)
    TableKeyword.defs.name
  let root ← Nodes.read (.object rest)
  return (definitions, root)

def ofJson (value : Json) : Except SchemaError Arena :=
  match value with
  | .object members => do
      let ((definitions, root), nodes) ← (readMembers members).run #[]
      let table := if Members.has members TableKeyword.defs.name then .defs else .definitions
      return { nodes, root, definitions, table }
  | _ => .error (.invalid .rootNotObject)

end Arena

end SchemaStream
