import SchemaStream.Schema.Place
import SchemaStream.Schema.Printer
import SchemaStream.Schema.Reader

/-!
# Schema documents

A document is a root schema with a table of named definitions, to which references point.
The root is a schema of its own, or else a node inside one of the definitions; then a
change of the root is a change of that definition.  A root may also stand beside a node of
a definition, having only some children in common with it; a change below these is a change
of both.
-/

namespace SchemaStream

/-! ## References -/

namespace Reference

/-- The name of the definition that a reference points at.  A name has no slash. -/
def name? (reference : String) : Option String :=
  ((Text.after? "#/definitions/" reference).or (Text.after? "#/$defs/" reference)).filter
    fun name => name ≠ "" && !name.toList.contains '/'

def resolve (definitions : Members Schema) (reference : String) : Except SchemaError Schema :=
  match name? reference with
  | none => .error (.unsupportedReference reference)
  | some name =>
      match Members.get? definitions name with
      | none => .error (.unresolvedReference reference)
      | some schema => .ok schema

end Reference

/-! ## Documents -/

/-- The keyword under which the definitions are written. -/
inductive TableKeyword where
  | definitions
  | defs
  deriving DecidableEq, Repr

def TableKeyword.name : TableKeyword → String
  | .definitions => "definitions"
  | .defs => "$defs"

inductive Root where
  | apart (schema : Schema)
  | within (definition : String) (path : List Slot)
  /-- The children at the shared slots are those of the node in the definition. -/
  | beside (schema : Schema) (definition : String) (path : List Slot) (shared : List Slot)

structure Document where
  root : Root
  definitions : Members Schema := []
  table : TableKeyword := .definitions

/-- A node of a document: below a definition, or else below the root. -/
structure Site where
  definition : Option String
  path : List Slot
  deriving DecidableEq, Repr

namespace Document

/-- The node at a path of a definition. -/
def node (document : Document) (definition : String) (path : List Slot) : Schema :=
  ((Members.get? document.definitions definition).bind fun body => body.at? path).getD {}

def schema (document : Document) : Schema :=
  match document.root with
  | .apart schema => schema
  | .within definition path => document.node definition path
  | .beside schema definition path shared =>
      schema.withChildrenOf (document.node definition path) shared

def modifyDefinition (document : Document) (name : String) (change : Schema → Schema) :
    Document :=
  { document with
    definitions := document.definitions.map fun entry =>
      if entry.1 = name then (entry.1, change entry.2) else entry }

def modifySchema (document : Document) (change : Schema → Schema) : Document :=
  match document.root with
  | .apart schema => { document with root := .apart (change schema) }
  | .within definition path =>
      document.modifyDefinition definition fun body => body.modify path change
  | .beside _ definition path shared =>
      let schema := change document.schema
      let document := document.modifyDefinition definition fun body =>
        body.modify path fun node => node.withChildrenOf schema shared
      { document with root := .beside schema definition path shared }

def setSchema (document : Document) (schema : Schema) : Document :=
  document.modifySchema fun _ => schema

def resolve (document : Document) (reference : String) : Except SchemaError Schema :=
  Reference.resolve document.definitions reference

def start? (document : Document) (site : Site) : Option Schema :=
  match site.definition with
  | none => some document.schema
  | some name => Members.get? document.definitions name

def at? (document : Document) (site : Site) : Option Schema :=
  (document.start? site).bind fun schema => schema.at? site.path

/-- The site reached from a start by positions among the children. -/
def site? (document : Document) (definition : Option String) (positions : List Nat) :
    Option Site := do
  let start ← document.start? ⟨definition, []⟩
  return ⟨definition, ← start.path? positions⟩

def modifyAt (document : Document) (site : Site) (change : Schema → Schema) : Document :=
  match site.definition with
  | none => document.modifySchema fun schema => schema.modify site.path change
  | some name => document.modifyDefinition name fun schema => schema.modify site.path change

/-- Where a node below the root is, once it is the root itself. -/
def rootBelow (document : Document) (path : List Slot) (schema : Schema) : Root :=
  match document.root, path with
  | .apart _, _ => .apart schema
  | .within name start, path => .within name (start ++ path)
  | .beside own name start shared, [] => .beside own name start shared
  | .beside _ name start shared, slot :: rest =>
      if shared.contains slot then .within name (start ++ slot :: rest) else .apart schema

/-- Makes the node at a site the root.  A node of a definition stays where it is. -/
def reroot? (document : Document) (site : Site) : Option Document :=
  (document.at? site).map fun schema =>
    match site.definition with
    | some name => { document with root := .within name site.path }
    | none => { document with root := document.rootBelow site.path schema }

/-- Makes a copy of the node at a site the root. -/
def rerootCopy? (document : Document) (site : Site) : Option Document :=
  (document.at? site).map fun schema => { document with root := .apart schema }

/-! ## Reading and writing -/

def readTable (members : Members Json) (table : TableKeyword) (definitions : Members Schema) :
    Except SchemaError (Members Schema) :=
  match Members.get? members table.name with
  | none => .ok definitions
  | some (.object entries) =>
      return Members.insertAll definitions (← Schema.readProperties entries)
  | some _ => .error (.invalid (.tableNotObject table.name))

/-- Both tables are read, the definitions of the second on top of the first. -/
def ofJson (value : Json) : Except SchemaError Document :=
  match value with
  | .object members => do
      let definitions ← readTable members .definitions []
      let definitions ← readTable members .defs definitions
      let table := if Members.has members TableKeyword.defs.name then .defs else .definitions
      let rest := Members.erase (Members.erase members TableKeyword.definitions.name)
        TableKeyword.defs.name
      let root ← Schema.readKeywords {} rest
      return { root := .apart root, definitions, table }
  | _ => .error (.invalid .rootNotObject)

/-- Adds the table to the members of a written root, unless it is empty. -/
def withTable (document : Document) (root : Json) (definitions : Members Json) : Json :=
  match root with
  | .object members =>
      if definitions.isEmpty then .object members
      else .object (Members.insert members document.table.name (.object definitions))
  | other => other

def toJson (document : Document) : Json :=
  document.withTable document.schema.toJson (Schema.propertiesJson document.definitions)

end Document

end SchemaStream
