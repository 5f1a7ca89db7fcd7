import SchemaStream.Json.Syntax

/-!
# Records in JSON

A record of known fields is written as an object, whose further members do not matter, or
as an array of the fields in their order, in which the last ones may be left out.  No known
field may be written twice.  A field that is absent, and one that may be null and is, has
its default.
-/

namespace SchemaStream

namespace Written

def null? : Written → Bool
  | .leaf (some .null) => true
  | _ => false

def bool? : Written → Option Bool
  | .leaf (some (.bool value)) => some value
  | _ => none

def string? : Written → Option String
  | .leaf (some (.string text)) => some text
  | _ => none

def natural? : Written → Option Nat
  | .leaf (some (.number (.natural value))) => some value.val
  | _ => none

def list? (item? : Written → Option α) : Written → Option (List α)
  | .array items => items.mapM item?
  | _ => none

/-- A map of any names. -/
def map? (value? : Written → Option α) : Written → Option (Members α)
  | .object members => do
      let named ← members.mapM fun (name, tree) => do return (← name, ← value? tree)
      return Members.ofList named
  | _ => none

/-- Null, or what `value?` reads. -/
def optional? (value? : Written → Option α) (tree : Written) : Option (Option α) :=
  if tree.null? then some none else (value? tree).map some

def orNull? (default : α) (value? : Written → Option α) (tree : Written) : Option α :=
  if tree.null? then some default else value? tree

/-- The members of an object by the names that they spell, if all do. -/
def named? : List (Option String × Written) → Option (List (String × Written))
  | [] => some []
  | (some name, tree) :: rest => (named? rest).map ((name, tree) :: ·)
  | (none, _) :: _ => none

/-- The fields of a record, in the order of their names, as far as they are written. -/
def fields? (names : List String) : Written → Option (List (Option Written))
  | .array items =>
      if items.length ≤ names.length then
        some (items.map some ++ List.replicate (names.length - items.length) none)
      else none
  | .object members => do
      let named ← named? members
      if names.all fun name => (named.filter fun member => member.1 = name).length ≤ 1 then
        some (names.map (Members.get? named))
      else none
  | .leaf _ => none

def fieldOr (default : α) (value? : Written → Option α) : Option Written → Option α
  | none => some default
  | some tree => value? tree

end Written

end SchemaStream
