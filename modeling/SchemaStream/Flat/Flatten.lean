import SchemaStream.Flat.Key

/-!
# Flattening

A nested value as a flat map: every leaf under its flat key, in order.  An empty object
or array below the root is a leaf of its own; at the root it leaves nothing behind.
-/

namespace SchemaStream

abbrev FlatMap := Members Json

namespace Json

mutual

/-- The leaves of a value that stands at `key`; keys may repeat. -/
def leaves (key : String) : Json → List (String × Json)
  | .object [] => if key = "" then [] else [(key, .object [])]
  | .object (member :: members) => memberLeaves key (member :: members)
  | .array [] => if key = "" then [] else [(key, .array [])]
  | .array (item :: items) => itemLeaves key 0 (item :: items)
  | scalar => [(key, scalar)]

def memberLeaves (key : String) : List (String × Json) → List (String × Json)
  | [] => []
  | (name, value) :: rest => leaves (FlatKey.join key name) value ++ memberLeaves key rest

def itemLeaves (key : String) (index : Nat) : List Json → List (String × Json)
  | [] => []
  | item :: items =>
      leaves (FlatKey.join key (FlatKey.ofIndex index)) item ++ itemLeaves key (index + 1) items

end

theorem memberLeaves_eq_flatMap (key : String) (members : List (String × Json)) :
    memberLeaves key members =
      members.flatMap fun member => leaves (FlatKey.join key member.1) member.2 := by
  induction members with
  | nil => rfl
  | cons member rest ih => rw [memberLeaves, ih, List.flatMap_cons]

theorem itemLeaves_eq_flatMap (key : String) (index : Nat) (items : List Json) :
    itemLeaves key index items =
      (items.zipIdx index).flatMap fun item =>
        leaves (FlatKey.join key (FlatKey.ofIndex item.2)) item.1 := by
  induction items generalizing index with
  | nil => rfl
  | cons item items ih => rw [itemLeaves, ih, List.zipIdx_cons, List.flatMap_cons]

def flattenInto (value : Json) (key : String) (flat : FlatMap) : FlatMap :=
  Members.insertAll flat (leaves key value)

def flatten (value : Json) : FlatMap := flattenInto value "" []

end Json

end SchemaStream
