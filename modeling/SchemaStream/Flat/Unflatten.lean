import SchemaStream.Flat.Flatten

/-!
# Unflattening

The nested value of a flat map.  Entries are written into a tree one after another; one
that meets a leaf on its way, or ends at a branch, replaces what it meets.  A branch
whose segments are the indices below its size, in any order, becomes an array.
-/

namespace SchemaStream

inductive FlatTree where
  | leaf (value : Json)
  | branch (children : List (String × FlatTree))

namespace FlatTree

/-- To show something of every tree, show it of a branch from its children. -/
@[elab_as_elim, induction_eliminator]
theorem induct {motive : FlatTree → Prop} (leaf : ∀ value, motive (.leaf value))
    (branch : ∀ children, (∀ child ∈ children, motive child.2) → motive (.branch children))
    (tree : FlatTree) : motive tree :=
  @FlatTree.rec motive (fun children => ∀ child ∈ children, motive child.2)
    (fun child => motive child.2) leaf branch
    nofun (fun _ _ first rest => List.forall_mem_cons.2 ⟨first, rest⟩)
    (fun _ _ tree => tree) tree

def children : FlatTree → Members FlatTree
  | .leaf _ => []
  | .branch children => children

def write (tree : FlatTree) (path : List String) (value : Json) : FlatTree :=
  match path with
  | [] => .leaf value
  | segment :: rest =>
      let child := (Members.get? tree.children segment).getD (.branch [])
      .branch (Members.insert tree.children segment (child.write rest value))

/-- The items of a non-empty object whose names are the indices below its size. -/
def sequence? (members : Members Json) : Option (List Json) :=
  if members.isEmpty then none
  else (List.range members.length).mapM fun index =>
    Members.get? members (FlatKey.ofIndex index)

def ofMembers (members : Members Json) : Json :=
  match sequence? members with
  | some items => .array items
  | none => .object members

mutual

def value : FlatTree → Json
  | .leaf value => value
  | .branch children => ofMembers (childValues children)

def childValues : List (String × FlatTree) → List (String × Json)
  | [] => []
  | (segment, tree) :: rest => (segment, tree.value) :: childValues rest

end

theorem childValues_eq_mapValues (children : List (String × FlatTree)) :
    childValues children = Members.mapValues value children := by
  induction children with
  | nil => rfl
  | cons child rest ih => rw [childValues, ih]; rfl

def ofFlat (flat : FlatMap) : FlatTree :=
  flat.foldl (fun tree entry => tree.write (FlatKey.segments entry.1) entry.2) (.branch [])

end FlatTree

namespace Json

/-- A map with the empty key alone is the flat form of a scalar. -/
def unflatten (flat : FlatMap) : Json :=
  match flat with
  | [("", value)] => value
  | _ => (FlatTree.ofFlat flat).value

def normalize (value : Json) : Json := unflatten value.flatten

end Json

end SchemaStream
