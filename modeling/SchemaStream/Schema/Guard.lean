import SchemaStream.Schema.Arena

/-!
# Guarded references

A guard says which references are followed: from the nodes of a definition, or of none, to
another definition.  Where a reference is refused there is no result.  Under a guard by ranks, a
definition only leads to others of lower rank.
-/

namespace SchemaStream

/-- Whether a definition is followed to from a node that belongs to `within`. -/
abbrev Guard := Option String → String → Bool

namespace Guard

def free : Guard := fun _ _ => true

/-- A node that belongs to no definition is above them all. -/
def descending (rank : String → Nat) : Guard := fun within name =>
  within.all fun above => rank name < rank above

end Guard

namespace Arena

/-- Expands the node at a place, as `expandNode` does, where the guard allows it.  A node that a
definition is put in for belongs to that definition from then on. -/
def expandNodeGuarded (guard : Guard) (kept : List String) :
    Nat → Option String → Arena → Nat → ExceptT SchemaError Option Arena
  | 0, _, _, _ => ExceptT.lift none
  | depth + 1, within, arena, place => do
      let node ← arena.nodeAt place
      match arena.target? kept node with
      | .error fault => throw fault
      | .ok (some target) =>
          let name := node.reference >>= Reference.name?
          if name.all (guard within) then
            let (copy, nodes) ← ExceptT.lift (Nodes.deepCopy depth target arena.nodes)
            let arena := { arena with nodes }
            let definition ← arena.nodeAt copy
            expandNodeGuarded guard kept depth name
              (arena.setNode place (definition.overlaid node)) place
          else ExceptT.lift none
      | .ok none =>
          match node.allOf with
          | [] => node.children.foldlM (expandNodeGuarded guard kept depth within) arena
          | [member] =>
              let arena ← expandNodeGuarded guard kept depth within arena member
              let parent ← arena.nodeAt place
              let node ← arena.nodeAt member
              expandNodeGuarded guard kept depth within
                (arena.setNode place (parent.folded node)) place
          | members => throw (.allOfArity members.length)

/-- Expands the root, and the definitions that are not kept, as `expand` does. -/
def expandGuarded (guard : Guard) (kept : List String) (depth : Nat) (arena : Arena) :
    ExceptT SchemaError Option Arena := do
  let arena ← expandNodeGuarded guard kept depth none arena arena.root
  if kept.isEmpty then return { arena with definitions := [] }
  else
    let others := arena.definitions.filter fun entry => !kept.contains entry.1
    others.foldlM (fun arena entry =>
      expandNodeGuarded guard kept depth (some entry.1) arena entry.2) arena

end Arena

end SchemaStream
