import SchemaStream.Schema.Cycle

/-!
# The search for cycles

Cycles among definitions can be searched for depth first, along the references.  A definition is
marked as under way while the references below it are followed, and with the verdict afterwards;
what is marked is not searched again.  To come back to a definition under way is to close a
cycle, and the first reference that leads into a cycle decides for the definition it stands in.
The marks are kept from one definition of the table to the next.

A search that goes deeper than it is allowed to has no result.
-/

namespace SchemaStream

namespace Schema

/-- The names referred to below pending nodes.  The children of a node are put on top of the
pending nodes, the last of them first. -/
def pendingNames : List Schema → List String
  | [] => []
  | node :: pending =>
      (node.reference >>= Reference.name?).toList ++ pendingNames (node.children.reverse ++ pending)
termination_by pending => (pending.flatMap preorder).length
decreasing_by
  rw [List.flatMap_append, List.flatMap_cons, preorder_eq_cons_flatMap node, List.length_append,
    List.length_append, List.length_cons, (node.children.reverse_perm.flatMap_right _).length_eq]
  omega

end Schema

/-- What a search knows of a definition. -/
inductive Mark where
  | underWay
  | searched (cyclic : Bool)

abbrev Marks := Members Mark

/-- A search with the marks made so far. -/
abbrev CycleSearch := StateT Marks Option

namespace Definitions

/-- Whether a definition lies on a cycle or leads into one. -/
def reachesCycle (definitions : Members Schema) : Nat → String → CycleSearch Bool
  | 0, _ => failure
  | depth + 1, name => do
      match Members.get? (← get) name with
      | some .underWay => return true
      | some (.searched cyclic) => return cyclic
      | none =>
          match Members.get? definitions name with
          | none => return false
          | some body =>
              modify fun marks => Members.insert marks name .underWay
              let cyclic ← (Schema.pendingNames [body]).anyM (reachesCycle definitions depth)
              modify fun marks => Members.insert marks name (.searched cyclic)
              return cyclic

end Definitions

namespace Document

def searchCyclic (document : Document) (depth : Nat) : Option (List String) :=
  ((Members.keys document.definitions).filterM
    (Definitions.reachesCycle document.definitions depth)).run' []

def searchCycle (document : Document) (depth : Nat) : Option Bool :=
  ((Members.keys document.definitions).anyM
    (Definitions.reachesCycle document.definitions depth)).run' []

end Document

end SchemaStream
