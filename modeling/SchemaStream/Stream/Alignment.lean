import SchemaStream.Stream.Delta

/-!
# Alignment of keys

A key mapping renames flat keys by their longest mapped beginning: the key itself, or what
stands before one of its points.  What follows is kept.  A key whose beginning is mapped to
nothing is dropped, and one without a mapped beginning stays.
-/

namespace SchemaStream

namespace FlatKey

/-- A text cut at its end and before each point, the longest beginning first. -/
def cutChars (before : List Char) : List Char → List (List Char × List Char)
  | [] => [(before.reverse, [])]
  | c :: rest =>
      cutChars (c :: before) rest ++
        if c = separator then [(before.reverse, c :: rest)] else []

def cuts (key : String) : List (String × String) :=
  (cutChars [] key.toList).map fun (start, rest) => (String.ofList start, String.ofList rest)

end FlatKey

namespace KeyMapping

/-- The new name of a key, unless it is dropped. -/
def rename? (mapping : KeyMapping) (key : String) : Option String :=
  let mapped := (FlatKey.cuts key).findSome? fun (start, rest) =>
    (Members.get? mapping start).map fun target => target.map (· ++ rest)
  mapped.getD (some key)

/-- The entries under their new names; of several with one name, the last has its value. -/
def align (mapping : KeyMapping) (flat : FlatMap) : FlatMap :=
  Members.ofList (flat.filterMap fun (key, value) =>
    (mapping.rename? key).map fun target => (target, value))

end KeyMapping

end SchemaStream
