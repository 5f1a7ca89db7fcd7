import SchemaStream.Json.Token

/-!
# JSON as it is written

The tree of a text before its values are taken: members in written order with repeated
names kept, and leaves that may have no value.  A machine with a stack of open brackets
builds the tree, one step a token.  `value?` takes the value of a tree, within a limit on
the brackets open at once.
-/

namespace SchemaStream

inductive Written where
  | leaf (value : Option Json)
  | array (items : List Written)
  | object (members : List (Option String × Written))

namespace Written

/-! ## Reading -/

/-- An open bracket with what has been read since, latest first. -/
inductive Frame where
  | array (before : List Written)
  | object (before : List (Option String × Written)) (name : Option String)

inductive State where
  | value (stack : List Frame)
  | firstItem (stack : List Frame)
  | firstName (stack : List Frame)
  | name (before : List (Option String × Written)) (stack : List Frame)
  | colon (before : List (Option String × Written)) (name : Option String) (stack : List Frame)
  | complete (tree : Written) (stack : List Frame)

/-- A token that begins a value. -/
def begin? (stack : List Frame) : Token → Option State
  | .null => some (.complete (.leaf (some .null)) stack)
  | .bool value => some (.complete (.leaf (some (.bool value))) stack)
  | .number value => some (.complete (.leaf (value.map .number)) stack)
  | .string text => some (.complete (.leaf (text.map .string)) stack)
  | .openArray => some (.firstItem stack)
  | .openObject => some (.firstName stack)
  | _ => none

def step? : State → Token → Option State
  | .value stack, token => begin? stack token
  | .firstItem stack, .closeArray => some (.complete (.array []) stack)
  | .firstItem stack, token => begin? (.array [] :: stack) token
  | .firstName stack, .closeObject => some (.complete (.object []) stack)
  | .firstName stack, .string text => some (.colon [] text stack)
  | .name before stack, .string text => some (.colon before text stack)
  | .colon before name stack, .colon => some (.value (.object before name :: stack))
  | .complete tree (.array before :: stack), .comma =>
      some (.value (.array (tree :: before) :: stack))
  | .complete tree (.array before :: stack), .closeArray =>
      some (.complete (.array (tree :: before).reverse) stack)
  | .complete tree (.object before name :: stack), .comma =>
      some (.name ((name, tree) :: before) stack)
  | .complete tree (.object before name :: stack), .closeObject =>
      some (.complete (.object ((name, tree) :: before).reverse) stack)
  | _, _ => none

def ofTokens? (tokens : List Token) : Option Written :=
  match tokens.foldlM step? (.value []) with
  | some (.complete tree []) => some tree
  | _ => none

def ofText? (text : String) : Option Written := Token.ofChars? text.toList >>= ofTokens?

/-! ## Values -/

mutual

/-- The value of a tree with at most `room` brackets open at once; a repeated name keeps
its first position and its last value. -/
def value? (room : Nat) : Written → Option Json
  | .leaf value => value
  | .array items =>
      match room with
      | 0 => none
      | room + 1 => (itemValues? room items).map .array
  | .object members =>
      match room with
      | 0 => none
      | room + 1 => (memberValues? room members).map fun named => .object (Members.ofList named)

def itemValues? (room : Nat) : List Written → Option (List Json)
  | [] => some []
  | item :: items => do
      let value ← value? room item
      let values ← itemValues? room items
      some (value :: values)

def memberValues? (room : Nat) : List (Option String × Written) → Option (List (String × Json))
  | [] => some []
  | (name, tree) :: rest => do
      let name ← name
      let value ← value? room tree
      let values ← memberValues? room rest
      some ((name, value) :: values)

end

mutual

/-- The most brackets open at once. -/
def depth : Written → Nat
  | .leaf _ => 0
  | .array items => itemsDepth items + 1
  | .object members => membersDepth members + 1

def itemsDepth : List Written → Nat
  | [] => 0
  | item :: items => max (depth item) (itemsDepth items)

def membersDepth : List (Option String × Written) → Nat
  | [] => 0
  | (_, tree) :: rest => max (depth tree) (membersDepth rest)

end

/-- Brackets may be open this many at once. -/
def nestingLimit : Nat := 127

mutual

/-- A value as a tree: its own spelling. -/
def ofJson : Json → Written
  | .array items => .array (ofItems items)
  | .object members => .object (ofMembers members)
  | value => .leaf (some value)

def ofItems : List Json → List Written
  | [] => []
  | item :: items => ofJson item :: ofItems items

def ofMembers : List (String × Json) → List (Option String × Written)
  | [] => []
  | (name, value) :: rest => (some name, ofJson value) :: ofMembers rest

end

end Written

def Json.ofText? (text : String) : Option Json :=
  Written.ofText? text >>= Written.value? Written.nestingLimit

end SchemaStream
