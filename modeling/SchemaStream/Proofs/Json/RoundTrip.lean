import SchemaStream.Proofs.Json.Distinct
import SchemaStream.Proofs.Json.Spelling

/-!
# Values read back from their text

The tokens of a value build its tree, and the tree has the value again, provided that its
brackets do not nest too deep and no object names a member twice.
-/

namespace SchemaStream

namespace Written

/-! ## Building the tree -/

theorem ofItems_eq_map (items : List Json) : ofItems items = items.map ofJson := by
  induction items with
  | nil => rfl
  | cons item items ih => rw [ofItems, ih, List.map_cons]

theorem ofMembers_eq_map (members : List (String × Json)) :
    ofMembers members = members.map fun member => (some member.1, ofJson member.2) := by
  induction members with
  | nil => rfl
  | cons member members ih => rw [ofMembers, ih, List.map_cons]

/-- Whether the machine, where a value is due, reads the tokens of this one as such. -/
def Builds (value : Json) : Prop :=
  ∀ stack, value.tokens.foldlM step? (.value stack) = some (.complete (ofJson value) stack)

theorem foldlM_tokens_append {value : Json} (builds : Builds value) (stack : List Frame)
    (later : List Token) :
    (value.tokens ++ later).foldlM step? (.value stack) =
      later.foldlM step? (.complete (ofJson value) stack) := by
  rw [List.foldlM_append, builds]
  rfl

/-- A first item is read as any value is: no value begins with a closing bracket. -/
theorem foldlM_firstItem (value : Json) (stack : List Frame) (later : List Token) :
    (value.tokens ++ later).foldlM step? (.firstItem stack) =
      (value.tokens ++ later).foldlM step? (.value (.array [] :: stack)) := by
  cases value with
  | null | bool | number | string => rfl
  | array items => cases items <;> rfl
  | object members => cases members <;> rfl

theorem foldlM_itemsTokens {items : List Json} (builds : ∀ item ∈ items, Builds item)
    (tree : Written) (before : List Written) (stack : List Frame) :
    (Json.itemsTokens items ++ [Token.closeArray]).foldlM step?
        (.complete tree (.array before :: stack)) =
      some (.complete (.array ((tree :: before).reverse ++ ofItems items)) stack) := by
  induction items generalizing tree before with
  | nil => simp [Json.itemsTokens, step?, ofItems]
  | cons item items ih =>
      obtain ⟨first, rest⟩ := List.forall_mem_cons.1 builds
      rw [Json.itemsTokens, List.cons_append, List.append_assoc, List.foldlM_cons, step?,
        Option.bind_eq_bind, Option.bind_some, foldlM_tokens_append first, ih rest]
      simp [ofItems]

theorem foldlM_named {name : Option String} {value : Json} (builds : Builds value)
    (before : List (Option String × Written)) (stack : List Frame) (later : List Token) :
    (.colon :: (value.tokens ++ later)).foldlM step? (.colon before name stack) =
      later.foldlM step? (.complete (ofJson value) (.object before name :: stack)) := by
  rw [List.foldlM_cons, step?, Option.bind_eq_bind, Option.bind_some, foldlM_tokens_append builds]

theorem foldlM_membersTokens {members : List (String × Json)}
    (builds : ∀ member ∈ members, Builds member.2) (name : Option String) (tree : Written)
    (before : List (Option String × Written)) (stack : List Frame) :
    (Json.membersTokens members ++ [Token.closeObject]).foldlM step?
        (.complete tree (.object before name :: stack)) =
      some (.complete (.object (((name, tree) :: before).reverse ++ ofMembers members)) stack) := by
  induction members generalizing name tree before with
  | nil => simp [Json.membersTokens, step?, ofMembers]
  | cons member members ih =>
      obtain ⟨next, value⟩ := member
      obtain ⟨first, rest⟩ := List.forall_mem_cons.1 builds
      rw [Json.membersTokens, List.cons_append, List.cons_append, List.cons_append,
        List.append_assoc, List.foldlM_cons, step?, Option.bind_eq_bind, Option.bind_some,
        List.foldlM_cons, step?, Option.bind_eq_bind, Option.bind_some, foldlM_named first, ih rest]
      simp [ofMembers]

theorem builds (value : Json) : Builds value := by
  intro stack
  induction value generalizing stack with
  | null | bool | number | string => rfl
  | array items ih =>
      cases items with
      | nil => rfl
      | cons item items =>
          obtain ⟨first, rest⟩ := List.forall_mem_cons.1 ih
          rw [Json.tokens, List.foldlM_cons, step?, begin?, Option.bind_eq_bind, Option.bind_some,
            foldlM_firstItem, foldlM_tokens_append first, foldlM_itemsTokens rest]
          rfl
  | object members ih =>
      cases members with
      | nil => rfl
      | cons member members =>
          obtain ⟨name, value⟩ := member
          obtain ⟨first, rest⟩ := List.forall_mem_cons.1 ih
          rw [Json.tokens, List.foldlM_cons, step?, begin?, Option.bind_eq_bind, Option.bind_some,
            List.foldlM_cons, step?, Option.bind_eq_bind, Option.bind_some, foldlM_named first,
            foldlM_membersTokens rest]
          rfl

/-- The text of a value spells its own tree. -/
theorem ofText?_text {value : Json} (reads : ∀ x ∈ value.binaries, x.ReadsBack) :
    ofText? value.text = some (ofJson value) := by
  rw [ofText?, Json.text, String.toList_ofList, (Token.spells_chars value reads).ofChars?,
    Option.bind_eq_bind, Option.bind_some, ofTokens?, builds value]

/-! ## Taking the value -/

theorem depth_lt_of_mem_array {items : List Json} {item : Json} (mem : item ∈ items) :
    (ofJson item).depth < (ofJson (.array items)).depth := by
  rw [ofJson, depth, Nat.lt_succ_iff]
  induction mem with
  | head => exact Nat.le_max_left ..
  | tail _ _ ih => exact Nat.le_trans ih (Nat.le_max_right ..)

theorem depth_lt_of_mem_object {members : List (String × Json)} {member : String × Json}
    (mem : member ∈ members) :
    (ofJson member.2).depth < (ofJson (.object members)).depth := by
  rw [ofJson, depth, Nat.lt_succ_iff]
  induction mem with
  | head => exact Nat.le_max_left ..
  | tail _ _ ih => exact Nat.le_trans ih (Nat.le_max_right ..)

theorem itemValues?_ofItems {room : Nat} {items : List Json}
    (values : ∀ item ∈ items, value? room (ofJson item) = some item) :
    itemValues? room (ofItems items) = some items := by
  induction items with
  | nil => rfl
  | cons item items ih =>
      obtain ⟨first, rest⟩ := List.forall_mem_cons.1 values
      rw [ofItems, itemValues?, first, ih rest]
      rfl

theorem memberValues?_ofMembers {room : Nat} {members : List (String × Json)}
    (values : ∀ member ∈ members, value? room (ofJson member.2) = some member.2) :
    memberValues? room (ofMembers members) = some members := by
  induction members with
  | nil => rfl
  | cons member members ih =>
      obtain ⟨first, rest⟩ := List.forall_mem_cons.1 values
      rw [ofMembers, memberValues?, first, ih rest]
      rfl

theorem value?_ofJson {value : Json} {room : Nat} (distinct : value.distinct = true)
    (shallow : (ofJson value).depth ≤ room) : value? room (ofJson value) = some value := by
  induction value generalizing room with
  | null | bool | number | string => rw [ofJson, value?] <;> rintro _ ⟨⟩
  | array items ih =>
      have inner := Json.distinct_array_iff.1 distinct
      cases room with
      | zero => cases shallow
      | succ room =>
          rw [ofJson, value?, itemValues?_ofItems fun item mem => ih item mem (inner item mem)
            (Nat.le_of_lt_succ (Nat.lt_of_lt_of_le (depth_lt_of_mem_array mem) shallow))]
          rfl
  | object members ih =>
      obtain ⟨names, inner⟩ := Json.distinct_object_iff.1 distinct
      cases room with
      | zero => cases shallow
      | succ room =>
          rw [ofJson, value?, memberValues?_ofMembers fun member mem =>
            ih member mem (inner member mem)
              (Nat.le_of_lt_succ (Nat.lt_of_lt_of_le (depth_lt_of_mem_object mem) shallow)),
            Option.map_some, Members.ofList_eq_self names]

end Written

/-- A value is read back from its text. -/
theorem Json.ofText?_text {value : Json} (distinct : value.distinct = true)
    (shallow : (Written.ofJson value).depth ≤ Written.nestingLimit)
    (reads : ∀ x ∈ value.binaries, x.ReadsBack) : Json.ofText? value.text = some value := by
  rw [Json.ofText?, Written.ofText?_text reads, Option.bind_eq_bind, Option.bind_some,
    Written.value?_ofJson distinct shallow]

end SchemaStream
