import SchemaStream.Schema.Place

/-!
# Nodes at places

What stands at the slots of a node, and at the paths below it, after a child is changed, or
children are taken from another node.  The node itself stays as it is but for its children.
-/

namespace SchemaStream

theorem Members.get?_map_at {α : Type} (members : Members α) (name other : String)
    (change : α → α) :
    get? (members.map fun member =>
        if member.1 = name then (member.1, change member.2) else member) other =
      if name = other then (get? members other).map change else get? members other := by
  induction members with
  | nil => simp [get?]
  | cons member rest ih =>
      obtain ⟨key, value⟩ := member
      rw [List.map_cons]
      by_cases here : key = other
      · subst here
        by_cases same : key = name
        · simp [get?, same]
        · simp [get?, same, Ne.symm same]
      · by_cases same : key = name
        · rw [if_pos same, get?, if_neg here, ih, get?, if_neg here]
        · rw [if_neg same, get?, if_neg here, ih, get?, if_neg here]

namespace Schema

variable {schema source child : Schema} {change : Schema → Schema} {slot : Slot}
  {path : List Slot}

theorem child?_modifyChild (schema : Schema) (slot other : Slot) (change : Schema → Schema) :
    (schema.modifyChild slot change).child? other =
      if slot = other then (schema.child? other).map change else schema.child? other := by
  have list (children : List Schema) (index position : Nat) :
      (children.modify index change)[position]? =
        if index = position then children[position]?.map change else children[position]? := by
    rw [List.getElem?_modify]
    split <;> simp
  cases slot <;> cases other <;>
    simp [modifyChild, child?, Members.get?_map_at, list]

/-- Only where both nodes have a child does one come from the other. -/
theorem child?_withChildrenOf (schema source : Schema) (slots : List Slot) (slot : Slot) :
    (schema.withChildrenOf source slots).child? slot =
      if slot ∈ slots then (schema.child? slot).map fun child => (source.child? slot).getD child
      else schema.child? slot := by
  induction slots generalizing schema with
  | nil => rfl
  | cons first rest ih =>
      rw [withChildrenOf, List.foldl_cons]
      refine (ih _).trans ?_
      cases taken : source.child? first with
      | none =>
          by_cases here : first = slot
          · subst here
            simp [taken]
          · simp [Ne.symm here]
      | some child =>
          simp only [child?_modifyChild]
          by_cases here : first = slot
          · subst here
            simp [taken, Function.comp_def]
          · simp [here, Ne.symm here]

theorem at?_modify (schema : Schema) (path : List Slot) (change : Schema → Schema) :
    (schema.modify path change).at? path = (schema.at? path).map change := by
  induction path generalizing schema with
  | nil => rfl
  | cons slot path ih =>
      rw [modify, at?, child?_modifyChild, if_pos rfl, at?]
      cases schema.child? slot with
      | none => rfl
      | some child => exact ih child

/-! ## The node itself -/

/-- A node with empty schemas for its children. -/
def hollow (schema : Schema) : Schema :=
  { schema with
    properties := Members.mapValues (fun _ => {}) schema.properties
    items := schema.items.map fun _ => {}
    anyOf := schema.anyOf.map fun _ => {}
    oneOf := schema.oneOf.map fun _ => {}
    allOf := schema.allOf.map fun _ => {} }

theorem hollow_modifyChild (schema : Schema) (slot : Slot) (change : Schema → Schema) :
    (schema.modifyChild slot change).hollow = schema.hollow := by
  have list (children : List Schema) (index : Nat) :
      (children.modify index change).map (fun _ => ({} : Schema)) = children.map fun _ => {} := by
    simp [List.map_const']
  cases slot with
  | property name =>
      have each (property : String × Schema) :
          (fun property : String × Schema => (property.1, ({} : Schema)))
            (if property.1 = name then (property.1, change property.2) else property) =
              (property.1, {}) := by
        split <;> rfl
      simp only [modifyChild, hollow, Members.mapValues, List.map_map, Function.comp_def, each]
  | items => simp [modifyChild, hollow, Function.comp_def]
  | anyOf index | oneOf index | allOf index => simp only [modifyChild, hollow, list]

theorem hollow_withChildrenOf (schema source : Schema) (slots : List Slot) :
    (schema.withChildrenOf source slots).hollow = schema.hollow := by
  induction slots generalizing schema with
  | nil => rfl
  | cons first rest ih =>
      rw [withChildrenOf, List.foldl_cons]
      refine (ih _).trans ?_
      split
      · exact hollow_modifyChild schema first _
      · rfl

theorem keys_properties_of_hollow (same : schema.hollow = source.hollow) :
    Members.keys schema.properties = Members.keys source.properties := by
  have names := congrArg (fun node => Members.keys node.properties) same
  simpa only [hollow, Members.keys_mapValues] using names

theorem keys_modifyChild (schema : Schema) (slot : Slot) (change : Schema → Schema) :
    Members.keys (schema.modifyChild slot change).properties = Members.keys schema.properties :=
  keys_properties_of_hollow (hollow_modifyChild schema slot change)

theorem keys_withChildrenOf (schema source : Schema) (slots : List Slot) :
    Members.keys (schema.withChildrenOf source slots).properties =
      Members.keys schema.properties :=
  keys_properties_of_hollow (hollow_withChildrenOf schema source slots)

end Schema

end SchemaStream
