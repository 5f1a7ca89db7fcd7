import SchemaStream.Proofs.Schema.AddedFields
import SchemaStream.Proofs.Schema.Places

/-!
# Where augmentation goes

From a node augmentation goes on to the properties of objects, to items and to the members of
unions, and hands each of them the slot that it may fill.  It changes no other nodes.
-/

namespace SchemaStream

namespace Schema

variable {schema child node own result : Schema} {slot next : Option String} {step : Slot}
  {path : List Slot}

/-- The slot that is handed to the child at a place, if augmentation goes there. -/
def handed? (slot : Option String) (schema : Schema) : Slot → Option (Option String)
  | .property _ => if schema.describesObject then some none else none
  | .items => some (some itemSlot)
  | .anyOf _ | .oneOf _ => some (schema.memberSlot slot)
  | .allOf _ => none

theorem SlotHanded.handedOn (handed : SlotHanded slot)
    (goes : schema.handed? slot step = some next) : SlotHanded next := by
  rintro name rfl
  cases step with
  | property key =>
      rw [handed?] at goes
      split at goes <;> cases goes
  | items =>
      cases goes
      exact .inr rfl
  | anyOf index | oneOf index =>
      have own : schema.memberSlot slot = some name := Option.some.inj goes
      rw [memberSlot] at own
      split at own
      · cases own
      · exact handed name own
  | allOf index => cases goes

/-- The node at a path, with the slot handed to it, if augmentation comes by. -/
def visit? (slot : Option String) (schema : Schema) : List Slot → Option (Option String × Schema)
  | [] => some (slot, schema)
  | step :: path => do
      let next ← schema.handed? slot step
      let child ← schema.child? step
      child.visit? next path

theorem child?_withoutMarker (schema : Schema) (marker : Marker) (step : Slot) :
    (schema.withoutMarker marker).child? step = schema.child? step := by
  cases step <;> rfl

theorem Augments.properties_eq (placed : Augments slot schema result) :
    result.properties = schema.augmentedProperties slot := by
  rcases placed with rfl | rfl
  · rw [augmentNode_eq]
  · rw [withoutMarker, augmentNode_eq]

theorem Augments.child? (placed : Augments slot schema result) (step : Slot) :
    result.child? step = (schema.augmentNode slot).child? step := by
  rcases placed with rfl | rfl
  · rfl
  · exact child?_withoutMarker _ _ step

theorem exists_child?_augmentNode (found : schema.child? step = some child)
    (slot : Option String) :
    ∃ result, (schema.augmentNode slot).child? step = some result ∧
      match schema.handed? slot step with
      | some next => Augments next child result
      | none => result = child := by
  rw [augmentNode_eq]
  cases step with
  | property name =>
      by_cases describes : schema.describesObject = true
      · have own : Members.get? schema.properties name = some child := found
        refine ⟨(augmentedProperty (name, child)).2, ?_, ?_⟩
        · refine (get?_augmentedProperties slot describes ?_).trans (by rw [own]; rfl)
          exact Members.mem_keys_iff_exists_get?.2 ⟨child, own⟩
        · simpa only [handed?, if_pos describes] using augments_augmentedProperty (name, child)
      · refine ⟨child, ?_, ?_⟩
        · rw [augmentedProperties, if_neg describes]
          exact found
        · simp only [handed?, if_neg describes]
  | items =>
      have own : schema.items = some child := found
      have placed : Augments (some itemSlot) child
          (if child.isLeaf then (child.augmentNode (some itemSlot)).withoutMarker .sourceQuote
            else child.augmentNode (some itemSlot)) := by
        split
        · exact .inr rfl
        · exact .inl rfl
      exact ⟨_, (congrArg augmentItems own).trans rfl, placed⟩
  | anyOf index =>
      exact ⟨_, List.getElem?_map.trans (congrArg _ found), .inl rfl⟩
  | oneOf index =>
      exact ⟨_, List.getElem?_map.trans (congrArg _ found), .inl rfl⟩
  | allOf index => exact ⟨child, found, rfl⟩

/-- Augmentation leaves at a path what it makes of the node there. -/
theorem exists_at?_of_visit? (placed : Augments slot schema result)
    (visited : schema.visit? slot path = some (next, node)) :
    ∃ after, result.at? path = some after ∧ Augments next node after := by
  induction path generalizing schema slot result with
  | nil =>
      cases visited
      exact ⟨result, rfl, placed⟩
  | cons step path ih =>
      simp only [visit?, Option.bind_eq_bind, Option.bind_eq_some_iff] at visited
      obtain ⟨handed, goes, child, found, visited⟩ := visited
      obtain ⟨after, there, below⟩ := exists_child?_augmentNode found slot
      rw [goes] at below
      rw [← placed.child?] at there
      obtain ⟨last, found', placed'⟩ := ih below visited
      exact ⟨last, by rw [at?, there]; exact found', placed'⟩

theorem at?_of_visit? (visited : schema.visit? slot path = some (next, node)) :
    schema.at? path = some node := by
  induction path generalizing schema slot with
  | nil =>
      cases visited
      rfl
  | cons step path ih =>
      simp only [visit?, Option.bind_eq_bind, Option.bind_eq_some_iff] at visited
      obtain ⟨handed, -, child, found, visited⟩ := visited
      rw [at?, found]
      exact ih visited

theorem at?_of_visit?_eq_none (placed : Augments slot schema result)
    (passed : schema.visit? slot path = none) (found : schema.at? path = some own) :
    result.at? path = some own := by
  induction path generalizing schema slot result with
  | nil => cases passed
  | cons step path ih =>
      obtain ⟨child, first, below⟩ := Option.bind_eq_some_iff.1 found
      obtain ⟨after, there, made⟩ := exists_child?_augmentNode first slot
      rw [← placed.child?] at there
      rw [at?, there]
      cases goes : schema.handed? slot step with
      | none =>
          rw [goes] at made
          exact made ▸ below
      | some next =>
          rw [goes] at made
          refine ih made ?_ below
          simpa [visit?, goes, first] using passed

theorem visit?_append (slot : Option String) (schema : Schema) (front back : List Slot) :
    schema.visit? slot (front ++ back) =
      (schema.visit? slot front).bind fun visited => visited.2.visit? visited.1 back := by
  induction front generalizing schema slot with
  | nil => rfl
  | cons step front ih =>
      rw [List.cons_append, visit?, visit?]
      cases schema.handed? slot step with
      | none => rfl
      | some next =>
          cases schema.child? step with
          | none => rfl
          | some child => exact ih next child

end Schema

end SchemaStream
