import SchemaStream.Proofs.Schema.Augmented
import Mathlib.Data.List.Perm.Basic

/-!
# What augmentation requires

Augmentation requires the fields that it adds beside required properties, and changes nothing
else in what is required.  The added fields are named apart from each other and from the properties
that were there.
-/

namespace SchemaStream

namespace Auxiliary

theorem reasoningField_inj {name other : String} :
    reasoningField name = reasoningField other ↔ name = other :=
  String.append_right_inj reasoningStart

theorem sourceField_inj {name other : String} :
    sourceField name = sourceField other ↔ name = other :=
  String.append_right_inj sourceStart

theorem reasoningField_ne_sourceField (name other : String) :
    reasoningField name ≠ sourceField other := by
  intro same
  have first := congrArg String.toList same
  simp [reasoningField, sourceField, reasoningStart, sourceStart] at first

end Auxiliary

namespace Schema

variable {schema : Schema} {slot : Option String} {name anchor : String}
  {existing names required : List String} {properties : List (String × Schema)}
  {property : String × Schema}

/-- The names of the fields that a property gets beside it. -/
def siblingNames (existing : List String) (property : String × Schema) : List String :=
  Members.keys ((leading? existing property).toList ++ (trailing? existing property).toList)

theorem mem_siblingNames (mem : name ∈ siblingNames existing property) :
    name ∉ existing ∧ (name = Auxiliary.reasoningField property.1 ∨
      name = Auxiliary.sourceField property.1) := by
  obtain ⟨sibling, beside, rfl⟩ := List.mem_map.1 mem
  rcases List.mem_append.1 beside with found | found
  · obtain ⟨named, fresh⟩ := name_of_leading? (Option.mem_toList.1 found)
    exact ⟨fresh, .inl named⟩
  · obtain ⟨named, fresh⟩ := name_of_trailing? (Option.mem_toList.1 found)
    exact ⟨fresh, .inr named⟩

theorem isAuxiliary_of_mem_siblingNames (mem : name ∈ siblingNames existing property) :
    Auxiliary.isAuxiliary name = true := by
  rcases (mem_siblingNames mem).2 with rfl | rfl
  · exact Auxiliary.isAuxiliary_reasoningField property.1
  · exact Auxiliary.isAuxiliary_sourceField property.1

theorem nodup_siblingNames (existing : List String) (property : String × Schema) :
    (siblingNames existing property).Nodup := by
  rw [siblingNames]
  cases first : leading? existing property with
  | none => cases trailing? existing property <;> simp [Members.keys]
  | some reasoning =>
      cases second : trailing? existing property with
      | none => simp [Members.keys]
      | some quote =>
          have apart := Auxiliary.reasoningField_ne_sourceField property.1 property.1
          rw [← (name_of_leading? first).1, ← (name_of_trailing? second).1] at apart
          simpa [Members.keys] using apart

/-- Only one property can have a sibling of some name. -/
theorem eq_of_mem_siblingNames {other : String × Schema}
    (mem : name ∈ siblingNames existing property) (mem' : name ∈ siblingNames names other) :
    property.1 = other.1 := by
  obtain ⟨-, first | first⟩ := mem_siblingNames mem
  · obtain ⟨-, second | second⟩ := mem_siblingNames mem'
    · exact Auxiliary.reasoningField_inj.1 (first.symm.trans second)
    · exact absurd (first.symm.trans second) (Auxiliary.reasoningField_ne_sourceField _ _)
  · obtain ⟨-, second | second⟩ := mem_siblingNames mem'
    · exact absurd (second.symm.trans first) (Auxiliary.reasoningField_ne_sourceField _ _)
    · exact Auxiliary.sourceField_inj.1 (first.symm.trans second)

theorem nodup_flatMap_siblingNames (existing : List String)
    (distinct : (Members.keys properties).Nodup) :
    (properties.flatMap (siblingNames existing)).Nodup := by
  refine List.nodup_flatMap.2 ⟨fun property _ => nodup_siblingNames existing property, ?_⟩
  exact (List.pairwise_map.1 distinct).imp fun {property other} ne name mem mem' =>
    ne (eq_of_mem_siblingNames mem mem')

/-! ## Places in the list -/

theorem infix_insertBefore {first second : String} (apart : second ≠ anchor)
    (beside : [first, second] <:+: names) (name : String) :
    [first, second] <:+: insertBefore anchor name names := by
  induction names with
  | nil => exact absurd (List.eq_nil_of_infix_nil beside) (List.cons_ne_nil _ _)
  | cons head rest ih =>
      rw [insertBefore]
      split
      · exact beside.trans (List.suffix_cons name _).isInfix
      · rcases List.infix_cons_iff.1 beside with start | inside
        · obtain ⟨rfl, more, rfl⟩ := List.cons_prefix_cons.1 start
          rw [List.singleton_append, insertBefore, if_neg apart]
          exact ⟨[], insertBefore anchor name more, rfl⟩
        · exact List.infix_cons (ih inside)

theorem infix_insertAfter {first second : String} (apart : first ≠ anchor)
    (beside : [first, second] <:+: names) (name : String) :
    [first, second] <:+: insertAfter anchor name names := by
  induction names with
  | nil => exact absurd (List.eq_nil_of_infix_nil beside) (List.cons_ne_nil _ _)
  | cons head rest ih =>
      rw [insertAfter]
      rcases List.infix_cons_iff.1 beside with start | inside
      · obtain ⟨rfl, more, rfl⟩ := List.cons_prefix_cons.1 start
        rw [if_neg apart, List.singleton_append, insertAfter]
        split
        · exact ⟨[], name :: more, rfl⟩
        · exact ⟨[], insertAfter anchor name more, rfl⟩
      · split
        · exact List.infix_cons (List.infix_cons inside)
        · exact List.infix_cons (ih inside)

theorem infix_insertBefore_self (mem : anchor ∈ names) (name : String) :
    [name, anchor] <:+: insertBefore anchor name names := by
  induction names with
  | nil => exact absurd mem List.not_mem_nil
  | cons head rest ih =>
      rw [insertBefore]
      split
      · next here => exact ⟨[], rest, by rw [here]; rfl⟩
      · next elsewhere =>
          exact List.infix_cons (ih ((List.mem_cons.1 mem).resolve_left (Ne.symm elsewhere)))

theorem infix_insertAfter_self (mem : anchor ∈ names) (name : String) :
    [anchor, name] <:+: insertAfter anchor name names := by
  induction names with
  | nil => exact absurd mem List.not_mem_nil
  | cons head rest ih =>
      rw [insertAfter]
      split
      · next here => exact ⟨[], rest, by rw [here]; rfl⟩
      · next elsewhere =>
          exact List.infix_cons (ih ((List.mem_cons.1 mem).resolve_left (Ne.symm elsewhere)))

theorem filter_insertBefore {keep : String → Bool} (dropped : keep name = false)
    (names : List String) : (insertBefore anchor name names).filter keep = names.filter keep := by
  induction names with
  | nil => simp [insertBefore, dropped]
  | cons head rest ih =>
      rw [insertBefore]
      split
      · simp [List.filter_cons, dropped]
      · rw [List.filter_cons, ih, List.filter_cons]

theorem filter_insertAfter {keep : String → Bool} (dropped : keep name = false)
    (names : List String) : (insertAfter anchor name names).filter keep = names.filter keep := by
  induction names with
  | nil => simp [insertAfter, dropped]
  | cons head rest ih =>
      rw [insertAfter]
      split
      · simp [List.filter_cons, dropped]
      · rw [List.filter_cons, ih, List.filter_cons]

/-! ## What one property has required with it -/

theorem siblingNames_of_auxiliary (auxiliary : Auxiliary.isAuxiliary property.1 = true) :
    siblingNames existing property = [] := by
  rw [siblingNames, leading?, if_pos auxiliary, trailing?, if_pos auxiliary]
  rfl

theorem requireSiblings_of_auxiliary (auxiliary : Auxiliary.isAuxiliary property.1 = true)
    (existing required : List String) : requireSiblings existing required property = required := by
  rw [requireSiblings_eq, leading?, if_pos auxiliary, trailing?, if_pos auxiliary]
  exact ite_self required

/-- What a property has required with it. -/
def requiredSiblings (existing required : List String) (property : String × Schema) :
    List String :=
  if required.contains property.1 then siblingNames existing property else []

theorem mem_requiredSiblings_iff : name ∈ requiredSiblings existing required property ↔
    property.1 ∈ required ∧ name ∈ siblingNames existing property := by
  rw [requiredSiblings]
  split
  · next own => rw [List.contains_iff_mem] at own; simp [own]
  · next other => rw [List.contains_iff_mem] at other; simp [other]

theorem requireSiblings_perm (existing required : List String) (property : String × Schema) :
    (requireSiblings existing required property).Perm
      (requiredSiblings existing required property ++ required) := by
  have before := insertBefore_perm property.1
  have after := insertAfter_perm property.1
  rw [requireSiblings_eq, requiredSiblings, siblingNames]
  split
  · cases first : leading? existing property with
    | none =>
        cases second : trailing? existing property with
        | none => exact .refl required
        | some quote => exact after quote.1 required
    | some reasoning =>
        cases second : trailing? existing property with
        | none => exact before reasoning.1 required
        | some quote =>
            have placed := (after quote.1 _).trans ((before reasoning.1 required).cons quote.1)
            exact placed.trans (.swap reasoning.1 quote.1 required)
  · exact .refl required

theorem infix_requireSiblings {first second : String}
    (beside : [first, second] <:+: required) (before : second ≠ property.1)
    (after : first ≠ property.1) (existing : List String) :
    [first, second] <:+: requireSiblings existing required property := by
  rw [requireSiblings_eq]
  split
  · cases leading? existing property <;> cases trailing? existing property <;>
      simp only [infix_insertBefore before, infix_insertAfter after, beside]
  · exact beside

theorem filter_requireSiblings {keep : String → Bool}
    (dropped : ∀ name ∈ siblingNames existing property, keep name = false)
    (required : List String) :
    (requireSiblings existing required property).filter keep = required.filter keep := by
  rw [siblingNames] at dropped
  rw [requireSiblings_eq]
  split
  · cases first : leading? existing property <;> cases second : trailing? existing property <;>
      simp_all [Members.keys, filter_insertBefore, filter_insertAfter]
  · rfl

/-- A required field of the object itself stays where it is. -/
theorem requireSiblings_cons (auxiliary : Auxiliary.isAuxiliary name = true)
    (existing required : List String) (property : String × Schema) :
    requireSiblings existing (name :: required) property =
      name :: requireSiblings existing required property := by
  by_cases own : Auxiliary.isAuxiliary property.1 = true
  · rw [requireSiblings_of_auxiliary own, requireSiblings_of_auxiliary own]
  · have apart : name ≠ property.1 := by
      rintro rfl
      exact own auxiliary
    rw [requireSiblings_eq, requireSiblings_eq]
    cases leading? existing property <;> cases trailing? existing property <;>
      simp [insertBefore, insertAfter, apart, Ne.symm apart] <;> split <;> rfl

/-! ## What all properties have required with them -/

theorem foldl_requireSiblings_cons (auxiliary : Auxiliary.isAuxiliary name = true)
    (existing required : List String) (properties : List (String × Schema)) :
    properties.foldl (requireSiblings existing) (name :: required) =
      name :: properties.foldl (requireSiblings existing) required := by
  induction properties generalizing required with
  | nil => rfl
  | cons property rest ih =>
      rw [List.foldl_cons, requireSiblings_cons auxiliary, ih, List.foldl_cons]

/-- Whether a property is required does not depend on what was added before. -/
theorem requiredSiblings_requireSiblings (existing required : List String)
    (first property : String × Schema) :
    requiredSiblings existing (requireSiblings existing required first) property =
      requiredSiblings existing required property := by
  by_cases auxiliary : Auxiliary.isAuxiliary property.1 = true
  · simp only [requiredSiblings, siblingNames_of_auxiliary auxiliary, ite_self]
  · have same : property.1 ∈ requireSiblings existing required first ↔ property.1 ∈ required :=
      mem_requireSiblings_iff (Bool.not_eq_true _ ▸ auxiliary)
    simp only [requiredSiblings, List.contains_iff_mem, same]

theorem foldl_requireSiblings_perm (existing required : List String)
    (properties : List (String × Schema)) :
    (properties.foldl (requireSiblings existing) required).Perm
      (properties.flatMap (requiredSiblings existing required) ++ required) := by
  induction properties generalizing required with
  | nil => exact .refl required
  | cons property rest ih =>
      have others : rest.flatMap (requiredSiblings existing
          (requireSiblings existing required property)) =
            rest.flatMap (requiredSiblings existing required) :=
        List.flatMap_congr fun other _ => requiredSiblings_requireSiblings existing required _ _
      have first := (requireSiblings_perm existing required property).append_left
        (rest.flatMap (requiredSiblings existing required))
      have order : (rest.flatMap (requiredSiblings existing required) ++
          requiredSiblings existing required property).Perm
            (requiredSiblings existing required property ++
              rest.flatMap (requiredSiblings existing required)) := List.perm_append_comm
      rw [← List.append_assoc] at first
      rw [List.foldl_cons, List.flatMap_cons]
      exact (others ▸ ih _).trans (first.trans (order.append_right required))

theorem mem_foldl_requireSiblings_iff_or :
    name ∈ properties.foldl (requireSiblings existing) required ↔ name ∈ required ∨
      ∃ property ∈ properties, property.1 ∈ required ∧ name ∈ siblingNames existing property := by
  rw [(foldl_requireSiblings_perm existing required properties).mem_iff, List.mem_append, or_comm]
  simp only [List.mem_flatMap, mem_requiredSiblings_iff]

theorem infix_foldl_requireSiblings {first second : String}
    (beside : [first, second] <:+: required)
    (apart : ∀ property ∈ properties, second ≠ property.1 ∧ first ≠ property.1)
    (existing : List String) :
    [first, second] <:+: properties.foldl (requireSiblings existing) required := by
  induction properties generalizing required with
  | nil => exact beside
  | cons property rest ih =>
      obtain ⟨own, others⟩ := List.forall_mem_cons.1 apart
      exact ih (infix_requireSiblings beside own.1 own.2 existing) others

/-- What requiring one property puts side by side stays so when others are required. -/
theorem infix_foldl_requireSiblings_of_mem {first second : String}
    (distinct : (Members.keys properties).Nodup) (mem : property ∈ properties)
    (plain : Auxiliary.isAuxiliary property.1 = false) (requires : property.1 ∈ required)
    (step : ∀ required, property.1 ∈ required →
      [first, second] <:+: requireSiblings existing required property)
    (apart : ∀ other ∈ properties, other.1 ≠ property.1 → second ≠ other.1 ∧ first ≠ other.1) :
    [first, second] <:+: properties.foldl (requireSiblings existing) required := by
  obtain ⟨front, back, rfl⟩ := List.append_of_mem mem
  rw [List.foldl_append, List.foldl_cons]
  refine infix_foldl_requireSiblings
    (step _ ((mem_foldl_requireSiblings_iff plain).2 requires)) (fun other behind => ?_) existing
  have ne : other.1 ≠ property.1 := by
    rw [Members.keys, List.map_append, List.map_cons, List.nodup_append, List.nodup_cons]
      at distinct
    exact fun same => distinct.2.1.1 (same ▸ List.mem_map_of_mem behind)
  exact apart other (List.mem_append_right _ (List.mem_cons_of_mem _ behind)) ne

theorem infix_requireSiblings_leading {sibling : String × Schema}
    (found : leading? existing property = some sibling) (requires : property.1 ∈ required) :
    [sibling.1, property.1] <:+: requireSiblings existing required property := by
  have apart : sibling.1 ≠ property.1 := by
    intro same
    have auxiliary := (added_of_leading? found).auxiliary
    rw [leading?, if_pos (same ▸ auxiliary)] at found
    cases found
  have beside := infix_insertBefore_self requires sibling.1
  rw [requireSiblings_eq, if_pos (List.contains_iff_mem.2 requires), found]
  cases trailing? existing property with
  | none => exact beside
  | some quote => exact infix_insertAfter apart beside quote.1

theorem infix_requireSiblings_trailing {sibling : String × Schema}
    (found : trailing? existing property = some sibling) (requires : property.1 ∈ required) :
    [property.1, sibling.1] <:+: requireSiblings existing required property := by
  rw [requireSiblings_eq, if_pos (List.contains_iff_mem.2 requires), found]
  cases leading? existing property with
  | none => exact infix_insertAfter_self requires sibling.1
  | some reasoning =>
      exact infix_insertAfter_self (mem_insertBefore_iff.2 (.inr requires)) sibling.1

theorem filter_foldl_requireSiblings {keep : String → Bool}
    (dropped : ∀ property ∈ properties, ∀ name ∈ siblingNames existing property,
      keep name = false) (required : List String) :
    (properties.foldl (requireSiblings existing) required).filter keep = required.filter keep := by
  induction properties generalizing required with
  | nil => rfl
  | cons property rest ih =>
      obtain ⟨own, others⟩ := List.forall_mem_cons.1 dropped
      rw [List.foldl_cons, ih others, filter_requireSiblings own]

end Schema

end SchemaStream
