import SchemaStream.Proofs.Typing.Acceptance
import SchemaStream.Proofs.Typing.PartialTypes

/-!
# Pruned values

A value is pruned where its type is a record, by leaving members out or null, and where it is a
list, by cutting it short or putting null for items.  The partial form of a type only forgives
what is absent: under whatever key it reports something of a pruned value, the type itself
reports something of the value before.  And it forgives nothing else: what a type reports of a
value, its partial form reports too, unless it is missing or null.
-/

namespace SchemaStream

namespace FieldType

mutual

inductive Prunes : FieldType → Json → Json → Prop
  | whole (type : FieldType) (value : Json) : Prunes type value value
  | nullable {inner : FieldType} {value pruned : Json} (inside : Prunes inner value pruned) :
      Prunes (.nullable inner) value pruned
  | record {name : String} {fields : List (Field FieldType)} {members left : Members Json}
      (inside : PrunesMembers fields members left) :
      Prunes (.record name fields) (.object members) (.object left)
  | list {element : FieldType} {items left : List Json} (inside : PrunesItems element items left) :
      Prunes (.list element) (.array items) (.array left)

/-- A member that is left out is gone by its name.  One that is kept is pruned itself, and one
that no field names may come to anything. -/
inductive PrunesMembers : List (Field FieldType) → Members Json → Members Json → Prop
  | nil (fields : List (Field FieldType)) : PrunesMembers fields [] []
  | leftOut {fields : List (Field FieldType)} {name : String} {value : Json}
      {members left : Members Json} (gone : name ∉ Members.keys left)
      (rest : PrunesMembers fields members left) :
      PrunesMembers fields ((name, value) :: members) left
  | nulled {fields : List (Field FieldType)} {name : String} {value : Json}
      {members left : Members Json} (rest : PrunesMembers fields members left) :
      PrunesMembers fields ((name, value) :: members) ((name, .null) :: left)
  | kept {fields : List (Field FieldType)} {name : String} {value pruned : Json}
      {members left : Members Json}
      (own : ∀ field ∈ fields, field.name = name → Prunes field.type value pruned)
      (rest : PrunesMembers fields members left) :
      PrunesMembers fields ((name, value) :: members) ((name, pruned) :: left)

inductive PrunesItems : FieldType → List Json → List Json → Prop
  | cut (element : FieldType) (items : List Json) : PrunesItems element items []
  | nulled {element : FieldType} {item : Json} {items left : List Json}
      (rest : PrunesItems element items left) :
      PrunesItems element (item :: items) (.null :: left)
  | kept {element : FieldType} {item pruned : Json} {items left : List Json}
      (own : Prunes element item pruned) (rest : PrunesItems element items left) :
      PrunesItems element (item :: items) (pruned :: left)

end

variable {type inner element : FieldType} {fields : List (Field FieldType)}
  {key name path : String} {value pruned : Json} {members left : Members Json}
  {items remaining : List Json}

/-! ## What is left of a value -/

theorem PrunesMembers.refl (fields : List (Field FieldType)) (members : Members Json) :
    PrunesMembers fields members members := by
  induction members with
  | nil => exact .nil fields
  | cons member rest ih => exact .kept (fun field _ _ => .whole field.type member.2) ih

theorem PrunesItems.refl (element : FieldType) (items : List Json) :
    PrunesItems element items items := by
  induction items with
  | nil => exact .cut element []
  | cons item rest ih => exact .kept (.whole element item) ih

theorem PrunesMembers.exists_of_get? (prunes : PrunesMembers fields members left)
    (found : Members.get? left name = some pruned) :
    ∃ value, Members.get? members name = some value ∧
      (pruned = .null ∨ ∀ field ∈ fields, field.name = name → Prunes field.type value pruned) := by
  induction members generalizing left with
  | nil =>
      cases prunes
      cases found
  | cons member rest ih =>
      cases prunes with
      | leftOut gone tail =>
          obtain ⟨value, own, h⟩ := ih tail found
          refine ⟨value, ?_, h⟩
          rw [Members.get?, if_neg, own]
          rintro rfl
          exact gone (Members.mem_keys_iff_exists_get?.2 ⟨pruned, found⟩)
      | nulled tail =>
          rw [Members.get?] at found ⊢
          split at found
          · next same =>
              rw [if_pos same]
              exact ⟨_, rfl, .inl (Option.some.inj found).symm⟩
          · next other =>
              rw [if_neg other]
              exact ih tail found
      | kept own tail =>
          rw [Members.get?] at found ⊢
          split at found
          · next same =>
              rw [if_pos same]
              cases found
              exact ⟨_, rfl, .inr fun field mem named => own field mem (named.trans same.symm)⟩
          · next other =>
              rw [if_neg other]
              exact ih tail found

theorem PrunesItems.exists_of_getElem? {index : Nat} (prunes : PrunesItems element items remaining)
    (found : remaining[index]? = some pruned) :
    ∃ item, items[index]? = some item ∧ (pruned = .null ∨ Prunes element item pruned) := by
  induction items generalizing remaining index with
  | nil =>
      cases prunes
      simp at found
  | cons item rest ih =>
      cases prunes with
      | cut => simp at found
      | nulled tail =>
          cases index with
          | zero => exact ⟨item, rfl, .inl (by simpa using found.symm)⟩
          | succ index => simpa using ih tail (by simpa using found)
      | kept own tail =>
          cases index with
          | zero =>
              obtain rfl : _ = pruned := by simpa using found
              exact ⟨item, rfl, .inr own⟩
          | succ index => simpa using ih tail (by simpa using found)

/-- Where there is nothing to leave out, nothing is left out. -/
theorem Prunes.eq_null (prunes : type.Prunes .null pruned) : pruned = .null := by
  induction type generalizing pruned with
  | nullable inner ih =>
      cases prunes with
      | whole => rfl
      | nullable inside => exact ih inside
  | _ =>
      cases prunes
      rfl

theorem Prunes.exists_members (prunes : Prunes (.record name fields) value (.object left)) :
    ∃ members, value = .object members ∧ PrunesMembers fields members left := by
  cases prunes with
  | whole => exact ⟨left, rfl, .refl fields left⟩
  | record inside => exact ⟨_, rfl, inside⟩

theorem Prunes.exists_items (prunes : Prunes (.list element) value (.array remaining)) :
    ∃ items, value = .array items ∧ PrunesItems element items remaining := by
  cases prunes with
  | whole => exact ⟨remaining, rfl, .refl element remaining⟩
  | list inside => exact ⟨_, rfl, inside⟩

/-! ## The keys under which something is reported -/

def Reports (type : FieldType) (key : String) (value : Json) (path : String) : Prop :=
  ∃ issue ∈ type.issues key value, issue.key = path

theorem not_reports_null_of_isNullable (nullable : type.isNullable = true) :
    ¬ type.Reports key .null path := by
  rw [Reports, issues_null_of_isNullable nullable]
  rintro ⟨issue, mem, -⟩
  cases mem

theorem reports_nullable_iff :
    (nullable inner).Reports key value path ↔ value ≠ .null ∧ inner.Reports key value path := by
  cases value <;> simp [Reports, issues]

theorem reports_orNull_iff :
    type.orNull.Reports key value path ↔ value ≠ .null ∧ type.Reports key value path := by
  unfold orNull
  split
  · next nullable =>
      refine (and_iff_right_of_imp ?_).symm
      rintro reports rfl
      exact not_reports_null_of_isNullable nullable reports
  · exact reports_nullable_iff

/-- Something is reported of a field that is missing, or of its value. -/
def ReportsAt (field : Field FieldType) (key : String) (found : Option Json) (path : String) :
    Prop :=
  match found with
  | none => field.optional = false ∧ FlatKey.join key field.name = path
  | some value => ¬ (field.optional = true ∧ value = .null) ∧
      field.type.Reports (FlatKey.join key field.name) value path

theorem reports_object_iff :
    (record name fields).Reports key (.object members) path ↔
      ∃ field ∈ fields, ReportsAt field key (Members.get? members field.name) path := by
  have each (field : Field FieldType) : (∃ issue ∈ issuesAt field key members, issue.key = path) ↔
      ReportsAt field key (Members.get? members field.name) path := by
    obtain ⟨name, type, optional, description⟩ := field
    rw [issuesAt]
    cases Members.get? members name with
    | none => cases optional <;> simp [ReportsAt]
    | some value => cases value <;> cases optional <;> simp [ReportsAt, Reports]
  simp only [Reports, issues, fieldIssues_eq_flatMap, List.mem_flatMap, ← each]
  constructor
  · rintro ⟨issue, ⟨field, mem, own⟩, rfl⟩
    exact ⟨field, mem, issue, own, rfl⟩
  · rintro ⟨field, mem, issue, own, rfl⟩
    exact ⟨issue, ⟨field, mem, own⟩, rfl⟩

theorem reports_array_iff :
    (list element).Reports key (.array items) path ↔
      ∃ index item, items[index]? = some item ∧
        element.Reports (FlatKey.join key (FlatKey.ofIndex index)) item path := by
  simp only [Reports, issues, List.mem_flatMap]
  constructor
  · rintro ⟨issue, ⟨⟨item, index⟩, mem, own⟩, rfl⟩
    exact ⟨index, item, by simpa [List.mem_zipIdx_iff_getElem?] using mem, issue, own, rfl⟩
  · rintro ⟨index, item, found, issue, own, rfl⟩
    exact ⟨issue, ⟨(item, index), by simpa [List.mem_zipIdx_iff_getElem?] using found, own⟩, rfl⟩

/-! ## What is forgiven -/

theorem reports_of_partial_record
    (inside : ∀ field ∈ fields, ∀ {key value pruned}, field.type.Prunes value pruned →
      field.type.toPartial.Reports key pruned path → field.type.Reports key value path)
    (prunes : (record name fields).Prunes value pruned)
    (reports : (record name fields).toPartial.Reports key pruned path) :
    (record name fields).Reports key value path := by
  rw [toPartial] at reports
  cases pruned with
  | object left =>
      obtain ⟨members, rfl, kept⟩ := prunes.exists_members
      obtain ⟨field, mem, reports⟩ := reports_object_iff.1 reports
      obtain ⟨own, below, rfl⟩ := mem_partialFields_iff.1 mem
      cases found : Members.get? left own.name with
      | none => simp [ReportsAt, found] at reports
      | some pruned =>
          simp only [ReportsAt, found, reports_orNull_iff] at reports
          obtain ⟨-, there, reports⟩ := reports
          -- What is reported is not null, so the member was kept and was not null before.
          obtain ⟨value, before, h⟩ := kept.exists_of_get? found
          have whole := h.resolve_left there own below rfl
          have some : value ≠ .null := by
            rintro rfl
            exact there whole.eq_null
          refine reports_object_iff.2 ⟨own, below, ?_⟩
          rw [before]
          exact ⟨fun optional => some optional.2, inside own below whole reports⟩
  | _ =>
      cases prunes
      simpa [Reports, issues] using reports

theorem reports_of_partial_list
    (inside : ∀ {key value pruned}, element.Prunes value pruned →
      element.toPartial.Reports key pruned path → element.Reports key value path)
    (prunes : (list element).Prunes value pruned)
    (reports : (list element).toPartial.Reports key pruned path) :
    (list element).Reports key value path := by
  rw [toPartial] at reports
  cases pruned with
  | array remaining =>
      obtain ⟨items, rfl, kept⟩ := prunes.exists_items
      obtain ⟨index, item', found, reports⟩ := reports_array_iff.1 reports
      rw [reports_orNull_iff] at reports
      obtain ⟨item, before, h⟩ := kept.exists_of_getElem? found
      exact reports_array_iff.2
        ⟨index, item, before, inside (h.resolve_left reports.1) reports.2⟩
  | _ =>
      cases prunes
      simpa [Reports, issues] using reports

/-- What the partial form of a type reports of a pruned value is reported of the value. -/
theorem reports_of_toPartial (prunes : type.Prunes value pruned)
    (reports : type.toPartial.Reports key pruned path) : type.Reports key value path := by
  induction type generalizing key value pruned with
  | scalar kind =>
      cases prunes
      exact reports
  | literal values =>
      cases prunes
      exact reports
  | union =>
      cases prunes
      exact reports
  | record name fields ih =>
      exact reports_of_partial_record (fun field mem => ih field mem) prunes reports
  | list element ih => exact reports_of_partial_list ih prunes reports
  | nullable inner ih =>
      rw [toPartial, reports_orNull_iff] at reports
      have inside : inner.Prunes value pruned := by
        cases prunes with
        | whole => exact .whole inner value
        | nullable inside => exact inside
      refine reports_nullable_iff.2 ⟨?_, ih inside reports.2⟩
      rintro rfl
      exact reports.1 inside.eq_null

end FieldType

/-! ## What is not forgiven -/

/-- Whether what does not fit is missing, or null. -/
def Mismatch.isAbsence : Mismatch → Bool
  | .missing => true
  | .notObject _ found | .notScalar _ found | .notList found => found = .null
  | .notMember _ found => found.kind = .null

/-- What the partial form of a type reports in its place. -/
def Mismatch.inPart : Mismatch → Mismatch
  | .notObject record found => .notObject (FieldType.partialName record) found
  | mismatch => mismatch

def Issue.inPart (issue : Issue) : Issue := { issue with mismatch := issue.mismatch.inPart }

/-- What the partial form of a type does not forgive of what the type reports. -/
def unforgiven (issues : List Issue) : List Issue :=
  (issues.filter fun issue => !issue.mismatch.isAbsence).map Issue.inPart

theorem unforgiven_flatMap {α : Type} (list : List α) (issues : α → List Issue) :
    unforgiven (list.flatMap issues) = list.flatMap fun value => unforgiven (issues value) := by
  rw [unforgiven, List.filter_flatMap, List.map_flatMap]
  rfl

namespace FieldType

variable {type : FieldType} {key : String} {value : Json}

theorem unforgiven_null (type : FieldType) (key : String) :
    unforgiven (type.issues key .null) = [] := by
  cases type with
  | scalar kind => cases kind <;> rfl
  | literal values =>
      rw [issues]
      split <;> rfl
  | record name fields => rfl
  | list element => rfl
  | nullable inner => rfl
  | union => rfl

/-- Besides null, of which nothing is reported, a type and the same with null report alike. -/
theorem issues_orNull_eq {others : List Issue} (null : value = .null → others = [])
    (own : value ≠ .null → type.issues key value = others) :
    type.orNull.issues key value = others := by
  by_cases absent : value = .null
  · rw [null absent]
    exact issues_orNull fun ne => absurd absent ne
  · rw [← own absent, orNull]
    split
    · rfl
    · cases value with
      | null => exact absurd rfl absent
      | _ => rfl

theorem issuesAt_partial {field : Field FieldType} {members : Members Json}
    (own : ∀ key value, value ≠ .null →
      field.type.toPartial.issues key value = unforgiven (field.type.issues key value)) :
    issuesAt ⟨field.name, field.type.toPartial.orNull, true, field.description⟩ key members =
      unforgiven (issuesAt field key members) := by
  obtain ⟨name, type, optional, description⟩ := field
  have passes (key : String) (value : Json) :
      type.toPartial.orNull.issues key value = unforgiven (type.issues key value) :=
    issues_orNull_eq (fun null => null ▸ unforgiven_null type key) (own key value)
  rw [issuesAt, issuesAt]
  cases Members.get? members name with
  | none => cases optional <;> rfl
  | some value =>
      cases value with
      | null =>
          cases optional with
          | true => rfl
          | false => exact (unforgiven_null type _).symm
      | _ => exact passes _ _

/-- Of a value that is there, the partial form of a type reports what the type does, but for what
is missing or null. -/
theorem issues_toPartial (type : FieldType) (key : String) (present : value ≠ .null) :
    type.toPartial.issues key value = unforgiven (type.issues key value) := by
  have kind {value : Json} (present : value ≠ .null) : value.kind ≠ .null := by
    cases value <;> first | exact absurd rfl present | nofun
  induction type generalizing key value with
  | scalar expected =>
      change issues (scalar expected) key value = _
      rw [issues]
      split
      · rfl
      · simp [unforgiven, Mismatch.isAbsence, Issue.inPart, Mismatch.inPart, kind present]
  | literal values =>
      change issues (literal values) key value = _
      rw [issues]
      split
      · rfl
      · simp [unforgiven, Mismatch.isAbsence, Issue.inPart, Mismatch.inPart, kind present]
  | record name fields ih =>
      rw [toPartial]
      cases value with
      | object members =>
          rw [issues, issues, fieldIssues_eq_flatMap, fieldIssues_eq_flatMap, unforgiven_flatMap,
            partialFields_eq_map, List.flatMap_map]
          exact List.flatMap_congr fun field mem =>
            issuesAt_partial fun key value present => ih field mem key present
      | null => exact absurd rfl present
      | _ => rfl
  | list element ih =>
      rw [toPartial]
      cases value with
      | array items =>
          rw [issues, issues, unforgiven_flatMap]
          refine List.flatMap_congr fun item mem => ?_
          obtain ⟨item, index⟩ := item
          exact issues_orNull_eq (fun null => null ▸ unforgiven_null element _) (ih _)
      | null => exact absurd rfl present
      | _ => rfl
  | nullable inner ih =>
      rw [toPartial, issues_orNull_eq (fun null => absurd null present) (ih key)]
      cases value with
      | null => exact absurd rfl present
      | _ => rfl
  | union => rfl

end FieldType

namespace RecordType

variable {record : RecordType} {value pruned : Json}

/-- The partial form of a type reports of a value just what the type does, but for what is missing
or null. -/
theorem issues_toPartial (record : RecordType) (present : value ≠ .null) :
    record.toPartial.issues value = unforgiven (record.issues value) :=
  FieldType.issues_toPartial (.record record.name record.fields) "" present

def Prunes (record : RecordType) (value pruned : Json) : Prop :=
  FieldType.Prunes (.record record.name record.fields) value pruned

/-- The keys under which a value is reported not to fit. -/
def reported (record : RecordType) (value : Json) : List String :=
  match record.validate value with
  | .ok () => []
  | .error error => error.issues.map Issue.key

theorem reported_eq (record : RecordType) (value : Json) :
    record.reported value = (record.issues value).map Issue.key := by
  rw [reported, validate]
  cases accepted : record.accepts value with
  | true =>
      rw [accepts, List.isEmpty_iff] at accepted
      simp [accepted]
  | false => simp

theorem reported_eq_nil_iff : record.reported value = [] ↔ record.validate value = .ok () := by
  rw [reported_eq, List.map_eq_nil_iff, validate_eq_ok_iff]
  rfl

theorem reported_toPartial_subset (prunes : record.Prunes value pruned) :
    record.toPartial.reported pruned ⊆ record.reported value := by
  intro path mem
  rw [reported_eq, List.mem_map] at mem ⊢
  exact FieldType.reports_of_toPartial prunes mem

/-- The partial form of a type reports something of a pruned value only where the type reports
something of the value, and so accepts all that is left of an accepted value. -/
theorem partial_type_only_forgives_absence (prunes : record.Prunes value pruned) :
    record.toPartial.reported pruned ⊆ record.reported value ∧
      (record.validate value = .ok () →
        record.toPartial.validate value = .ok () ∧ record.toPartial.validate pruned = .ok ()) := by
  refine ⟨reported_toPartial_subset prunes, fun accepted => ?_⟩
  have accepts {left : Json} (prunes : record.Prunes value left) :
      record.toPartial.validate left = .ok () := by
    have fewer := reported_toPartial_subset prunes
    rw [reported_eq_nil_iff.2 accepted] at fewer
    exact reported_eq_nil_iff.1 (List.subset_nil.1 fewer)
  exact ⟨accepts (.whole _ value), accepts prunes⟩

/-- Orders of a vendor, by lines. -/
def orders : Document where
  root := .apart
    { types := [.object]
      properties :=
        [("vendor",
            { types := [.object]
              properties :=
                [("name", .ofType .string),
                  ("vat", { types := [.string, .null], typesListed := true })]
              required := ["name", "vat"] }),
          ("lines",
            { types := [.array]
              items := some
                { types := [.object]
                  properties := [("amount", .ofType .number)]
                  required := ["amount"] } }),
          ("paid", .ofType .boolean)]
      required := ["vendor", "lines", "paid"] }

def orderType : RecordType where
  name := "Order"
  fields :=
    [⟨"vendor", .record "Vendor"
        [⟨"name", .scalar .string, false, none⟩,
          ⟨"vat", .nullable (.scalar .string), false, none⟩], false, none⟩,
      ⟨"lines", .list (.record "LinesItem" [⟨"amount", .scalar .number, false, none⟩]), false,
        none⟩,
      ⟨"paid", .scalar .boolean, false, none⟩]

def order : Json :=
  .object
    [("vendor", .object [("name", .string "ACME"), ("vat", .string "NO123")]),
      ("lines", .array [.object [("amount", .nat 1)], .object [("amount", .nat 2)]]),
      ("paid", .bool true)]

def prunedOrder : Json :=
  .object [("vendor", .object [("vat", .null)]), ("lines", .array [.null])]

theorem prunes_order : orderType.Prunes order prunedOrder := by
  refine .record (.kept ?vendor (.kept ?lines (.leftOut (by decide) (.nil _))))
  case vendor =>
    simp only [orderType, List.forall_mem_cons]
    refine ⟨fun _ => .record (.leftOut (by decide) (.nulled (.nil _))), ?_⟩
    simp
  case lines =>
    simp only [orderType, List.forall_mem_cons]
    refine ⟨nofun, fun _ => .list (.nulled (.cut _ _)), ?_⟩
    simp

/-- What is left of an order is no order, but part of one. -/
theorem pruned_order_is_forgiven :
    orders.recordType "Order" = .ok orderType ∧ orderType.Prunes order prunedOrder ∧
      orderType.validate order = .ok () ∧
      orderType.reported prunedOrder = ["vendor.name", "lines.0", "paid"] ∧
      orderType.toPartial.validate prunedOrder = .ok () := by
  have typed : orders.recordType "Order" = .ok orderType := by decide +kernel
  have accepted : orderType.validate order = .ok () := by decide
  exact ⟨typed, prunes_order, accepted, by decide,
    ((partial_type_only_forgives_absence prunes_order).2 accepted).2⟩

end RecordType

end SchemaStream
