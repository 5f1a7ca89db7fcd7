import SchemaStream.Proofs.Schema.Grammar

/-!
# The normal form of a written schema

In the normal form of a written schema its members are grouped by their keywords.  Lists, tables and
unions without entries are left out, a name is required once, and `true` is an object without
members.  A schema that is read is written in this form.
-/

namespace SchemaStream

namespace Json

open Schema (listMembers tableMembers)

/-! ## Members by their keywords -/

/-- The order in which keywords are written. -/
def keywordOrder : List Keyword :=
  [.reference, .type, .description, .properties, .required, .items, .anyOf, .oneOf, .allOf,
    .enumeration, .other, .extensions]

def underKeyword (keyword : Keyword) (members : Members Json) : Members Json :=
  members.filter fun member => Keyword.ofName member.1 = keyword

/-- Members grouped by their keywords, those of one keyword in the order that they have. -/
def grouped (members : Members Json) : Members Json :=
  keywordOrder.flatMap fun keyword => underKeyword keyword members

/-- Grouping changes no more than the order. -/
theorem grouped_perm (members : Members Json) : (grouped members).Perm members := by
  refine List.perm_iff_count.2 fun member => ?_
  rw [grouped, List.count_flatMap]
  have counts : (List.count member ∘ fun keyword => underKeyword keyword members) = fun keyword =>
      if Keyword.ofName member.1 = keyword then List.count member members else 0 := by
    funext keyword
    rw [Function.comp_apply, underKeyword]
    split
    · next own => exact List.count_filter (by simpa using own)
    · next other =>
        refine List.count_eq_zero.2 fun mem => other ?_
        simpa using (List.mem_filter.1 mem).2
  rw [counts]
  cases Keyword.ofName member.1 <;> simp [keywordOrder]

/-! ## The normal form -/

/-- The list of a value, every entry where it comes first. -/
def firstEntries : Json → List Json
  | .array entries => entries.eraseDups
  | _ => []

mutual

/-- A written schema in its normal form. -/
def normal : Json → Json
  | .object members => .object (grouped (normalMembers members))
  | .bool true => .object []
  | value => value

def normalMembers : List (String × Json) → List (String × Json)
  | [] => []
  | (name, value) :: rest =>
      (match Keyword.ofName name with
        | .type => if value = .array [] then [] else [(name, value)]
        | .properties => tableMembers name (normalTable value)
        | .required => listMembers name value.firstEntries
        | .items => [(name, normal value)]
        | .anyOf | .oneOf | .allOf => listMembers name (normalList value)
        | _ => [(name, value)]) ++ normalMembers rest

/-- The entries of a table of schemas in their normal forms. -/
def normalTable : Json → List (String × Json)
  | .object entries => normalEntries entries
  | _ => []

def normalEntries : List (String × Json) → List (String × Json)
  | [] => []
  | (name, value) :: rest => (name, normal value) :: normalEntries rest

def normalList : Json → List Json
  | .array items => normalItems items
  | _ => []

def normalItems : List Json → List Json
  | [] => []
  | value :: rest => normal value :: normalItems rest

end

theorem normalEntries_eq_mapValues (entries : Members Json) :
    normalEntries entries = Members.mapValues normal entries := by
  induction entries with
  | nil => rfl
  | cons entry rest ih =>
      obtain ⟨name, value⟩ := entry
      rw [normalEntries, ih]
      rfl

theorem normalItems_eq_map (items : List Json) : normalItems items = items.map normal := by
  induction items with
  | nil => rfl
  | cons item rest ih => rw [normalItems, ih, List.map_cons]

/-- What the normal form has for a member: the member or nothing. -/
def normalMember (name : String) (value : Json) : Members Json :=
  match Keyword.ofName name with
  | .type => if value = .array [] then [] else [(name, value)]
  | .properties => tableMembers name (normalTable value)
  | .required => listMembers name value.firstEntries
  | .items => [(name, normal value)]
  | .anyOf | .oneOf | .allOf => listMembers name (normalList value)
  | _ => [(name, value)]

theorem normalMembers_cons (name : String) (value : Json) (rest : Members Json) :
    normalMembers ((name, value) :: rest) = normalMember name value ++ normalMembers rest := by
  rw [normalMembers, normalMember]

theorem keys_normalMember_sublist (name : String) (value : Json) :
    (Members.keys (normalMember name value)).Sublist [name] := by
  rw [normalMember]
  cases Keyword.ofName name with
  | type =>
      dsimp only
      split
      · exact List.nil_sublist _
      · exact .refl _
  | properties =>
      dsimp only
      rw [tableMembers]
      split
      · exact List.nil_sublist _
      · exact .refl _
  | required | anyOf | oneOf | allOf => exact Schema.keys_listMembers_sublist name _
  | _ => exact .refl _

theorem underKeyword_normalMember (name : String) (value : Json) (keyword : Keyword) :
    underKeyword keyword (normalMember name value) =
      if Keyword.ofName name = keyword then normalMember name value else [] := by
  have named (member : String × Json) (mem : member ∈ normalMember name value) :
      member.1 = name :=
    List.mem_singleton.1 ((keys_normalMember_sublist name value).subset (List.mem_map_of_mem mem))
  rw [underKeyword]
  split
  · next same => exact List.filter_eq_self.2 fun member mem => by simp [named member mem, same]
  · next other => exact List.filter_eq_nil_iff.2 fun member mem => by simp [named member mem, other]

end Json

namespace Schema

open Json (normal normalMember normalMembers normalTable normalList normalEntries_eq_mapValues
  normalItems_eq_map underKeyword firstEntries subschemasAt)

variable {schema result : Schema} {name : String} {value : Json} {members : Members Json}

/-! ## What is written for a keyword -/

/-- The members that are written for one keyword of a node. -/
def group (schema : Schema) : Keyword → Members Json
  | .reference => textMembers "$ref" schema.reference
  | .type => typesMembers schema.types schema.typesListed
  | .description => textMembers "description" schema.description
  | .properties => tableMembers "properties" (Members.mapValues toJson schema.properties)
  | .required => requiredMembers schema.required
  | .items => itemsMembers schema.items
  | .anyOf => listMembers "anyOf" (schema.anyOf.map toJson)
  | .oneOf => listMembers "oneOf" (schema.oneOf.map toJson)
  | .allOf => listMembers "allOf" (schema.allOf.map toJson)
  | .enumeration => enumerationMembers schema.enumeration
  | .other => schema.keywords
  | .extensions => schema.extensions

theorem toJson_eq_flatMap_group (schema : Schema) :
    schema.toJson = .object (Json.keywordOrder.flatMap schema.group) := by
  rw [toJson_eq, written]
  simp only [Json.keywordOrder, List.flatMap_cons, List.flatMap_nil, group, List.append_assoc,
    List.append_nil]

theorem keys_group_sublist {keyword : Keyword} (spelled : keyword.spelling? = some name) :
    (Members.keys (schema.group keyword)).Sublist [name] := by
  cases keyword with
  | reference | description =>
      cases spelled
      exact keys_textMembers_sublist _ _
  | type =>
      cases spelled
      exact keys_typesMembers_sublist _ _
  | anyOf | oneOf | allOf =>
      cases spelled
      exact keys_listMembers_sublist _ _
  | properties =>
      cases spelled
      rw [group, tableMembers]
      split <;> simp [Members.keys]
  | required =>
      cases spelled
      rw [group, requiredMembers]
      split <;> simp [Members.keys]
  | items =>
      cases spelled
      rw [group]
      cases schema.items <;> simp [itemsMembers, Members.keys]
  | enumeration =>
      cases spelled
      rw [group]
      cases schema.enumeration <;> simp [enumerationMembers, Members.keys]
  | extensions | other => cases spelled

/-- Where a keyword has one name only, and nothing is written under it, nothing is written for the
keyword. -/
theorem group_eq_nil {keyword : Keyword} (spelled : keyword.spelling? = some name)
    (fresh : name ∉ Members.keys (schema.group keyword)) : schema.group keyword = [] := by
  refine List.eq_nil_iff_forall_not_mem.2 fun member mem => fresh ?_
  have key : member.1 ∈ Members.keys (schema.group keyword) := List.mem_map_of_mem mem
  exact List.mem_singleton.1 ((keys_group_sublist spelled).subset key) ▸ key

/-! ## What is read for a keyword -/

theorem typesMembers_of_readTypes {types : List JsonType} {listed : Bool}
    (read : readTypes value = .ok (types, listed)) :
    typesMembers types listed = if value = .array [] then [] else [("type", value)] := by
  cases value with
  | string name =>
      obtain ⟨type, found, same⟩ := Outcome.bind_eq_ok_iff.1 read
      cases same
      rw [readType_eq_ok_iff.1 found]
      rfl
  | array entries =>
      obtain ⟨types, found, same⟩ := Outcome.bind_eq_ok_iff.1 read
      cases same
      rw [mapM_readTypeEntry_eq_ok_iff.1 found]
      match types with
      | [] | [_] | _ :: _ :: _ => rfl
  | _ => cases read

/-- A name that is listed before is not listed again. -/
theorem strings_of_readRequired {listed required : List String} {names : List Json}
    (read : readRequired listed names = .ok required) :
    required.map Json.string =
      listed.map Json.string ++ (names.removeAll (listed.map Json.string)).eraseDups := by
  induction names generalizing listed with
  | nil =>
      rw [readRequired, Except.ok.injEq] at read
      simp [read, List.removeAll]
  | cons first rest ih =>
      cases first with
      | string name =>
          rw [readRequired] at read
          split at read
          · next before =>
              have skipped : Json.string name ∈ listed.map Json.string :=
                List.mem_map_of_mem (List.contains_iff_mem.1 before)
              rw [ih read, List.cons_removeAll, if_neg (by simpa using skipped)]
          · next new =>
              have fresh : Json.string name ∉ listed.map Json.string := by
                simpa using new
              have later : rest.removeAll ((listed ++ [name]).map Json.string) =
                  (rest.removeAll (listed.map Json.string)).filter fun other =>
                    !other == Json.string name := by
                rw [List.removeAll, List.removeAll, List.filter_filter]
                refine List.filter_congr fun other _ => ?_
                rw [Bool.eq_iff_iff]
                simp [and_comm]
              rw [ih read, List.cons_removeAll, if_pos (by simpa using fresh), List.eraseDups_cons,
                later, List.map_append, List.append_assoc]
              rfl
      | _ => cases read

theorem requiredMembers_of_readNames {names : List String} (read : readNames value = .ok names) :
    requiredMembers names = listMembers "required" value.firstEntries := by
  cases value with
  | array entries =>
      rw [readNames] at read
      have strings := strings_of_readRequired read
      have all : entries.removeAll [] = entries := by simp [List.removeAll]
      rw [List.map_nil, List.nil_append, all] at strings
      rw [firstEntries, ← strings]
      cases names <;> rfl
  | _ => cases read

theorem mapValues_of_readTable {table : Members Schema} (read : readTable value = .ok table)
    (below : ∀ child ∈ subschemasAt .properties value, ∀ read,
      ofJson child = .ok read → read.toJson = child.normal) :
    Members.mapValues toJson table = normalTable value := by
  cases value with
  | object entries =>
      rw [readTable, readProperties_eq_mapM, Outcome.mapM_eq_ok_iff] at read
      rw [normalTable, normalEntries_eq_mapValues]
      have each := List.forall_mem_map.1 below
      clear below
      induction read with
      | nil => rfl
      | cons first rest ih =>
          obtain ⟨own, others⟩ := List.forall_mem_cons.1 each
          obtain ⟨schema, found, same⟩ := Outcome.bind_eq_ok_iff.1 first
          cases same
          have value := own schema found
          exact congrArg₂ List.cons (congrArg (Prod.mk _) value) (ih others)
  | _ => cases read

theorem map_of_readCombinator {keyword : String} {members : List Schema}
    (read : readCombinator keyword value = .ok members)
    (below : ∀ items, value = .array items → ∀ child ∈ items, ∀ read,
      ofJson child = .ok read → read.toJson = child.normal) :
    members.map toJson = normalList value := by
  cases value with
  | array items =>
      rw [readCombinator, readMembers_eq_mapM, Outcome.mapM_eq_ok_iff] at read
      rw [normalList, normalItems_eq_map]
      have each := below items rfl
      clear below
      induction read with
      | nil => rfl
      | cons first rest ih =>
          obtain ⟨own, others⟩ := List.forall_mem_cons.1 each
          exact congrArg₂ List.cons (own _ first) (ih others)
  | _ => cases read

theorem group_of_readKeyword_of_ne (read : readKeyword schema name value = .ok result)
    {keyword : Keyword} (other : Keyword.ofName name ≠ keyword) :
    result.group keyword = schema.group keyword := by
  rw [readKeyword] at read
  cases own : Keyword.ofName name with
  | extensions | other =>
      simp only [own, pure, Except.pure, Except.ok.injEq] at read
      subst read
      cases keyword <;> first | rfl | exact absurd own other
  | _ =>
      simp only [own, Outcome.bind_eq_ok_iff, pure, Except.pure, Except.ok.injEq] at read
      obtain ⟨_, -, rfl⟩ := read
      cases keyword <;> first | rfl | exact absurd own other

/-- What is read for a keyword that has not been read before is written for it. -/
theorem group_of_readKeyword (read : readKeyword schema name value = .ok result)
    (fresh : name ∉ Members.keys (schema.group (Keyword.ofName name)))
    (below : ∀ child ∈ subschemasAt (Keyword.ofName name) value, ∀ read,
      ofJson child = .ok read → read.toJson = child.normal) :
    result.group (Keyword.ofName name) =
      schema.group (Keyword.ofName name) ++ normalMember name value := by
  have alone {keyword : Keyword} {spelled : String} (own : Keyword.ofName name = keyword)
      (named : keyword.spelling? = some spelled) : name = spelled ∧ schema.group keyword = [] := by
    subst own
    have same := Keyword.eq_of_spelling? named
    exact ⟨same, group_eq_nil (same ▸ named) fresh⟩
  rw [readKeyword] at read
  rw [normalMember]
  cases own : Keyword.ofName name with
  | extensions | other =>
      simp only [own, pure, Except.pure, Except.ok.injEq] at read
      subst read
      rw [own] at fresh
      exact Members.insert_of_not_mem value fresh
  | type =>
      obtain ⟨rfl, none⟩ := alone own rfl
      obtain ⟨⟨types, listed⟩, found, same⟩ := Outcome.bind_eq_ok_iff.1 read
      cases same
      rw [none]
      exact typesMembers_of_readTypes found
  | properties =>
      obtain ⟨rfl, none⟩ := alone own rfl
      obtain ⟨table, found, same⟩ := Outcome.bind_eq_ok_iff.1 read
      cases same
      rw [none]
      exact congrArg (tableMembers "properties") (mapValues_of_readTable found below)
  | required =>
      obtain ⟨rfl, none⟩ := alone own rfl
      obtain ⟨names, found, same⟩ := Outcome.bind_eq_ok_iff.1 read
      cases same
      rw [none]
      exact requiredMembers_of_readNames found
  | items =>
      obtain ⟨rfl, none⟩ := alone own rfl
      obtain ⟨item, found, same⟩ := Outcome.bind_eq_ok_iff.1 read
      cases same
      have written : item.toJson = value.normal := below value List.mem_cons_self item found
      rw [none, group, itemsMembers, written]
      rfl
  | anyOf | oneOf | allOf =>
      obtain ⟨rfl, none⟩ := alone own rfl
      obtain ⟨members, found, same⟩ := Outcome.bind_eq_ok_iff.1 read
      cases same
      rw [none]
      refine congrArg (listMembers _) (map_of_readCombinator found fun items same => ?_)
      subst same
      exact below
  | enumeration =>
      obtain ⟨rfl, none⟩ := alone own rfl
      obtain ⟨values, found, same⟩ := Outcome.bind_eq_ok_iff.1 read
      cases same
      rw [none]
      cases value <;> cases found
      rfl
  | reference | description =>
      obtain ⟨rfl, none⟩ := alone own rfl
      obtain ⟨text, found, same⟩ := Outcome.bind_eq_ok_iff.1 read
      cases same
      rw [none]
      cases value <;> cases found
      rfl

/-- What is read for an object is written for it, keyword by keyword. -/
theorem group_of_readKeywords (read : readKeywords schema members = .ok result)
    (distinct : (Members.keys members).Nodup)
    (fresh : ∀ name ∈ Members.keys members,
      name ∉ Members.keys (schema.group (Keyword.ofName name)))
    (below : ∀ child ∈ Json.subschemas (.object members), ∀ read,
      ofJson child = .ok read → read.toJson = child.normal) (keyword : Keyword) :
    result.group keyword =
      schema.group keyword ++ underKeyword keyword (normalMembers members) := by
  induction members generalizing schema with
  | nil =>
      rw [readKeywords, Except.ok.injEq] at read
      rw [read]
      exact (List.append_nil _).symm
  | cons member rest ih =>
      obtain ⟨name, value⟩ := member
      rw [readKeywords_cons, Outcome.bind_eq_ok_iff] at read
      obtain ⟨next, first, read⟩ := read
      obtain ⟨apart, distinct⟩ := List.nodup_cons.1 distinct
      obtain ⟨new, others⟩ := List.forall_mem_cons.1 fresh
      rw [Json.subschemas, List.flatMap_cons, List.forall_mem_append] at below
      obtain ⟨own, below⟩ := below
      have step (keyword : Keyword) : next.group keyword =
          schema.group keyword ++ underKeyword keyword (normalMember name value) := by
        rw [Json.underKeyword_normalMember]
        split
        · next same => exact same ▸ group_of_readKeyword first new own
        · next other => rw [List.append_nil, group_of_readKeyword_of_ne first other]
      have still (other : String) (mem : other ∈ Members.keys rest) :
          other ∉ Members.keys (next.group (Keyword.ofName other)) := by
        rw [step, Members.keys, List.map_append, List.mem_append, not_or]
        refine ⟨others other mem, fun here => apart ?_⟩
        obtain ⟨member, kept, rfl⟩ := List.mem_map.1 here
        have named := (Json.keys_normalMember_sublist name value).subset
          (List.mem_map_of_mem (List.mem_filter.1 kept).1)
        exact List.mem_singleton.1 named ▸ mem
      rw [ih read distinct still below, step, Json.normalMembers_cons, underKeyword, underKeyword,
        underKeyword, List.filter_append, List.append_assoc]

/-- A schema that is read is written in its normal form. -/
theorem toJson_of_ofJson (distinct : value.distinct = true) (read : ofJson value = .ok schema) :
    schema.toJson = value.normal := by
  induction value using Json.inductSubschemas generalizing schema with
  | step value ih =>
      cases value with
      | object members =>
          rw [ofJson] at read
          obtain ⟨names, values⟩ := Json.distinct_object_iff.1 distinct
          have below (child : Json) (mem : child ∈ Json.subschemas (.object members))
              (read : Schema) (found : ofJson child = .ok read) : read.toJson = child.normal :=
            ih child mem (preserved_named.subschema values mem) found
          have groups := group_of_readKeywords read names (fun name _ => by
            cases Keyword.ofName name <;> exact List.not_mem_nil) below
          rw [toJson_eq_flatMap_group, normal, Json.grouped]
          congr 2
          funext keyword
          rw [groups keyword]
          cases keyword <;> rfl
      | bool value =>
          cases value with
          | false => cases read
          | true =>
              cases read
              rfl
      | _ => cases read

end Schema

end SchemaStream
