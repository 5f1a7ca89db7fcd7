import SchemaStream.Schema.Basic

/-!
# Writing schemas

The keywords of a node are written in one fixed order, empty ones left out.
-/

namespace SchemaStream

namespace Schema

/-- A single type is written by its name unless it was listed. -/
def typesJson (types : List JsonType) (listed : Bool) : Json :=
  match types with
  | [type] => if listed then .array [.string type.name] else .string type.name
  | types => .array (types.map fun type => .string type.name)

def typesMembers (types : List JsonType) (listed : Bool) : Members Json :=
  if types.isEmpty then [] else [("type", typesJson types listed)]

def textMembers (keyword : String) : Option String → Members Json
  | none => []
  | some text => [(keyword, .string text)]

def requiredMembers (required : List String) : Members Json :=
  if required.isEmpty then [] else [("required", .strings required)]

def enumerationMembers : Option (List Json) → Members Json
  | none => []
  | some values => [("enum", .array values)]

def tableMembers (keyword : String) (table : Members Json) : Members Json :=
  if table.isEmpty then [] else [(keyword, .object table)]

def listMembers (keyword : String) (items : List Json) : Members Json :=
  if items.isEmpty then [] else [(keyword, .array items)]

mutual

def toJson (schema : Schema) : Json :=
  match schema with
  | { types, typesListed, properties, required, items, anyOf, oneOf, allOf, enumeration,
      reference, description, extensions, keywords } =>
      .object (textMembers "$ref" reference ++ typesMembers types typesListed ++
        textMembers "description" description ++
        tableMembers "properties" (propertiesJson properties) ++ requiredMembers required ++
        itemsMembers items ++ listMembers "anyOf" (membersJson anyOf) ++
        listMembers "oneOf" (membersJson oneOf) ++ listMembers "allOf" (membersJson allOf) ++
        enumerationMembers enumeration ++ keywords ++ extensions)

def propertiesJson : List (String × Schema) → List (String × Json)
  | [] => []
  | (name, schema) :: rest => (name, toJson schema) :: propertiesJson rest

def itemsMembers : Option Schema → Members Json
  | none => []
  | some schema => [("items", toJson schema)]

def membersJson : List Schema → List Json
  | [] => []
  | schema :: rest => toJson schema :: membersJson rest

end

theorem propertiesJson_eq_mapValues (properties : List (String × Schema)) :
    propertiesJson properties = Members.mapValues toJson properties := by
  induction properties with
  | nil => rfl
  | cons property rest ih => rw [propertiesJson, ih]; rfl

theorem membersJson_eq_map (members : List Schema) : membersJson members = members.map toJson := by
  induction members with
  | nil => rfl
  | cons member rest ih => rw [membersJson, ih, List.map_cons]

end Schema

end SchemaStream
