import SchemaStream.Proofs.Schema.ArenaDefinitions
import SchemaStream.Proofs.Typing.Alike
import SchemaStream.Typing.ArenaTyping

/-!
# Types in an arena

Under a guard by ranks, the synthesis of types in an arena ends, and comes to the types of the
document that is laid out there.
-/

namespace SchemaStream

open Outcome (Ends)

/-! ## What a node is typed by -/

theorem Shape.isNull_blank (shape : Shape Schema) : shape.blank.isNull = shape.schema.isNull := by
  rw [Schema.isNull, Schema.isNull, kind_blank]

variable {nodes : Nodes} {tree : Placed}

theorem Stored.exists_node (stored : Stored nodes tree) :
    ∃ node, nodes[tree.place]? = some node ∧ node.blank.isNull = tree.schema.isNull ∧
      node.description = tree.schema.description := by
  obtain ⟨place, shape⟩ := tree
  refine ⟨_, (Stored.node_iff.1 stored).1, ?_, ?_⟩
  · rw [Shape.blank_map, ← Shape.blank_map shape Placed.schema, Shape.isNull_blank,
      Placed.schema_node]
  · rw [Placed.schema_node]
    rfl

namespace Arena

variable {arena : Arena}

theorem ends_nodeAt {place : Nat} {node : Shape Nat} (own : arena.nodes[place]? = some node) :
    Ends (fun _ => arena.nodeAt place) (.ok node) :=
  ⟨0, fun _ _ => run_nodeAt own⟩

/-! ## Nodes -/

section

variable {below : Nat → String → Nat → ExceptT SchemaError Option FieldType}
  {context : TypeContext} {target : String → Schema → FieldType} {shape : Shape Placed}
  (stored : ∀ child ∈ shape.children, Stored arena.nodes child)
  (typed : ∀ child ∈ shape.children, ∀ name, Ends (fun depth => below depth name child.place)
    (.ok (child.schema.fieldType context target name)))
include stored typed

theorem ends_recordFields :
    Ends (fun depth => arena.recordFields (below depth) (shape.map Placed.place))
      (.ok (Schema.recordFields context target shape.required
        (shape.map Placed.schema).properties)) := by
  rw [Schema.recordFields_eq_map]
  simp only [recordFields, Shape.map, Members.mapValues, List.mapM_map, List.map_map]
  refine Ends.mapM fun property mem => ?_
  have inside : property.2 ∈ shape.children := by
    simp only [Shape.children, List.mem_append, List.mem_map]
    exact .inl (.inl (.inl (.inl ⟨property, mem, rfl⟩)))
  obtain ⟨node, own, -, described⟩ := (stored property.2 inside).exists_node
  refine (typed property.2 inside (TypeName.ofField property.1)).bind
    ((ends_nodeAt own).bind ?_)
  rw [described]
  exact .pure _

/-- What a type of a node comes to, if it is a record or a list. -/
theorem ends_singleType (name : String) (type : JsonType) :
    Ends (fun depth => arena.singleType (below depth) name (shape.map Placed.place) type)
      (.ok (Schema.singleType type
        (.record ((shape.map Placed.schema).schema.title?.getD name)
          (Schema.recordFields context target shape.required (shape.map Placed.schema).properties))
        (.list (Schema.itemsType context target (TypeName.ofItem name)
          (shape.map Placed.schema).items)))) := by
  cases type with
  | object => exact (ends_recordFields stored typed).bind (.pure _)
  | array =>
      simp only [singleType, Shape.map]
      cases item : shape.items with
      | none => exact .pure _
      | some child =>
          have inside : child ∈ shape.children := by simp [Shape.children, item]
          exact (typed child inside (TypeName.ofItem name)).bind (.pure _)
  | _ => exact .pure _

theorem ends_unionType (name : String) :
    Ends (fun depth => arena.unionType (below depth) name (shape.map Placed.place))
      (.ok (Schema.unionType shape.types
        (.record ((shape.map Placed.schema).schema.title?.getD name)
          (Schema.recordFields context target shape.required (shape.map Placed.schema).properties))
        (.list (Schema.itemsType context target (TypeName.ofItem name)
          (shape.map Placed.schema).items)))) := by
  have same : (shape.map Placed.place).types = shape.types := rfl
  simp only [unionType, Schema.unionType, same]
  generalize shape.types.filter (· ≠ .null) = others
  match others with
  | [] | _ :: _ :: _ => exact .pure _
  | [type] => exact (ends_singleType stored typed name type).bind (.pure _)

theorem ends_membersType (name : String) {members : List Placed}
    (inside : members ⊆ shape.children) :
    Ends (fun depth => arena.membersType (below depth) name (members.map Placed.place))
      (.ok (Schema.membersType context target name (members.map Placed.schema))) := by
  match members with
  | [] | [_] | _ :: _ :: _ :: _ => exact .pure _
  | [first, second] =>
      have one : first ∈ shape.children := inside (by simp)
      have two : second ∈ shape.children := inside (by simp)
      obtain ⟨node, own, null, -⟩ := (stored first one).exists_node
      obtain ⟨node', own', null', -⟩ := (stored second two).exists_node
      simp only [membersType, Schema.membersType, List.map_cons, List.map_nil]
      refine (ends_nodeAt own).bind ((ends_nodeAt own').bind ?_)
      rw [null, null']
      cases first.schema.isNull <;> cases second.schema.isNull
      · exact .pure _
      · exact (typed first one name).bind (.pure _)
      · exact (typed second two name).bind (.pure _)
      · exact .pure _

theorem ends_typeNode {referred : Nat → ExceptT SchemaError Option FieldType} (name : String)
    (refers : Ends referred (.ok (match shape.reference >>= context.target? with
      | some definition => target name definition
      | none => .union))) :
    Ends (fun depth => arena.typeNode (below depth) (referred depth) name (shape.map Placed.place))
      (.ok ((shape.map Placed.schema).schema.fieldType context target name)) := by
  rw [Schema.fieldType_eq]
  simp only [typeNode]
  rw [Shape.blank_map, ← Shape.blank_map shape Placed.schema, Shape.kind_blank]
  cases (shape.map Placed.schema).schema.kind with
  | reference => exact refers
  | enumeration => exact .pure _
  | any => exact .pure _
  | ofType type => exact ends_singleType stored typed name type
  | typeUnion => exact ends_unionType stored typed name
  | anyOf =>
      exact ends_membersType stored typed name fun member mem => by simp [Shape.children, mem]
  | oneOf =>
      exact ends_membersType stored typed name fun member mem => by simp [Shape.children, mem]
  | allOf =>
      have same : (shape.map Placed.place).allOf = shape.allOf.map Placed.place := rfl
      have same' : (shape.map Placed.schema).schema.allOf = shape.allOf.map Placed.schema := rfl
      simp only [same, same']
      match members : shape.allOf with
      | [] | _ :: _ :: _ => exact .pure _
      | [member] => exact typed member (by simp [Shape.children, members]) name

end

/-! ## Documents -/

variable {layout : Layout} {kept : List String} {rank : String → Nat} {guard : Guard}

/-- A reference is read through in the arena as it is in the document. -/
theorem Lays.readThrough?_cases (lays : arena.Lays layout) (kept : List String)
    (shape : Shape Placed) :
    (arena.readThrough? kept (shape.map Placed.place) = none ∧
      shape.reference >>= (layout.expansion kept).typing.target? = none) ∨
    ∃ reference name body, shape.reference = some reference ∧
      Reference.name? reference = some name ∧ name ∉ kept ∧
      Members.get? layout.bodies name = some body ∧
      arena.readThrough? kept (shape.map Placed.place) = some (name, body.place) ∧
      shape.reference >>= (layout.expansion kept).typing.target? = some body.schema := by
  rw [readThrough?, Shape.reference_map, lays.definitions, Layout.expansion, Expansion.typing]
  cases shape.reference with
  | none => exact .inl ⟨rfl, rfl⟩
  | some reference =>
      simp only [Option.bind_eq_bind, Option.bind_some, TypeContext.target?, Members.get?_mapValues]
      cases named : Reference.name? reference with
      | none => exact .inl ⟨rfl, rfl⟩
      | some name =>
          simp only [Option.bind_some]
          cases put : kept.contains name with
          | true => exact .inl ⟨rfl, rfl⟩
          | false =>
              cases found : Members.get? layout.bodies name with
              | none => exact .inl ⟨rfl, rfl⟩
              | some body =>
                  exact .inr ⟨reference, name, body, rfl, named, by simpa using put, found,
                    rfl, rfl⟩

theorem Lays.resolve_agrees (lays : arena.Lays layout) (reference : String) :
    Outcome.Agrees
      (fun place definition => ∃ name body, Reference.name? reference = some name ∧
        Members.get? layout.bodies name = some body ∧ place = body.place ∧
        definition = body.schema)
      (arena.resolve reference) ((layout.document arena.table).resolve reference) := by
  rw [resolve, Document.resolve, Reference.resolve, lays.definitions, Layout.document]
  simp only [Members.get?_mapValues]
  cases Reference.name? reference with
  | none => exact .error _
  | some name =>
      dsimp only
      cases found : Members.get? layout.bodies name with
      | none => exact .error _
      | some body => exact .ok ⟨name, body, rfl, found, rfl, rfl⟩

section

variable (lays : arena.Lays layout) (grounded : (layout.expansion kept).Grounded rank)
  (admits : ∀ within name, Guard.descending rank within name = true → guard within name = true)
include lays grounded admits

theorem Lays.ends_typeReferred
    (below : Nat → Option String → Nat → ExceptT SchemaError Option FieldType)
    {type : Schema → FieldType} {within : Option String} {place : Nat} {shape : Shape Placed}
    (down : (layout.expansion kept).LeadsDown rank within (Placed.node place shape).schema)
    (typed : ∀ name body, Members.get? layout.bodies name = some body →
      shape.reference >>= (layout.expansion kept).typing.target? = some body.schema →
      (layout.expansion kept).LeadsDown rank (some name) body.schema →
      Ends (fun depth => below depth (some name) body.place) (.ok (type body.schema))) :
    Ends (fun depth => arena.typeReferred guard kept (below depth) within
        (shape.map Placed.place))
      (.ok (match shape.reference >>= (layout.expansion kept).typing.target? with
        | some definition => type definition
        | none => .union)) := by
  simp only [typeReferred]
  rcases lays.readThrough?_cases kept shape with ⟨through, through'⟩ |
    ⟨reference, name, body, refers, named, put, found, through, through'⟩
  · rw [through, through']
    exact .pure _
  · have found' := Layout.get?_expansion found kept
    have inlines : (layout.expansion kept).Inlines name := .of_get? found' put
    have low : Guard.descending rank within name = true :=
      down.reference ((Placed.reference_schema place shape).trans refers) named inlines
    have ends := typed name body found through' (.definition grounded found' inlines)
    rw [through, through']
    simpa only [admits within name low, if_true] using ends

/-- The type of a node under any name is that of its schema. -/
theorem Lays.ends_fieldType {tree : Placed} (stored : Stored arena.nodes tree)
    {within : Option String} (down : (layout.expansion kept).LeadsDown rank within tree.schema)
    (name : String) :
    Ends (fun depth => fieldType arena guard kept depth within name tree.place)
      (.ok ((layout.expansion kept).typeOf name tree.schema)) := by
  suffices every : ∀ schema (tree : Placed), tree.schema = schema → Stored arena.nodes tree →
      ∀ within, (layout.expansion kept).LeadsDown rank within schema → ∀ name,
        Ends (fun depth => fieldType arena guard kept depth within name tree.place)
          (.ok ((layout.expansion kept).typeOf name schema)) from
    every _ tree rfl stored within down name
  clear stored down
  intro schema
  induction schema using grounded.inductAlong
    (fun _ _ => grounded.descends_target) with
  | step schema children targets =>
      rintro ⟨place, shape⟩ rfl stored within down name
      obtain ⟨own, stored⟩ := Stored.node_iff.1 stored
      have step (depth : Nat) : fieldType arena guard kept (depth + 1) within name place =
          arena.typeNode (fieldType arena guard kept depth within)
            (arena.typeReferred guard kept
              (fun definition => fieldType arena guard kept depth definition name) within
              (shape.map Placed.place)) name (shape.map Placed.place) := by
        rw [fieldType, Outcome.bind_of_run (run_nodeAt own)]
      have referred := lays.ends_typeReferred grounded admits
        (fun depth definition => fieldType arena guard kept depth definition name) down
        fun other body found leads down => targets body.schema
          ((congrArg (· >>= _) (Placed.reference_schema place shape)).trans leads) body rfl
          (lays.stored found) (some other) down name
      rw [← grounded.typeOf_eq, Placed.schema_node]
      refine Ends.succ ⟨0, fun depth _ => step depth⟩
        (ends_typeNode stored (fun child mem name => ?_) name referred)
      rw [grounded.typeOf_eq]
      have below := Placed.schema_mem_children place mem
      exact children child.schema below child rfl (stored child mem) within (down.children below)
        name

theorem Lays.ends_recordTypeAt {tree : Placed} (stored : Stored arena.nodes tree)
    {within : Option String} (down : (layout.expansion kept).LeadsDown rank within tree.schema)
    (rootName : String) :
    Ends (fun depth => arena.recordTypeAt guard kept rootName depth within tree.place)
      (if tree.schema.describesObject then
        .ok ((layout.expansion kept).typing.recordType rootName tree.schema)
      else .error (.invalid .rootDescribesNoObject)) := by
  obtain ⟨place, shape⟩ := tree
  obtain ⟨own, below⟩ := Stored.node_iff.1 stored
  have typed (child : Placed) (mem : child ∈ shape.children) (name : String) :
      Ends (fun depth => fieldType arena guard kept depth within name child.place)
        (.ok (child.schema.fieldType (layout.expansion kept).typing
          (layout.expansion kept).typeOf name)) := by
    rw [grounded.typeOf_eq]
    exact lays.ends_fieldType grounded admits (below child mem)
      (down.children (Placed.schema_mem_children place mem)) name
  have fields := ends_recordFields below typed
  refine (ends_nodeAt own).bind ?_
  rw [Shape.blank_map, ← Shape.blank_map shape Placed.schema, Shape.describesObject_blank,
    Placed.schema_node]
  cases (shape.map Placed.schema).schema.describesObject with
  | false => exact ⟨0, fun _ _ => rfl⟩
  | true => exact fields.bind (.pure _)

/-- The record type of the document that is laid out. -/
theorem Lays.ends_recordType (cyclic : (layout.document arena.table).cyclicDefinitions = kept)
    (down : ∀ name body, Members.get? layout.bodies name = some body →
      (layout.expansion kept).LeadsDown rank (some name) body.schema) (rootName : String) :
    Ends (fun depth => arena.recordType guard kept rootName depth)
      ((layout.document arena.table).recordType rootName) := by
  subst cyclic
  have root := lays.laid.stored layout.root List.mem_cons_self
  obtain ⟨node, own, refers⟩ : ∃ node, arena.nodes[layout.root.place]? = some node ∧
      node.reference = layout.root.schema.reference := by
    obtain ⟨⟨place, shape⟩, bodies⟩ := layout
    exact ⟨_, (Stored.node_iff.1 root).1, (Placed.reference_schema place shape).symm⟩
  have whole : (layout.document arena.table).schema = layout.root.schema := rfl
  simp only [recordType, Document.recordType, lays.root, whole]
  refine (ends_nodeAt own).bind ?_
  rw [refers]
  cases layout.root.schema.reference with
  | none => exact lays.ends_recordTypeAt grounded admits root (.free _ rank _) rootName
  | some reference =>
      have step {outcome : Except SchemaError Nat} (same : arena.resolve reference = outcome) :
          Ends (fun _ => ExceptT.mk (some (arena.resolve reference))) outcome :=
        ⟨0, fun _ _ => congrArg some same⟩
      have resolves := lays.resolve_agrees reference
      dsimp only
      cases leads : (layout.document arena.table).resolve reference with
      | error fault =>
          rw [leads] at resolves
          exact Ends.bind_fault (step resolves.eq_error_left)
      | ok definition =>
          rw [leads] at resolves
          obtain ⟨_, found, name, body, named, mem, rfl, rfl⟩ := resolves.exists_of_ok_right
          refine (step found).bind ?_
          rw [named, Outcome.ok_bind]
          exact lays.ends_recordTypeAt grounded admits (lays.stored mem) (down name body mem)
            rootName

end

end Arena

end SchemaStream
