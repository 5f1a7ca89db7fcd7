import SchemaStream.Proofs.Schema.InPlace

/-!
# Whole documents in an arena

Once the root is expanded, the definitions that are not kept are expanded one after another where
they stand.  Each only needs definitions of lower rank, which are stored beside it whether they
are expanded already or not.  So under a guard by ranks the expansion of a document ends, and has
the outcome that it has for the document itself.
-/

namespace SchemaStream

open Outcome (Agrees Ends Extends)

/-- What references mean where the definitions that are laid out are put in, but for those kept. -/
def Layout.expansion (layout : Layout) (kept : List String) : Expansion :=
  ⟨Members.mapValues Placed.schema layout.bodies, kept⟩

theorem Layout.get?_expansion {layout : Layout} {name : String} {tree : Placed}
    (found : Members.get? layout.bodies name = some tree) (kept : List String) :
    Members.get? (layout.expansion kept).definitions name = some tree.schema := by
  rw [expansion, Members.get?_mapValues, found]
  rfl

namespace Arena

/-- Every node of the document is at a place of its own. -/
def Expresses (arena : Arena) (document : Document) : Prop :=
  ∃ layout, Lays arena layout ∧ layout.document arena.table = document

variable {arena : Arena} {layout : Layout} {nodes : Nodes} {tree tree' : Placed} {name : String}
  {kept : List String} {rank : String → Nat}

/-! ## One definition -/

theorem perm_trees (root : Placed) (front back : Members Placed) (name : String) (tree : Placed) :
    (⟨root, front ++ (name, tree) :: back⟩ : Layout).trees.Perm
      ([tree] ++ root :: (front ++ back).map Prod.snd) := by
  rw [Layout.trees, List.map_append, List.map_append, List.map_cons]
  exact (List.perm_middle.cons _).trans (List.Perm.swap _ _ _)

theorem Lays.stored (lays : arena.Lays layout)
    (found : Members.get? layout.bodies name = some tree) : Stored arena.nodes tree :=
  lays.laid.stored tree (List.mem_cons_of_mem _
    (List.mem_map_of_mem (Members.mem_of_get?_eq_some found)))

/-- A definition is laid out apart from the others. -/
theorem Lays.supplies (lays : arena.Lays layout)
    (found : Members.get? layout.bodies name = some tree) (usable : String → Prop)
    (others : ∀ other, usable other → other ≠ name) :
    arena.Supplies usable layout.bodies [tree] := by
  obtain ⟨root, bodies⟩ := layout
  obtain ⟨front, back, rfl⟩ := List.append_of_mem (Members.mem_of_get?_eq_some found)
  have laid := lays.laid.subperm (perm_trees root front back name tree).symm.subperm
  refine ⟨lays.definitions, fun body mem _ => ?_, laid.append_left, ?_⟩
  · exact lays.laid.stored body.2 (List.mem_cons_of_mem _ (List.mem_map_of_mem mem))
  · intro body mem use place under own
    have beside : body ∈ front ++ back := by
      rw [List.mem_append, List.mem_cons] at mem
      rcases mem with mem | rfl | mem
      · exact List.mem_append_left _ mem
      · exact absurd rfl (others name use)
      · exact List.mem_append_right _ mem
    refine laid.disjoint place own (List.mem_flatMap.2 ⟨body.2, ?_, under⟩)
    exact List.mem_cons_of_mem _ (List.mem_map_of_mem beside)

/-- A definition that has changed where it stands. -/
theorem Lays.insert (lays : arena.Lays layout) (distinct : (Members.keys layout.bodies).Nodup)
    (found : Members.get? layout.bodies name = some tree) (there : tree'.place = tree.place)
    (changed : Changed arena.nodes nodes [tree] [tree']) :
    Lays { arena with nodes } ⟨layout.root, Members.insert layout.bodies name tree'⟩ := by
  refine ⟨lays.root, ?_, ?_⟩
  · have same : Members.get? (Members.mapValues Placed.place layout.bodies) name =
        some tree'.place := by
      rw [Members.get?_mapValues, found, there]
      rfl
    rw [← Members.insert_mapValues, Members.insert_eq_self same]
    exact lays.definitions
  · obtain ⟨root, bodies⟩ := layout
    obtain ⟨front, back, rfl⟩ := List.append_of_mem (Members.mem_of_get?_eq_some found)
    have absent : name ∉ Members.keys front := by
      rw [Members.keys, List.map_append, List.map_cons, List.nodup_append'] at distinct
      exact fun mem => distinct.2.2 mem List.mem_cons_self
    have before := lays.laid.subperm (perm_trees root front back name tree).symm.subperm
    rw [Members.insert_append_cons_self tree' absent]
    exact (changed.beside before).laid.subperm (perm_trees root front back name tree').subperm

/-! ## One definition after another -/

theorem Lays.ends_definitions (lays : arena.Lays layout)
    (distinct : (Members.keys layout.bodies).Nodup)
    (grounded : (layout.expansion kept).Grounded rank)
    (defined : kept ⊆ Members.keys layout.bodies) (entries : Members Nat)
    (listed : ∀ entry ∈ entries, Members.get? arena.definitions entry.1 = some entry.2 ∧
      entry.1 ∉ kept) :
    ∃ outcome,
      Ends (fun depth => entries.foldlM (fun arena entry =>
        expandNodeGuarded (.descending rank) kept depth (some entry.1) arena entry.2) arena)
        outcome ∧
      Agrees (fun result definitions => result.table = arena.table ∧
          ∃ bodies, Lays result ⟨layout.root, bodies⟩ ∧
            Members.mapValues Placed.schema bodies = definitions)
        outcome
        (Document.expandDefinitions kept (Members.keys entries)
          (layout.expansion kept).definitions) := by
  induction entries generalizing arena layout with
  | nil => exact ⟨.ok arena, ⟨0, fun _ _ => rfl⟩, .ok ⟨rfl, layout.bodies, lays, rfl⟩⟩
  | cons entry rest ih =>
      obtain ⟨name, place⟩ := entry
      rw [List.forall_mem_cons] at listed
      obtain ⟨⟨own, put⟩, others⟩ := listed
      rw [lays.definitions, Members.get?_mapValues, Option.map_eq_some_iff] at own
      obtain ⟨tree, found, rfl⟩ := own
      have found' := Layout.get?_expansion found kept
      have inlines : (layout.expansion kept).Inlines name := .of_get? found' put
      have supplies := lays.supplies found ((layout.expansion kept).Allows rank (some name)) (by
          rintro other ⟨-, low⟩ rfl
          exact (Guard.descending_iff.1 low other rfl).false)
      have gives := givesAnywhere rfl grounded
        (by rwa [Layout.expansion, Members.keys_mapValues]) tree.schema (some name) tree rfl
        (.definition grounded found' inlines) arena supplies
      rw [Members.keys, List.map_cons, Document.expandDefinitions, found']
      simp only [List.foldlM_cons]
      change ∃ outcome, _ ∧ Agrees _ outcome ((layout.expansion kept).expand tree.schema >>= _)
      cases expands : (layout.expansion kept).expand tree.schema with
      | error fault =>
          rw [expands] at gives
          exact ⟨.error fault, Ends.bind_fault gives, .error fault⟩
      | ok schema =>
          rw [expands] at gives
          obtain ⟨tree', nodes, ends, there, rfl, changed⟩ := gives
          have next := lays.insert distinct found there changed
          have names := Members.keys_insert_of_mem tree'
            (Members.mem_keys_iff_exists_get?.2 ⟨tree, found⟩)
          have replaced : (⟨layout.root, Members.insert layout.bodies name tree'⟩ :
              Layout).expansion kept =
                ⟨Members.insert (layout.expansion kept).definitions name tree'.schema, kept⟩ := by
            rw [Layout.expansion, Layout.expansion, Members.insert_mapValues]
          obtain ⟨outcome, ends', agrees⟩ := ih next (by rwa [names])
            (replaced ▸ grounded.insert found' expands) (by rwa [names]) others
          rw [replaced] at agrees
          exact ⟨outcome, ends.bind ends', agrees⟩

/-! ## Documents -/

/-- The expansion of a document ends with the outcome that it has in the document itself. -/
theorem Lays.ends_expandGuarded (lays : arena.Lays layout)
    (distinct : (Members.keys layout.bodies).Nodup)
    (grounded : (layout.document arena.table).expansion.Grounded rank) :
    ∃ outcome,
      Ends (fun depth => arena.expandGuarded (.descending rank)
        (layout.document arena.table).cyclicDefinitions depth) outcome ∧
      Agrees Expresses outcome (layout.document arena.table).expand := by
  have defined : (layout.document arena.table).cyclicDefinitions ⊆ Members.keys layout.bodies := by
    rw [← Members.keys_mapValues Placed.schema]
    exact Definitions.cyclic_subset_keys
  have gives := givesAnywhere rfl grounded (by exact Definitions.cyclic_subset_keys)
    layout.root.schema none layout.root rfl (.free _ rank _) arena
    ((holds_iff_supplies.1 lays.holds).imp _ fun _ _ => trivial)
  rw [← lays.root] at gives
  rw [Document.expand_of_apart rfl]
  cases expands : (layout.document arena.table).expansion.expand layout.root.schema with
  | error fault =>
      rw [expands] at gives
      exact ⟨.error fault, Ends.bind_fault gives, .error fault⟩
  | ok schema =>
      rw [expands] at gives
      obtain ⟨root, nodes, ends, there, rfl, changed⟩ := gives
      have start := lays.withRoot there changed
      rw [Outcome.ok_bind]
      cases acyclic : (layout.document arena.table).cyclicDefinitions.isEmpty with
      | true =>
          refine ⟨.ok { arena with nodes, definitions := [] }, ends.bind ?_, .ok ?_⟩
          · simp only [acyclic, if_true]
            exact ⟨0, fun _ _ => rfl⟩
          · exact ⟨⟨root, []⟩, ⟨start.root, rfl,
              start.laid.subperm (List.sublist_append_left [root] _).subperm⟩, rfl⟩
      | false =>
          have named : Members.keys (arena.definitions.filter fun entry =>
              !(layout.document arena.table).cyclicDefinitions.contains entry.1) =
                (Members.keys (layout.document arena.table).definitions).filter fun name =>
                  !(layout.document arena.table).cyclicDefinitions.contains name := by
            rw [lays.definitions, Layout.document, Members.keys_mapValues,
              ← Members.keys_mapValues Placed.place, Members.keys, Members.keys, List.filter_map]
            rfl
          obtain ⟨outcome, ends', agrees⟩ := start.ends_definitions distinct grounded defined
            (arena.definitions.filter fun entry =>
              !(layout.document arena.table).cyclicDefinitions.contains entry.1) (by
            intro entry mem
            obtain ⟨mem, put⟩ := List.mem_filter.1 mem
            refine ⟨Members.get?_eq_some_of_mem ?_ mem, by simpa using put⟩
            rwa [lays.definitions, Members.keys_mapValues])
          refine ⟨outcome, ends.bind ?_, ?_⟩
          · simpa only [acyclic, Bool.false_eq_true, if_false] using ends'
          · rw [named] at agrees
            rw [if_neg Bool.false_ne_true, ← bind_pure outcome]
            refine agrees.bind ?_
            rintro result _ ⟨table, bodies, lays, rfl⟩
            exact .ok ⟨⟨root, bodies⟩, lays, table ▸ rfl⟩

/-! ## Without a guard -/

/-- What a guard lets through goes the same way without it. -/
theorem expandGuarded_extends (guard : Guard) (kept : List String) (depth : Nat) (arena : Arena) :
    Extends (expandGuarded guard kept depth arena) (expand kept depth arena) := by
  rw [expandGuarded, expand]
  refine .bind (expandNodeGuarded_extends guard kept depth none arena arena.root) fun arena => ?_
  split
  · exact .refl _
  · rw [List.foldlM_map]
    exact .foldlM (fun arena (entry : String × Nat) =>
      expandNodeGuarded_extends guard kept depth (some entry.1) arena entry.2) arena

end Arena

end SchemaStream
