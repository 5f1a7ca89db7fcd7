import SchemaStream.Proofs.Flat.Paths
import SchemaStream.Proofs.Json.Reordering
import SchemaStream.Stream.Snapshot

/-!
# Alignment by the longest mapped start

A key starts with another if its segments start with the other's, so `a.b` starts with `a` and
not with `a.`, `ab` not with `a`.  Of the starts that a mapping knows, the longest is looked up
first, so what it is mapped to decides the new name, and the order of the mapping does not
matter.
-/

namespace SchemaStream

namespace FlatKey

/-- A key that starts with another at a segment boundary. -/
def StartsWith (key start : String) : Prop := segments start <+: segments key

instance (key start : String) : Decidable (StartsWith key start) :=
  inferInstanceAs (Decidable (_ <+: _))

theorem intercalate_append_cons {front : List (List Char)} (nonempty : front ≠ [])
    (segment : List Char) (back : List (List Char)) :
    [separator].intercalate (front ++ segment :: back) =
      [separator].intercalate front ++ separator :: [separator].intercalate (segment :: back) := by
  induction front with
  | nil => exact absurd rfl nonempty
  | cons first rest ih =>
      cases rest with
      | nil => simp [List.intercalate_cons_cons]
      | cons second rest =>
          rw [List.cons_append, List.cons_append, List.intercalate_cons_cons,
            ← List.cons_append, ih (by simp), List.intercalate_cons_cons]
          simp

/-- What follows a start is empty or begins with a point. -/
theorem splitChars_prefix_iff {start text : List Char} :
    splitChars start <+: splitChars text ↔
      ∃ rest, text = start ++ rest ∧ ∀ c ∈ rest.head?, c = separator := by
  constructor
  · rintro ⟨more, split⟩
    have whole := intercalate_splitChars text
    rw [← split] at whole
    cases more with
    | nil =>
        rw [List.append_nil, intercalate_splitChars] at whole
        exact ⟨[], by rw [List.append_nil, whole], by simp⟩
    | cons segment more =>
        rw [intercalate_append_cons (splitChars_ne_nil start), intercalate_splitChars] at whole
        exact ⟨_, whole.symm, by simp⟩
  · rintro ⟨rest, rfl, boundary⟩
    cases rest with
    | nil => rw [List.append_nil]
    | cons c rest =>
        rw [boundary c rfl, splitChars_append_cons]
        exact List.prefix_append _ _

theorem startsWith_iff {key start : String} :
    StartsWith key start ↔
      ∃ rest, key = start ++ rest ∧ ∀ c ∈ rest.toList.head?, c = separator := by
  have chars : StartsWith key start ↔ splitChars start.toList <+: splitChars key.toList := by
    rw [StartsWith, segments, segments, List.prefix_map_iff]
    constructor
    · rintro ⟨front, below, same⟩
      rwa [List.map_injective_iff.2 (fun _ _ => String.ofList_injective) same]
    · exact fun below => ⟨_, below, rfl⟩
  rw [chars, splitChars_prefix_iff]
  constructor
  · rintro ⟨rest, whole, boundary⟩
    refine ⟨String.ofList rest, ?_, by rwa [String.toList_ofList]⟩
    rw [← String.toList_inj, String.toList_append, String.toList_ofList, whole]
  · rintro ⟨rest, rfl, boundary⟩
    exact ⟨rest.toList, String.toList_append, boundary⟩

theorem StartsWith.eq_of_startsWith {key start : String} (below : StartsWith key start)
    (above : StartsWith start key) : start = key :=
  segments_injective (below.eq_of_length_le above.length_le)

/-! ## Cuts -/

theorem mem_cutChars {before text start rest : List Char} :
    (start, rest) ∈ cutChars before text ↔
      ∃ middle, start = before.reverse ++ middle ∧ text = middle ++ rest ∧
        ∀ c ∈ rest.head?, c = separator := by
  induction text generalizing before with
  | nil =>
      rw [cutChars, List.mem_singleton, Prod.mk.injEq]
      constructor
      · rintro ⟨rfl, rfl⟩
        exact ⟨[], by simp⟩
      · rintro ⟨middle, rfl, whole, -⟩
        obtain ⟨rfl, rfl⟩ := List.append_eq_nil_iff.1 whole.symm
        simp
  | cons c text ih =>
      rw [cutChars, List.mem_append, ih]
      constructor
      · rintro (⟨middle, rfl, rfl, boundary⟩ | here)
        · exact ⟨c :: middle, by simp, rfl, boundary⟩
        · split at here
          · next point =>
              obtain ⟨rfl, rfl⟩ := Prod.mk.inj (List.mem_singleton.1 here)
              exact ⟨[], by simp, rfl, by simpa using point⟩
          · cases here
      · rintro ⟨middle, rfl, whole, boundary⟩
        cases middle with
        | nil =>
            rw [List.nil_append] at whole
            subst whole
            rw [if_pos (boundary c rfl), List.append_nil]
            exact .inr List.mem_cons_self
        | cons first middle =>
            obtain ⟨rfl, rfl⟩ := List.cons.inj whole
            exact .inl ⟨middle, by simp, rfl, boundary⟩

/-- The longest start comes first. -/
theorem pairwise_cutChars (before text : List Char) :
    (cutChars before text).Pairwise fun longer shorter => shorter.1.length < longer.1.length := by
  induction text generalizing before with
  | nil => exact List.pairwise_singleton _ _
  | cons c text ih =>
      refine List.pairwise_append.2 ⟨ih _, ?_, ?_⟩
      · split
        · exact List.pairwise_singleton _ _
        · exact .nil
      · rintro ⟨start, rest⟩ mem other here
        obtain ⟨middle, rfl, -, -⟩ := mem_cutChars.1 mem
        split at here
        · rw [List.mem_singleton.1 here]
          simp
        · cases here

theorem mem_cuts {key start rest : String} :
    (start, rest) ∈ cuts key ↔ key = start ++ rest ∧ StartsWith key start := by
  rw [cuts, List.mem_map]
  constructor
  · rintro ⟨⟨front, back⟩, mem, same⟩
    obtain ⟨rfl, rfl⟩ := Prod.mk.inj same
    obtain ⟨_, rfl, whole, boundary⟩ := mem_cutChars.1 mem
    have split : key = String.ofList front ++ String.ofList back := by
      rw [← String.toList_inj, String.toList_append, String.toList_ofList, String.toList_ofList,
        whole]
    exact ⟨split, startsWith_iff.2 ⟨_, split, by rwa [String.toList_ofList]⟩⟩
  · rintro ⟨rfl, starts⟩
    obtain ⟨rest', same, boundary⟩ := startsWith_iff.1 starts
    obtain rfl : rest = rest' := by
      rw [← String.toList_inj, String.toList_append, String.toList_append] at same
      exact String.toList_inj.1 (List.append_cancel_left same)
    refine ⟨(start.toList, rest.toList), mem_cutChars.2 ⟨start.toList, by simp, ?_, boundary⟩, ?_⟩
    · rw [String.toList_append]
    · simp

theorem pairwise_cuts (key : String) :
    (cuts key).Pairwise fun longer shorter => shorter.1.length < longer.1.length := by
  refine List.pairwise_map.2 ((pairwise_cutChars [] key.toList).imp fun shorter => ?_)
  simpa [String.length_ofList] using shorter

/-- Of two starts of a key, the shorter one is a start of the other. -/
theorem StartsWith.of_length_lt {key longer shorter : String} (starts : StartsWith key longer)
    (other : StartsWith key shorter) (length : shorter.length < longer.length) :
    StartsWith longer shorter := by
  rcases List.prefix_or_prefix_of_prefix starts other with above | below
  · obtain ⟨rest, rfl, -⟩ := startsWith_iff.1 above
    rw [String.length_append] at length
    omega
  · exact below

end FlatKey

open FlatKey (StartsWith)

namespace KeyMapping

variable {mapping other : KeyMapping} {key start : String} {outcome : Option String}

/-- The longest start of a key that the mapping knows. -/
structure LongestStart (mapping : KeyMapping) (key start : String) : Prop where
  starts : StartsWith key start
  mapped : start ∈ Members.keys mapping
  longest : ∀ other ∈ Members.keys mapping, StartsWith key other → StartsWith start other

/-- What becomes of a key. -/
inductive Renames (mapping : KeyMapping) (key : String) : Option String → Prop
  | kept (unmapped : ∀ start ∈ Members.keys mapping, ¬ StartsWith key start) :
      Renames mapping key (some key)
  | dropped {start : String} (longest : mapping.LongestStart key start)
      (maps : Members.get? mapping start = some none) : Renames mapping key none
  | renamed {start rest target : String} (longest : mapping.LongestStart key start)
      (maps : Members.get? mapping start = some (some target)) (whole : key = start ++ rest) :
      Renames mapping key (some (target ++ rest))

theorem LongestStart.unique {start' : String} (longest : mapping.LongestStart key start)
    (longest' : mapping.LongestStart key start') : start = start' :=
  (longest'.longest start longest.mapped longest.starts).eq_of_startsWith
    (longest.longest start' longest'.mapped longest'.starts)

theorem Renames.unique {outcome' : Option String} (renames : mapping.Renames key outcome)
    (renames' : mapping.Renames key outcome') : outcome = outcome' := by
  cases renames with
  | kept unmapped =>
      cases renames' with
      | kept => rfl
      | dropped longest | renamed longest =>
          exact absurd longest.starts (unmapped _ longest.mapped)
  | dropped longest maps =>
      cases renames' with
      | kept unmapped => exact absurd longest.starts (unmapped _ longest.mapped)
      | dropped => rfl
      | renamed longest' maps' =>
          obtain rfl := longest.unique longest'
          rw [maps] at maps'
          cases maps'
  | renamed longest maps whole =>
      cases renames' with
      | kept unmapped => exact absurd longest.starts (unmapped _ longest.mapped)
      | dropped longest' maps' =>
          obtain rfl := longest.unique longest'
          rw [maps] at maps'
          cases maps'
      | renamed longest' maps' whole' =>
          obtain rfl := longest.unique longest'
          rw [maps, Option.some.injEq, Option.some.injEq] at maps'
          have rest := congrArg String.toList (whole.symm.trans whole')
          rw [String.toList_append, String.toList_append, List.append_cancel_left_eq,
            String.toList_inj] at rest
          rw [maps', rest]

theorem mem_keys_of_get? {target : Option String}
    (found : Members.get? mapping start = some target) : start ∈ Members.keys mapping :=
  Members.mem_keys_iff_exists_get?.2 ⟨target, found⟩

theorem rename?_eq (mapping : KeyMapping) (key : String) :
    mapping.rename? key =
      ((FlatKey.cuts key).findSome? fun cut =>
        (Members.get? mapping cut.1).map fun target => target.map (· ++ cut.2)).getD
          (some key) := rfl

theorem renames_rename? (mapping : KeyMapping) (key : String) :
    mapping.Renames key (mapping.rename? key) := by
  rw [rename?_eq]
  cases found : (FlatKey.cuts key).findSome? fun cut =>
      (Members.get? mapping cut.1).map fun target => target.map (· ++ cut.2) with
  | none =>
      refine .kept fun start mapped starts => ?_
      obtain ⟨rest, whole, -⟩ := FlatKey.startsWith_iff.1 starts
      obtain ⟨target, held⟩ := Members.mem_keys_iff_exists_get?.1 mapped
      have free := List.findSome?_eq_none_iff.1 found _ (FlatKey.mem_cuts.2 ⟨whole, starts⟩)
      simp [held] at free
  | some outcome =>
      obtain ⟨longer, ⟨start, rest⟩, shorter, cuts, here, free⟩ :=
        List.findSome?_eq_some_iff.1 found
      have mem : (start, rest) ∈ FlatKey.cuts key := by simp [cuts]
      obtain ⟨whole, starts⟩ := FlatKey.mem_cuts.1 mem
      obtain ⟨target, held, made⟩ := Option.map_eq_some_iff.1 here
      have longest : mapping.LongestStart key start := by
        refine ⟨starts, mem_keys_of_get? held, fun other mapped starts' => ?_⟩
        obtain ⟨rest', whole', -⟩ := FlatKey.startsWith_iff.1 starts'
        obtain ⟨target', held'⟩ := Members.mem_keys_iff_exists_get?.1 mapped
        have cut := FlatKey.mem_cuts.2 ⟨whole', starts'⟩
        have order := FlatKey.pairwise_cuts key
        rw [cuts, List.mem_append, List.mem_cons] at cut
        rw [cuts, List.pairwise_append, List.pairwise_cons] at order
        rcases cut with before | same | after
        · simpa [held'] using free _ before
        · cases same
          exact List.prefix_refl _
        · exact starts.of_length_lt starts' (order.2.1.1 _ after)
      rw [Option.getD_some, ← made]
      cases target with
      | none => exact .dropped longest held
      | some target => exact .renamed longest held whole

theorem renames_iff : mapping.Renames key outcome ↔ mapping.rename? key = outcome :=
  ⟨fun renames => (renames_rename? mapping key).unique renames,
    fun made => made ▸ renames_rename? mapping key⟩

theorem rename?_of_reordered (same : Members.Reordered mapping other) :
    other.rename? = mapping.rename? := by
  funext key
  simp only [rename?_eq, same.get?_eq]

/-- The entries of a flat map under their new names, without those that are dropped. -/
def moved (mapping : KeyMapping) (flat : FlatMap) : List (String × Json) :=
  flat.filterMap fun entry => (mapping.rename? entry.1).map fun name => (name, entry.2)

theorem align_eq_ofList_moved (mapping : KeyMapping) (flat : FlatMap) :
    mapping.align flat = Members.ofList (mapping.moved flat) := rfl

/-- A mapping of each key to itself renames nothing. -/
theorem rename?_of_identity (identity : ∀ entry ∈ mapping, entry.2 = some entry.1)
    (key : String) : mapping.rename? key = some key := by
  cases made : mapping.rename? key with
  | none =>
      cases renames_iff.2 made with
      | dropped longest maps =>
          cases identity _ (Members.mem_of_get?_eq_some maps)
  | some name =>
      cases renames_iff.2 made with
      | kept => rfl
      | renamed longest maps whole =>
          have same := identity _ (Members.mem_of_get?_eq_some maps)
          rw [Option.some.injEq] at same
          rw [same, ← whole]

theorem align_of_identity (identity : ∀ entry ∈ mapping, entry.2 = some entry.1) {flat : FlatMap}
    (distinct : (Members.keys flat).Nodup) : mapping.align flat = flat := by
  have same : mapping.moved flat = flat := by simp [moved, rename?_of_identity identity]
  rw [align_eq_ofList_moved, same, Members.ofList_eq_self distinct]

end KeyMapping

namespace Candidate

/-- Each key is renamed by the longest of its starts that is mapped, in whatever order the
mapping is; of several entries under one new name the first has its place and the last its
value.  Without a mapping, and with one that is empty or maps each key to itself, nothing is
renamed. -/
theorem aligned_by_longest_mapped_start (candidate : Candidate)
    (distinct : (Members.keys candidate.state.parsed).Nodup) :
    (∀ mapping, candidate.state.keyMapping = some mapping →
      (∀ key outcome, mapping.Renames key outcome ↔ mapping.rename? key = outcome) ∧
      (∀ other, Members.Reordered mapping other →
        KeyMapping.rename? other = KeyMapping.rename? mapping) ∧
      ∃ aligned, candidate.aligned = Json.unflatten aligned ∧
        Members.keys aligned = (Members.keys (mapping.moved candidate.state.parsed)).eraseDups ∧
        ∀ name, Members.get? aligned name =
          Members.get? (mapping.moved candidate.state.parsed).reverse name) ∧
      ((∀ mapping, candidate.state.keyMapping = some mapping →
          ∀ entry ∈ mapping, entry.2 = some entry.1) →
        candidate.aligned = candidate.parsed) := by
  refine ⟨fun mapping given => ⟨fun _ _ => KeyMapping.renames_iff,
    fun _ same => KeyMapping.rename?_of_reordered same,
    mapping.align candidate.state.parsed, ?_, Members.keys_ofList _, Members.get?_ofList _⟩,
    fun identity => ?_⟩
  · rw [aligned, given]
  · rw [aligned]
    split
    · rfl
    · next mapping given =>
        rw [KeyMapping.align_of_identity (identity mapping given) distinct, parsed]

/-- A mapping with a dropped key between two renamed ones, and one of the empty key. -/
def nested : Candidate where
  index := 0
  state :=
    { parsed := [("a.k", .nat 1), ("a.b.d", .nat 2), ("a.b.c.e", .nat 3), ("ab", .nat 4),
        (".q", .nat 5), ("x.k", .nat 6)]
      keyMapping :=
        some [("", some "z"), ("a", some "x"), ("a.b", none), ("a.b.c", some "y")] }

theorem nested_aligned_by_longest_mapped_start :
    (Members.keys nested.state.parsed).Nodup ∧
      ∃ aligned, nested.aligned = Json.unflatten aligned ∧
        Members.keys aligned = ["x.k", "y.e", "ab", "z.q"] ∧
        Members.get? aligned "x.k" = some (.nat 6) := by
  have distinct : (Members.keys nested.state.parsed).Nodup := by decide
  obtain ⟨renamed, -⟩ := aligned_by_longest_mapped_start nested distinct
  obtain ⟨-, -, aligned, rebuilt, names, values⟩ := renamed _ rfl
  exact ⟨distinct, aligned, rebuilt, names.trans (by decide), (values "x.k").trans (by decide)⟩

end Candidate

end SchemaStream
