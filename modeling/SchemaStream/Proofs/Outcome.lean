import Mathlib.Data.List.Forall2
import Mathlib.Data.Option.Defs

/-!
# Outcomes of computations that may fail

What a sequence or a traversal gave when it succeeded; and when two computations agree:
both fail with one fault, or both succeed and the results are related.
-/

namespace SchemaStream

namespace Outcome

variable {ε α α' β β' : Type}

theorem ok_bind (value : α) (next : α → Except ε β) : (Except.ok value >>= next) = next value :=
  rfl

theorem bind_eq_ok_iff {first : Except ε α} {next : α → Except ε β} {result : β} :
    (first >>= next) = .ok result ↔ ∃ value, first = .ok value ∧ next value = .ok result := by
  cases first with
  | error fault => exact ⟨nofun, nofun⟩
  | ok value => simp [bind, Except.bind]

theorem map_eq_ok_iff {first : Except ε α} {f : α → β} {result : β} :
    (f <$> first) = .ok result ↔ ∃ value, first = .ok value ∧ f value = result := by
  cases first with
  | error fault => exact ⟨nofun, nofun⟩
  | ok value => simp [Functor.map, Except.map]

theorem exists_of_forall₂ {R : α → β → Prop} {list : List α} {others : List β}
    (h : List.Forall₂ R list others) {value : α} (mem : value ∈ list) :
    ∃ other ∈ others, R value other := by
  induction h with
  | nil => exact absurd mem List.not_mem_nil
  | cons first rest ih =>
      rcases List.mem_cons.1 mem with rfl | mem
      · exact ⟨_, List.mem_cons_self, first⟩
      · obtain ⟨other, below, related⟩ := ih mem
        exact ⟨other, List.mem_cons_of_mem _ below, related⟩

theorem mapM_eq_ok_iff {f : α → Except ε β} {list : List α} {results : List β} :
    list.mapM f = .ok results ↔
      List.Forall₂ (fun value result => f value = .ok result) list results := by
  induction list generalizing results with
  | nil =>
      cases results with
      | nil => exact ⟨fun _ => .nil, fun _ => rfl⟩
      | cons => exact ⟨nofun, nofun⟩
  | cons value rest ih =>
      rw [List.mapM_cons, bind_eq_ok_iff]
      constructor
      · rintro ⟨result, first, others⟩
        obtain ⟨more, tail, last⟩ := bind_eq_ok_iff.1 others
        cases last
        exact .cons first (ih.1 tail)
      · intro h
        cases h with
        | cons first tail => exact ⟨_, first, bind_eq_ok_iff.2 ⟨_, ih.2 tail, rfl⟩⟩

/-- A traversal succeeds if each of its steps does. -/
theorem exists_mapM {f : α → Except ε β} {list : List α}
    (each : ∀ value ∈ list, ∃ result, f value = .ok result) :
    ∃ results, list.mapM f = .ok results := by
  induction list with
  | nil => exact ⟨[], rfl⟩
  | cons value rest ih =>
      rw [List.forall_mem_cons] at each
      obtain ⟨result, first⟩ := each.1
      obtain ⟨results, others⟩ := ih each.2
      exact ⟨result :: results, mapM_eq_ok_iff.2 (.cons first (mapM_eq_ok_iff.1 others))⟩

theorem optionMapM_eq_ok_iff {f : α → Except ε β} {value : Option α} {result : Option β} :
    value.mapM f = .ok result ↔
      List.Forall₂ (fun value result => f value = .ok result) value.toList result.toList := by
  cases value with
  | none =>
      cases result with
      | none => exact ⟨fun _ => .nil, fun _ => rfl⟩
      | some result => exact ⟨nofun, nofun⟩
  | some value =>
      change (some <$> f value) = .ok result ↔ _
      rw [map_eq_ok_iff]
      cases result with
      | none => simp
      | some result => simp

theorem optionMapM_congr {f g : α → Option β} {list : List α}
    (same : ∀ value ∈ list, f value = g value) : list.mapM f = list.mapM g := by
  induction list with
  | nil => rfl
  | cons value rest ih =>
      rw [List.forall_mem_cons] at same
      rw [List.mapM_cons, List.mapM_cons, same.1, ih same.2]

theorem mapM_eq_some_map {f : α → Option β} {g : α → β} {list : List α}
    (each : ∀ value ∈ list, f value = some (g value)) : list.mapM f = some (list.map g) := by
  induction list with
  | nil => rfl
  | cons value rest ih =>
      rw [List.forall_mem_cons] at each
      rw [List.mapM_cons, each.1, ih each.2]
      rfl

theorem rel_imp {R S : α → β → Prop} {first : Option α} {second : Option β}
    (h : Option.Rel R first second)
    (step : ∀ value other, first = some value → second = some other → R value other →
      S value other) : Option.Rel S first second := by
  cases h with
  | none => exact .none
  | some related => exact .some (step _ _ rfl rfl related)

theorem bind_congr_ok {first : Except ε α} {next next' : α → Except ε β}
    (same : ∀ value, first = .ok value → next value = next' value) :
    first >>= next = first >>= next' := by
  cases first with
  | error fault => rfl
  | ok value => exact same value rfl

theorem length_of_mapM {f : α → Except ε β} {list : List α} {results : List β}
    (h : list.mapM f = .ok results) : list.length = results.length :=
  (mapM_eq_ok_iff.1 h).length_eq

/-! ## Computations that may also not end -/

theorem bind_of_run {first : ExceptT ε Option α} {value : α}
    (h : first.run = some (.ok value)) (next : α → ExceptT ε Option β) :
    first >>= next = next value := by
  change first = some (.ok value) at h
  rw [h]
  rfl

theorem run_bind_of_fault {first : ExceptT ε Option α} {fault : ε}
    (h : first.run = some (.error fault)) (next : α → ExceptT ε Option β) :
    (first >>= next).run = some (.error fault) := by
  rw [ExceptT.run_bind, h]
  rfl

/-- Let go deep enough, a computation ends with the outcome. -/
def Ends (run : Nat → ExceptT ε Option α) (outcome : Except ε α) : Prop :=
  ∃ least, ∀ depth ≥ least, (run depth).run = some outcome

namespace Ends

variable {run run' : Nat → ExceptT ε Option α} {next : Nat → α → ExceptT ε Option β}

theorem unique {outcome other : Except ε α} (ends : Ends run outcome) (ends' : Ends run other) :
    outcome = other := by
  obtain ⟨least, same⟩ := ends
  obtain ⟨least', same'⟩ := ends'
  exact Option.some.inj ((same _ (Nat.le_max_left least least')).symm.trans
    (same' _ (Nat.le_max_right least least')))

theorem of_succ {outcome : Except ε α} (same : ∀ depth, (run (depth + 1)).run = some outcome) :
    Ends run outcome := by
  refine ⟨1, fun depth enough => ?_⟩
  obtain ⟨depth, rfl⟩ : ∃ below, depth = below + 1 := ⟨depth - 1, by omega⟩
  exact same depth

/-- A computation that from some depth on is another, one level down. -/
theorem succ {outcome : Except ε α} (step : ∃ least, ∀ depth ≥ least, run (depth + 1) = run' depth)
    (ends : Ends run' outcome) : Ends run outcome := by
  obtain ⟨least, step⟩ := step
  obtain ⟨least', ends⟩ := ends
  refine ⟨max least least' + 1, fun depth enough => ?_⟩
  obtain ⟨depth, rfl⟩ : ∃ below, depth = below + 1 := ⟨depth - 1, by omega⟩
  rw [step depth (by omega), ends depth (by omega)]

theorem bind {value : α} {outcome : Except ε β} (first : Ends run (.ok value))
    (second : Ends (fun depth => next depth value) outcome) :
    Ends (fun depth => run depth >>= next depth) outcome := by
  obtain ⟨least, first⟩ := first
  obtain ⟨least', second⟩ := second
  refine ⟨max least least', fun depth enough => ?_⟩
  dsimp only
  rw [bind_of_run (first depth (by omega))]
  exact second depth (by omega)

theorem pure (value : α) : Ends (fun _ => (Pure.pure value : ExceptT ε Option α)) (.ok value) :=
  ⟨0, fun _ _ => rfl⟩

/-- A traversal ends if each of its steps does. -/
theorem mapM {γ : Type} {run : Nat → γ → ExceptT ε Option α} {result : γ → α} {list : List γ}
    (each : ∀ value ∈ list, Ends (fun depth => run depth value) (.ok (result value))) :
    Ends (fun depth => list.mapM (run depth)) (.ok (list.map result)) := by
  induction list with
  | nil => exact pure []
  | cons value rest ih =>
      rw [List.forall_mem_cons] at each
      simp only [List.mapM_cons]
      exact each.1.bind ((ih each.2).bind (pure _))

theorem bind_fault {fault : ε} (first : Ends run (.error fault)) :
    Ends (fun depth => run depth >>= next depth) (.error fault) := by
  obtain ⟨least, first⟩ := first
  exact ⟨least, fun depth enough => run_bind_of_fault (first depth enough) (next depth)⟩

end Ends

/-- Let go deep enough, a computation without faults gives the value. -/
def Settles (run : Nat → Option α) (value : α) : Prop :=
  ∃ least, ∀ depth ≥ least, run depth = some value

namespace Settles

variable {σ : Type} {run run' : Nat → Option α}

theorem unique {value other : α} (settles : Settles run value) (settles' : Settles run other) :
    value = other := by
  obtain ⟨least, same⟩ := settles
  obtain ⟨least', same'⟩ := settles'
  exact Option.some.inj ((same _ (Nat.le_max_left least least')).symm.trans
    (same' _ (Nat.le_max_right least least')))

theorem pure (value : α) : Settles (fun _ => some value) value := ⟨0, fun _ _ => rfl⟩

theorem of_eq {value : α} (same : ∀ depth, run depth = some value) : Settles run value :=
  ⟨0, fun depth _ => same depth⟩

/-- A computation that from some depth on is another, one level down. -/
theorem succ {value : α} (step : ∀ depth, run (depth + 1) = run' depth)
    (settles : Settles run' value) : Settles run value := by
  obtain ⟨least, settles⟩ := settles
  refine ⟨least + 1, fun depth enough => ?_⟩
  obtain ⟨depth, rfl⟩ : ∃ below, depth = below + 1 := ⟨depth - 1, by omega⟩
  rw [step depth, settles depth (by omega)]

theorem bind {next : Nat → α → Option β} {value : α} {result : β} (first : Settles run value)
    (second : Settles (fun depth => next depth value) result) :
    Settles (fun depth => run depth >>= next depth) result := by
  obtain ⟨least, first⟩ := first
  obtain ⟨least', second⟩ := second
  refine ⟨max least least', fun depth enough => ?_⟩
  dsimp only
  rw [first depth (by omega)]
  exact second depth (by omega)

theorem map {value : α} (settles : Settles run value) (f : α → β) :
    Settles (fun depth => (run depth).map f) (f value) := by
  obtain ⟨least, settles⟩ := settles
  exact ⟨least, fun depth enough => congrArg (Option.map f) (settles depth enough)⟩

/-- A traversal gives a value if each of its steps does. -/
theorem mapM {γ : Type} {run : Nat → γ → Option α} {result : γ → α} {list : List γ}
    (each : ∀ value ∈ list, Settles (fun depth => run depth value) (result value)) :
    Settles (fun depth => list.mapM (run depth)) (list.map result) := by
  induction list with
  | nil => exact pure []
  | cons value rest ih =>
      rw [List.forall_mem_cons] at each
      simp only [List.mapM_cons]
      exact each.1.bind ((ih each.2).bind (pure _))

/-- One step after another, the second on the state that the first leaves. -/
theorem run_bind {first : Nat → StateT σ Option α} {next : Nat → α → StateT σ Option β}
    {start mid : σ} {value : α} {result : β × σ}
    (settles : Settles (fun depth => (first depth).run start) (value, mid))
    (settles' : Settles (fun depth => (next depth value).run mid) result) :
    Settles (fun depth => (first depth >>= next depth).run start) result := by
  simp only [StateT.run_bind]
  exact settles.bind settles'

end Settles

/-- A computation that has an outcome wherever another has it. -/
def Extends (run run' : ExceptT ε Option α) : Prop :=
  ∀ outcome, run.run = some outcome → run'.run = some outcome

namespace Extends

variable {run run' : ExceptT ε Option α}

theorem refl (run : ExceptT ε Option α) : Extends run run := fun _ ran => ran

theorem none (run : ExceptT ε Option α) : Extends (ExceptT.lift Option.none) run := nofun

theorem bind {next next' : α → ExceptT ε Option β} (first : Extends run run')
    (rest : ∀ value, Extends (next value) (next' value)) :
    Extends (run >>= next) (run' >>= next') := by
  intro outcome ran
  cases started : run.run with
  | none =>
      rw [ExceptT.run_bind, started] at ran
      cases ran
  | some result =>
      cases result with
      | error fault =>
          rw [run_bind_of_fault started] at ran
          exact (run_bind_of_fault (first _ started) next').trans ran
      | ok value =>
          rw [bind_of_run started] at ran
          rw [bind_of_run (first _ started)]
          exact rest value outcome ran

theorem foldlM {γ : Type} {step step' : α → γ → ExceptT ε Option α} {list : List γ}
    (each : ∀ value item, Extends (step value item) (step' value item)) (start : α) :
    Extends (list.foldlM step start) (list.foldlM step' start) := by
  induction list generalizing start with
  | nil => exact refl _
  | cons item rest ih =>
      rw [List.foldlM_cons, List.foldlM_cons]
      exact (each start item).bind ih

end Extends

theorem Ends.extend {run run' : Nat → ExceptT ε Option α} {outcome : Except ε α}
    (ends : Ends run outcome) (wider : ∀ depth, Extends (run depth) (run' depth)) :
    Ends run' outcome := by
  obtain ⟨least, ends⟩ := ends
  exact ⟨least, fun depth enough => wider depth outcome (ends depth enough)⟩

/-! ## Agreement -/

/-- Both fail with one fault, or both succeed with related results. -/
inductive Agrees (R : α → β → Prop) : Except ε α → Except ε β → Prop
  | error (fault : ε) : Agrees R (.error fault) (.error fault)
  | ok {value : α} {other : β} (related : R value other) : Agrees R (.ok value) (.ok other)

namespace Agrees

variable {R : α → α' → Prop} {S : β → β' → Prop}

@[simp] theorem ok_iff {value : α} {other : α'} :
    Agrees (ε := ε) R (.ok value) (.ok other) ↔ R value other :=
  ⟨fun h => by cases h; assumption, .ok⟩

theorem exists_of_ok_left {value : α} {second : Except ε α'} (h : Agrees R (.ok value) second) :
    ∃ other, second = .ok other ∧ R value other := by
  cases h with
  | ok related => exact ⟨_, rfl, related⟩

theorem eq_error_left {fault : ε} {first : Except ε α} (h : Agrees R first (.error fault)) :
    first = .error fault := by
  cases h with
  | error => rfl

theorem eq_error_right {fault : ε} {second : Except ε α'} (h : Agrees R (.error fault) second) :
    second = .error fault := by
  cases h with
  | error => rfl

theorem exists_of_ok_right {first : Except ε α} {other : α'} (h : Agrees R first (.ok other)) :
    ∃ value, first = .ok value ∧ R value other := by
  cases h with
  | ok related => exact ⟨_, rfl, related⟩

theorem of_eq {first second : Except ε α} {R : α → α → Prop} (same : first = second)
    (refl : ∀ value, first = .ok value → R value value) : Agrees R first second := by
  subst same
  cases first with
  | error fault => exact .error fault
  | ok value => exact .ok (refl value rfl)

theorem eq {first second : Except ε α} (h : Agrees Eq first second) : first = second := by
  cases h with
  | error fault => rfl
  | ok related => rw [related]

theorem imp {T : α → α' → Prop} {first : Except ε α} {second : Except ε α'}
    (h : Agrees R first second)
    (weaken : ∀ value other, first = .ok value → second = .ok other → R value other →
      T value other) : Agrees T first second := by
  cases h with
  | error fault => exact .error fault
  | ok related => exact .ok (weaken _ _ rfl rfl related)

theorem bind {first : Except ε α} {second : Except ε α'} {next : α → Except ε β}
    {next' : α' → Except ε β'} (h : Agrees R first second)
    (step : ∀ value other, R value other → Agrees S (next value) (next' other)) :
    Agrees S (first >>= next) (second >>= next') := by
  cases h with
  | error fault => exact .error fault
  | ok related => exact step _ _ related

theorem mapM {f : α → Except ε β} {g : α' → Except ε β'} {list : List α} {others : List α'}
    (h : List.Forall₂ (fun value other => Agrees S (f value) (g other)) list others) :
    Agrees (List.Forall₂ S) (list.mapM f) (others.mapM g) := by
  induction h with
  | nil => exact .ok .nil
  | cons first rest ih =>
      rw [List.mapM_cons, List.mapM_cons]
      refine first.bind fun result other related => ?_
      exact ih.bind fun results others more => .ok (.cons related more)

theorem optionMapM {f : α → Except ε β} {g : α' → Except ε β'} {value : Option α}
    {other : Option α'}
    (h : List.Forall₂ (fun value other => Agrees S (f value) (g other))
      value.toList other.toList) :
    Agrees (fun result result' : Option _ => List.Forall₂ S result.toList result'.toList)
      (value.mapM f) (other.mapM g) := by
  cases value with
  | none =>
      cases other with
      | none => exact .ok .nil
      | some other => exact absurd h.length_eq (by simp)
  | some value =>
      cases other with
      | none => exact absurd h.length_eq (by simp)
      | some other =>
          have first : Agrees S (f value) (g other) := by simpa using h
          exact first.bind fun result other related => .ok (.cons related .nil)

end Agrees

end Outcome

end SchemaStream
