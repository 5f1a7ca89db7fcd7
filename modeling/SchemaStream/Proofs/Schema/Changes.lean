import SchemaStream.Proofs.Schema.Placement
import Mathlib.Data.List.Nodup
import Mathlib.Data.List.Flatten
import Mathlib.Order.Nat

/-!
# Changes of an arena

Copying and expanding put trees into an arena, in the place of others.  Such a change only
touches the places of the trees that give way, and besides these only uses new ones.  Changes
compose, and what they did not touch is stored as before.
-/

namespace SchemaStream

open Placed (places)

/-- Trees that an arena stores, without a place in common. -/
structure Laid (nodes : Nodes) (trees : List Placed) : Prop where
  stored : ∀ tree ∈ trees, Stored nodes tree
  distinct : (trees.flatMap places).Nodup

/-- Trees of the first arena give way to trees of the second, and nothing else changes. -/
structure Changed (nodes nodes' : Nodes) (old new : List Placed) : Prop where
  grows : nodes.size ≤ nodes'.size
  elsewhere : ∀ place < nodes.size, place ∉ old.flatMap places → nodes'[place]? = nodes[place]?
  laid : Laid nodes' new
  own : ∀ place ∈ new.flatMap places, place ∈ old.flatMap places ∨ nodes.size ≤ place

variable {nodes mid nodes' : Nodes} {old old' new new' trees : List Placed} {place : Nat}
  {shape shape' : Shape Placed} {tree : Placed}

namespace Laid

theorem lt_size (laid : Laid nodes trees) : ∀ place ∈ trees.flatMap places, place < nodes.size := by
  intro place mem
  obtain ⟨tree, below, mem⟩ := List.mem_flatMap.1 mem
  exact (laid.stored tree below).lt_size place mem

theorem nil (nodes : Nodes) : Laid nodes [] := ⟨nofun, List.nodup_nil⟩

theorem subperm (laid : Laid nodes trees) (sub : new.Subperm trees) : Laid nodes new := by
  refine ⟨fun tree mem => laid.stored tree (sub.subset mem), ?_⟩
  obtain ⟨list, perm, sub⟩ := sub
  exact (perm.flatMap_right places).nodup_iff.1 ((sub.flatMap places).nodup laid.distinct)

theorem append_left (laid : Laid nodes (old ++ new)) : Laid nodes old :=
  laid.subperm (List.sublist_append_left _ _).subperm

theorem append_right (laid : Laid nodes (old ++ new)) : Laid nodes new :=
  laid.subperm (List.sublist_append_right _ _).subperm

theorem disjoint (laid : Laid nodes (old ++ new)) :
    ∀ place ∈ old.flatMap places, place ∉ new.flatMap places := by
  have distinct := laid.distinct
  rw [List.flatMap_append] at distinct
  exact fun place => (List.disjoint_of_nodup_append distinct ·)

theorem singleton_iff : Laid nodes [.node place shape] ↔
    nodes[place]? = some (shape.map Placed.place) ∧ place ∉ shape.children.flatMap places ∧
      Laid nodes shape.children := by
  constructor
  · intro laid
    obtain ⟨own, below⟩ := Stored.node_iff.1 (laid.stored _ List.mem_cons_self)
    have distinct := laid.distinct
    rw [List.flatMap_singleton, Placed.places_node, List.nodup_cons] at distinct
    exact ⟨own, distinct.1, below, distinct.2⟩
  · rintro ⟨own, outside, laid⟩
    refine ⟨List.forall_mem_singleton.2 (.node own laid.stored), ?_⟩
    rw [List.flatMap_singleton, Placed.places_node, List.nodup_cons]
    exact ⟨outside, laid.distinct⟩

end Laid

namespace Changed

theorem refl (laid : Laid nodes trees) : Changed nodes nodes trees trees :=
  ⟨Nat.le_refl _, fun _ _ _ => rfl, laid, fun _ mem => .inl mem⟩

theorem trans (first : Changed nodes mid old trees) (second : Changed mid nodes' trees new) :
    Changed nodes nodes' old new where
  grows := first.grows.trans second.grows
  elsewhere place low apart := by
    have later : place ∉ trees.flatMap places := fun mem =>
      (first.own place mem).elim apart fun high => by omega
    rw [second.elsewhere place (low.trans_le first.grows) later, first.elsewhere place low apart]
  laid := second.laid
  own place mem := (second.own place mem).elim (first.own place) fun high =>
    .inr (first.grows.trans high)

theorem stored (changed : Changed nodes nodes' old new) (stored : Stored nodes tree)
    (apart : ∀ place ∈ tree.places, place ∉ old.flatMap places) : Stored nodes' tree :=
  stored.congr fun place mem => changed.elsewhere place (stored.lt_size place mem) (apart place mem)

/-- One change after another, each of trees of its own. -/
theorem append (first : Changed nodes mid old new) (second : Changed mid nodes' old' new')
    (laid : Laid nodes (old ++ old')) : Changed nodes nodes' (old ++ old') (new ++ new') where
  grows := first.grows.trans second.grows
  elsewhere place low apart := by
    rw [List.flatMap_append, List.mem_append, not_or] at apart
    rw [second.elsewhere place (low.trans_le first.grows) apart.2,
      first.elsewhere place low apart.1]
  laid := by
    -- New places are in use before the second change, so they are not its new ones.
    have apart (place : Nat) (mem : place ∈ new.flatMap places) : place ∉ old'.flatMap places := by
      rcases first.own place mem with before | fresh
      · exact laid.disjoint place before
      · intro later
        have low := laid.append_right.lt_size place later
        omega
    constructor
    · intro tree mem
      rcases List.mem_append.1 mem with mem | mem
      · refine second.stored (first.laid.stored tree mem) fun place under => ?_
        exact apart place (List.mem_flatMap.2 ⟨tree, mem, under⟩)
      · exact second.laid.stored tree mem
    · rw [List.flatMap_append, List.nodup_append']
      refine ⟨first.laid.distinct, second.laid.distinct, fun place early late => ?_⟩
      rcases second.own place late with before | fresh
      · exact apart place early before
      · have low := first.laid.lt_size place early
        omega
  own place mem := by
    rw [List.flatMap_append, List.mem_append] at mem ⊢
    rcases mem with mem | mem
    · exact (first.own place mem).imp_left .inl
    · exact (second.own place mem).imp .inr first.grows.trans

theorem beside (changed : Changed nodes nodes' old new) (laid : Laid nodes (old ++ trees)) :
    Changed nodes nodes' (old ++ trees) (new ++ trees) := by
  refine changed.append (.refl ⟨fun tree mem => ?_, laid.append_right.distinct⟩) laid
  refine changed.stored (laid.append_right.stored tree mem) fun place under before => ?_
  exact laid.disjoint place before (List.mem_flatMap.2 ⟨tree, mem, under⟩)

theorem keeps (changed : Changed nodes nodes' old new) (laid : Laid nodes (old ++ trees)) :
    Laid nodes' trees :=
  (changed.beside laid).laid.append_right

theorem weaken (changed : Changed nodes nodes' [] new) (old : List Placed) :
    Changed nodes nodes' old new where
  grows := changed.grows
  elsewhere place low _ := changed.elsewhere place low List.not_mem_nil
  laid := changed.laid
  own place mem := (changed.own place mem).imp_left nofun

theorem subperm (changed : Changed nodes nodes' old new) (sub : new'.Subperm new) :
    Changed nodes nodes' old new' where
  grows := changed.grows
  elsewhere := changed.elsewhere
  laid := changed.laid.subperm sub
  own place mem := by
    obtain ⟨tree, below, mem⟩ := List.mem_flatMap.1 mem
    exact changed.own place (List.mem_flatMap.2 ⟨tree, sub.subset below, mem⟩)

theorem children (changed : Changed nodes nodes' old [.node place shape]) :
    Changed nodes nodes' old shape.children where
  grows := changed.grows
  elsewhere := changed.elsewhere
  laid := (Laid.singleton_iff.1 changed.laid).2.2
  own place mem := by
    refine changed.own place ?_
    rw [List.flatMap_singleton, Placed.places_node]
    exact List.mem_cons_of_mem _ mem

/-- A node that stays at its place while what is below it changes. -/
theorem node (changed : Changed nodes mid shape.children shape'.children)
    (laid : Laid nodes [.node place shape]) (size : nodes'.size = mid.size)
    (put : nodes'[place]? = some (shape'.map Placed.place))
    (others : ∀ other, other ≠ place → nodes'[other]? = mid[other]?) :
    Changed nodes nodes' [.node place shape] [.node place shape'] := by
  obtain ⟨own, outside, below⟩ := Laid.singleton_iff.1 laid
  have low : place < nodes.size := (Array.getElem?_eq_some_iff.1 own).1
  have outside' : place ∉ shape'.children.flatMap places := fun mem =>
    (changed.own place mem).elim outside fun high => by omega
  refine ⟨size ▸ changed.grows, ?_, ?_, ?_⟩
  · intro other low apart
    rw [List.flatMap_singleton, Placed.places_node, List.mem_cons, not_or] at apart
    rw [others other apart.1, changed.elsewhere other low apart.2]
  · refine Laid.singleton_iff.2 ⟨put, outside', fun child mem => ?_, changed.laid.distinct⟩
    refine (changed.laid.stored child mem).congr fun other under => others other ?_
    rintro rfl
    exact outside' (List.mem_flatMap.2 ⟨child, mem, under⟩)
  · intro other mem
    rw [List.flatMap_singleton, Placed.places_node, List.mem_cons] at mem ⊢
    rcases mem with rfl | mem
    · exact .inl (.inl rfl)
    · exact (changed.own other mem).imp_left .inr

/-- A node put in the place of another, once what is below it has changed. -/
theorem put (changed : Changed nodes mid shape.children shape'.children)
    (laid : Laid nodes [.node place shape]) :
    Changed nodes (mid.setIfInBounds place (shape'.map Placed.place))
      [.node place shape] [.node place shape'] := by
  have low : place < nodes.size := (Array.getElem?_eq_some_iff.1 (Laid.singleton_iff.1 laid).1).1
  refine changed.node laid Array.size_setIfInBounds ?_ fun other ne => ?_
  · rw [Array.getElem?_setIfInBounds_self_of_lt (low.trans_le changed.grows)]
  · exact Array.getElem?_setIfInBounds_ne ne.symm

/-- A node that stays as it is while what is below it changes. -/
theorem below (changed : Changed nodes nodes' shape.children shape'.children)
    (laid : Laid nodes [.node place shape])
    (same : shape'.map Placed.place = shape.map Placed.place) :
    Changed nodes nodes' [.node place shape] [.node place shape'] := by
  obtain ⟨own, outside, -⟩ := Laid.singleton_iff.1 laid
  have low : place < nodes.size := (Array.getElem?_eq_some_iff.1 own).1
  refine changed.node laid rfl ?_ fun other _ => rfl
  rw [changed.elsewhere place low outside, own, same]

theorem push (changed : Changed nodes mid [] shape.children) :
    Changed nodes (mid.push (shape.map Placed.place)) [] [.node mid.size shape] := by
  have before (place : Nat) (low : place < mid.size) :
      (mid.push (shape.map Placed.place))[place]? = mid[place]? := by
    rw [Array.getElem?_push, if_neg low.ne]
  refine ⟨?_, ?_, ?_, ?_⟩
  · rw [Array.size_push]
    exact changed.grows.trans (Nat.le_succ _)
  · intro place low apart
    rw [before place (low.trans_le changed.grows), changed.elsewhere place low apart]
  · refine Laid.singleton_iff.2 ⟨Array.getElem?_push_size, ?_, ?_, changed.laid.distinct⟩
    · exact fun mem => (changed.laid.lt_size _ mem).false
    · intro child mem
      have stored := changed.laid.stored child mem
      exact stored.congr fun place under => before place (stored.lt_size place under)
  · intro place mem
    rw [List.flatMap_singleton, Placed.places_node, List.mem_cons] at mem
    rcases mem with rfl | mem
    · exact .inr changed.grows
    · exact changed.own place mem

end Changed

end SchemaStream
