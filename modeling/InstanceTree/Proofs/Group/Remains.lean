import InstanceTree.Proofs.Group.Removal

namespace InstanceTree

open Forest

/-- What may be left of an anchor: the anchor, with an index of the same members or without one, or
nothing at all. -/
inductive Remains (ctx : Context) : Option Anchor → Option Anchor → Prop where
  | gone (x : Option Anchor) : Remains ctx x none
  | bare (x : Anchor) : Remains ctx (some x) (some ⟨none⟩)
  | index {kind : SortKind} {g : List NodeId} {i j : Index} : i.Has ctx kind g →
      j.Has ctx kind g → Remains ctx (some ⟨some i⟩) (some ⟨some j⟩)

def Erodes (ctx : Context) (a b : NodeId → Option Anchor) : Prop :=
  ∀ m, Remains ctx (a m) (b m)

theorem Index.Has.unique {ctx : Context} {kind kind' : SortKind} {g g' : List NodeId} {i : Index}
    (h : i.Has ctx kind g) (h' : i.Has ctx kind' g') : kind' = kind ∧ g' = g :=
  ⟨h'.kind_eq.symm.trans h.kind_eq, Except.ok.inj (h'.members_eq.symm.trans h.members_eq)⟩

namespace Remains

variable {ctx : Context} {kind : SortKind} {g : List NodeId} {x y x' y' : Option Anchor}

theorem none_eq (h : Remains ctx none y) : y = none := by
  cases h
  rfl

theorem drops (h : Remains ctx x y) : Drops y := by
  cases h with
  | gone => exact drops_none
  | bare => exact drops_bare
  | index _ hj => exact hj.drops

theorem ensured (h : Remains ctx x y) : Remains ctx (some (x.getD {})) (some (y.getD {})) := by
  cases h with
  | gone x => exact .bare _
  | bare x => exact .bare _
  | index hi hj => exact .index hi hj

theorem sheds (h : Remains ctx x y) (hx : Sheds ctx kind g x x') (hy : Sheds ctx kind g y y') :
    Remains ctx x' y' := by
  cases h with
  | gone x =>
    cases (show y' = none from hy)
    exact .gone x'
  | bare x =>
    cases (show y' = some ⟨none⟩ from hy)
    obtain ⟨_ | i⟩ := x
    · cases (show x' = some ⟨none⟩ from hx)
      exact .bare _
    · obtain ⟨i', -, rfl⟩ := hx
      exact .bare _
  | index =>
    obtain ⟨i, hi, rfl⟩ := hx
    obtain ⟨j, hj, rfl⟩ := hy
    rw [hi.count_eq, hj.count_eq]
    split
    · exact .bare _
    · exact .index hi hj

end Remains

section Led

variable {ctx : Context} {kind : SortKind} {g g' : List NodeId}
  {a b a' b' : NodeId → Option Anchor} {m : NodeId}

/-- Two anchors that a group should have differ by no more than the shape of their indexes. -/
theorem Led.remains (ha : Led ctx kind g a) (hb : Led ctx kind g b) (hm : m ∈ g) :
    Remains ctx (a m) (b m) := by
  have hrest := hb m hm
  split at hrest
  · next hlead =>
    obtain ⟨⟨x⟩, hx, hxs⟩ := ha.leader_eq hlead.1 hlead.2
    obtain ⟨⟨y⟩, hy, hys⟩ := hrest
    rw [hx, hy]
    cases y with
    | none => exact .bare _
    | some j =>
      obtain ⟨hlen, hj⟩ := indexes_some.1 hys
      cases x with
      | none =>
        have hone : g.length = 1 := hxs
        omega
      | some i => exact .index (indexes_some.1 hxs).2 hj
  · rw [hrest]
    exact .gone _

theorem Led.fading_of_erodes (ha : Led ctx kind g a) (h : Erodes ctx a b) :
    Fading ctx kind g b := by
  constructor
  · intro leader j hleader hj
    have hrest := h leader
    rw [hj] at hrest
    generalize hx : a leader = x at hrest
    cases hrest with
    | index hi hj =>
      obtain ⟨rfl, rfl⟩ := hi.unique (ha.fading.index leader _ hleader hx)
      exact hj
  · intro leader m hleader hm hml
    have hrest := h m
    rw [ha.follower_eq hleader hm hml] at hrest
    exact hrest.none_eq

theorem Erodes.update (h : Erodes ctx a b) {x y : Option Anchor} (hxy : Remains ctx x y)
    (n : NodeId) : Erodes ctx (Function.update a n x) (Function.update b n y) := by
  intro m
  by_cases hm : m = n
  · rw [hm, Function.update_self, Function.update_self]
    exact hxy
  · rw [Function.update_of_ne hm, Function.update_of_ne hm]
    exact h m

/-- Of two groups that have lost the same member, the one that had less left of its anchor has less
left of it. -/
theorem Shed.erodes (h : Erodes ctx a b) (ha : Shed ctx kind g g' a a')
    (hb : Shed ctx kind g g' b b') (hgone : ∀ m ∈ g, m ∉ g' → b' m = none) : Erodes ctx a' b' := by
  intro m
  by_cases hm : m ∈ g
  · by_cases hm' : m ∈ g'
    · obtain ⟨leader, rest, rfl⟩ := List.exists_cons_of_ne_nil (List.ne_nil_of_mem hm)
      obtain ⟨l, rest', rfl⟩ := List.exists_cons_of_ne_nil (List.ne_nil_of_mem hm')
      by_cases hml : m = l
      · subst hml
        exact (h leader).sheds (ha.leader leader m rfl rfl) (hb.leader leader m rfl rfl)
      · rw [hb.follower l m rfl hm' hml]
        exact .gone _
    · rw [hgone m hm hm']
      exact .gone _
  · rw [ha.other m hm, hb.other m hm]
    exact h m

end Led

end InstanceTree
