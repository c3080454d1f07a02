import InstanceTree.Proofs.Group.Moves

namespace InstanceTree

open Forest

theorem append_inj_of_forall {α : Type} {P : α → Prop} {xs ys xs' ys' : List α}
    (h : xs ++ ys = xs' ++ ys') (hxs : ∀ a ∈ xs, P a) (hys : ∀ a ∈ ys, ¬P a)
    (hxs' : ∀ a ∈ xs', P a) (hys' : ∀ a ∈ ys', ¬P a) : xs = xs' ∧ ys = ys' := by
  rcases List.append_eq_append_iff.1 h with ⟨c, rfl, rfl⟩ | ⟨c, rfl, rfl⟩
  · cases c with
    | nil => simp
    | cons a c => exact absurd (hxs' a (by simp)) (hys a (by simp))
  · cases c with
    | nil => simp
    | cons a c => exact absurd (hxs a (by simp)) (hys' a (by simp))

theorem Forest.exists_cut {f : Forest} {k : Layout} {node : SchemaNode} {g : List NodeId}
    (h : g.Pairwise fun a b => f.rowOrder k node a b ≠ .gt) (n : NodeId) :
    ∃ gx gy, g = gx ++ gy ∧ (∀ m ∈ gx, f.rowOrder k node m n ≠ .gt) ∧
      ∀ m ∈ gy, f.rowOrder k node m n = .gt := by
  induction g with
  | nil => exact ⟨[], [], rfl, by simp, by simp⟩
  | cons a g ih =>
    obtain ⟨ha, hg⟩ := List.pairwise_cons.1 h
    by_cases hgt : f.rowOrder k node a n = .gt
    · refine ⟨[], a :: g, rfl, by simp, ?_⟩
      intro m hm
      rcases List.mem_cons.1 hm with rfl | hm
      · exact hgt
      · apply Decidable.byContradiction
        intro hle
        exact rowOrder_trans (ha m hm) hle hgt
    · obtain ⟨gx, gy, rfl, hgx, hgy⟩ := ih hg
      refine ⟨a :: gx, gy, rfl, ?_, hgy⟩
      intro m hm
      rcases List.mem_cons.1 hm with rfl | hm
      · exact hgt
      · exact hgx m hm

/-- In a sound forest `g` are the instances of `t`, a sorted schema node, below `p`, and they stand
between `as` and `bs`. -/
structure Gathers (ctx : Context) (f : Forest) (k : Layout) (p : Option NodeId)
    (node : SchemaNode) (kind : SortKind) (t : SchemaId) (as g bs : List NodeId) : Prop where
  sound : Sound ctx f k
  built : ctx.schema.Built
  node_eq : ctx.schema.nodes[t]? = some node
  kind_eq : node.sortKind? = some kind
  together : Together (f.isOf t) (k p) as g bs

namespace Gathers

variable {ctx : Context} {f : Forest} {k : Layout} {p : Option NodeId} {node : SchemaNode}
  {kind : SortKind} {t : SchemaId} {as g bs : List NodeId}

theorem group_eq (h : Gathers ctx f k p node kind t as g bs) : f.group k p t = g :=
  h.together.filter_eq

theorem mem_children (h : Gathers ctx f k p node kind t as g bs) {m : NodeId} (hm : m ∈ g) :
    m ∈ k p :=
  (mem_group.1 (h.group_eq ▸ hm)).1

theorem kind?_of_mem (h : Gathers ctx f k p node kind t as g bs) {m : NodeId} (hm : m ∈ g) :
    f.kind? m = some t :=
  (mem_group.1 (h.group_eq ▸ hm)).2

theorem noKey (h : Gathers ctx f k p node kind t as g bs) : ctx.schema.NoKey t :=
  h.built.noKey_of_sorted h.node_eq h.kind_eq

theorem nodup (h : Gathers ctx f k p node kind t as g bs) : g.Nodup := by
  have hnd := (h.sound.laid.nodup p).filter (f.isOf t)
  rwa [show (k p).filter (f.isOf t) = g from h.group_eq] at hnd

theorem exists_get? (h : Gathers ctx f k p node kind t as g bs) {m : NodeId} (hm : m ∈ g) :
    ∃ e, f.get? m = some e := by
  obtain ⟨e, he, -⟩ := get?_of_kind? (h.kind?_of_mem hm)
  exact ⟨e, he⟩

theorem length_le (h : Gathers ctx f k p node kind t as g bs) : g.length ≤ handleCount :=
  h.sound.laid.length_le_handleCount h.nodup fun _ hm => h.exists_get? hm

theorem ascending (h : Gathers ctx f k p node kind t as g bs) :
    g.Pairwise fun a b => f.rowOrder k node a b ≠ .gt := by
  have hasc := h.sound.ascending p t node h.node_eq (by simp [h.kind_eq])
  rwa [h.group_eq] at hasc

theorem led (h : Gathers ctx f k p node kind t as g bs) : Led ctx kind g f.anchorAt := by
  have hled := h.sound.anchored.led p t node kind h.node_eq h.kind_eq
  rwa [h.group_eq] at hled

theorem sorts (h : Gathers ctx f k p node kind t as g bs) (a : NodeId → Option Anchor) :
    RedBlack.Comparator.Sorts ((f.anchored a).compareBy ctx kind) (f.rowOrder k node)
      fun m => f.kind? m = some t := by
  have hsorts := (h.sound.laid.anchored a).sorts h.built (h.sound.keyed.anchored a) h.node_eq
    h.kind_eq
  simpa using hsorts

end Gathers

/-- Into the group `gx ++ gy` of a sorted schema node comes `n`, which stands nowhere and belongs
between `gx` and `gy`. -/
structure Joins (ctx : Context) (f : Forest) (k : Layout) (p : Option NodeId) (node : SchemaNode)
    (kind : SortKind) (n : NodeId) (e : Element) (as gx gy bs : List NodeId) : Prop
    extends Gathers ctx f k p node kind e.schema as (gx ++ gy) bs where
  lives : f.get? n = some e
  loose : e.linked = false
  parent_eq : node.parent = p.bind f.kind?
  ahead : ∀ m ∈ gx, f.rowOrder k node m n ≠ .gt
  behind : ∀ m ∈ gy, f.rowOrder k node m n = .gt

namespace Sound

variable {ctx : Context} {f : Forest} {k : Layout} {p : Option NodeId} {n : NodeId} {e : Element}
  {node : SchemaNode} {kind : SortKind}

theorem exists_joins (h : Sound ctx f k) (hs : ctx.schema.Built) (he : f.get? n = some e)
    (hloose : e.linked = false) (hnode : ctx.schema.nodes[e.schema]? = some node)
    (hkind : node.sortKind? = some kind) (hparent : node.parent = p.bind f.kind?) :
    ∃ as gx gy bs, Joins ctx f k p node kind n e as gx gy bs := by
  obtain ⟨as, bs, htogether⟩ := (h.laid.contiguous p e.schema).together
  have hasc := h.ascending p e.schema node hnode (by simp [hkind])
  obtain ⟨gx, gy, hg, hgx, hgy⟩ := exists_cut hasc n
  rw [show (k p).filter (f.isOf e.schema) = gx ++ gy from hg] at htogether
  exact ⟨as, gx, gy, bs, ⟨h, hs, hnode, hkind, htogether⟩, he, hloose, hparent, hgx, hgy⟩

theorem anchorAt_of_loose (h : Sound ctx f k) (he : f.get? n = some e)
    (hloose : e.linked = false) : f.anchorAt n = none := by
  cases hx : f.anchorAt n with
  | none => rfl
  | some x =>
    obtain ⟨p, t, _, _, _, hn⟩ := h.anchored.only n x hx
    exact absurd (mem_group.1 hn).1 (h.laid.not_mem_of_loose he hloose)

end Sound

namespace Joins

variable {ctx : Context} {f : Forest} {k : Layout} {p : Option NodeId} {node : SchemaNode}
  {kind : SortKind} {n : NodeId} {e : Element} {as gx gy bs : List NodeId}

theorem split (h : Joins ctx f k p node kind n e as gx gy bs) :
    k p = (as ++ gx) ++ (gy ++ bs) := by
  simpa using h.together.eq

theorem kind?_eq (h : Joins ctx f k p node kind n e as gx gy bs) : f.kind? n = some e.schema := by
  simp [kind?, h.lives]

theorem length_lt (h : Joins ctx f k p node kind n e as gx gy bs) :
    (gx ++ gy).length < handleCount := by
  have hnew : n ∉ gx ++ gy := fun hn =>
    h.sound.laid.not_mem_of_loose h.lives h.loose (h.mem_children hn)
  refine h.sound.laid.length_le_handleCount (List.nodup_cons.2 ⟨hnew, h.nodup⟩) fun m hm => ?_
  rcases List.mem_cons.1 hm with rfl | hm
  · exact ⟨e, h.lives⟩
  · exact h.exists_get? hm

theorem anchorAt_eq (h : Joins ctx f k p node kind n e as gx gy bs) : f.anchorAt n = none :=
  h.sound.anchorAt_of_loose h.lives h.loose

theorem beside (h : Joins ctx f k p node kind n e as gx gy bs) :
    Beside (f.isOf e.schema) (as ++ gx) (gy ++ bs) := by
  rcases List.eq_nil_or_concat gx with rfl | ⟨gx, m, rfl⟩
  · cases gy with
    | nil =>
      refine .inr (.inr fun m hm => ?_)
      rcases List.mem_append.1 (by simpa using hm) with hm | hm
      · exact h.together.before m hm
      · exact h.together.after m hm
    | cons m gy => exact .inr (.inl (by simpa using h.together.within m (by simp)))
  · exact .inl (by simpa [← List.append_assoc] using h.together.within m (by simp))

theorem outside (h : Joins ctx f k p node kind n e as gx gy bs) (hg : gx ++ gy ≠ [])
    {t : SchemaId} (ht : t ≠ e.schema) : Outside (f.isOf t) (as ++ gx) (gy ++ bs) := by
  have hother : ∀ m ∈ gx ++ gy, f.isOf t m = false := by
    intro m hm
    have hkind := h.kind?_of_mem hm
    simp [isOf, hkind, Ne.symm ht]
  rcases List.eq_nil_or_concat gx with rfl | ⟨gx, m, rfl⟩
  · cases gy with
    | nil => exact absurd rfl hg
    | cons m gy => exact .inr (by simpa using hother m (by simp))
  · exact .inl (by simpa [← List.append_assoc] using hother m (by simp))

theorem chain (h : Joins ctx f k p node kind n e as gx gy bs) (hg : gx ++ gy ≠ []) :
    ∃ c, f.chain? p = some c := by
  obtain ⟨m, hm⟩ := List.exists_mem_of_ne_nil _ hg
  exact h.sound.laid.chain_of_mem (h.mem_children hm)

theorem laid (h : Joins ctx f k p node kind n e as gx gy bs) {c : Children}
    (hc : f.chain? p = some c) (hplace : gx ++ gy ≠ [] ∨ bs = []) :
    Laid ctx.schema (f.placed e.schema p (as ++ gx).getLast? n (gy ++ bs).head?)
      (Function.update k p ((as ++ gx) ++ n :: (gy ++ bs))) := by
  apply h.sound.laid.place h.split h.lives h.loose hc ⟨node, h.node_eq, h.parent_eq⟩ h.beside
  intro t ht
  by_cases hg : gx ++ gy = []
  · obtain ⟨rfl, rfl⟩ := List.append_eq_nil_iff.1 hg
    cases hplace.resolve_left (by simp)
    exact .inr rfl
  · exact h.outside hg ht

theorem pairwise (h : Joins ctx f k p node kind n e as gx gy bs) :
    (gx ++ n :: gy).Pairwise fun a b => f.rowOrder k node a b ≠ .gt := by
  have hasc := h.ascending
  rw [List.pairwise_append] at hasc
  refine List.pairwise_append.2 ⟨hasc.1, List.pairwise_cons.2 ⟨?_, hasc.2.1⟩, ?_⟩
  · intro m hm
    rw [rowOrder_swap, h.behind m hm]
    decide
  · intro m hm m' hm'
    rcases List.mem_cons.1 hm' with rfl | hm'
    · exact h.ahead m hm
    · exact hasc.2.2 m hm m' hm'

theorem group_placed_eq (h : Joins ctx f k p node kind n e as gx gy bs) :
    (f.placed e.schema p (as ++ gx).getLast? n (gy ++ bs).head?).group
      (Function.update k p ((as ++ gx) ++ n :: (gy ++ bs))) p e.schema = gx ++ n :: gy := by
  rw [group_placed h.lives, h.together.filter_left (by simp +contextual),
    h.together.filter_right (by simp +contextual)]

/-- With right anchors in the group, the forest with the new member is sound. -/
theorem sound_placed (h : Joins ctx f k p node kind n e as gx gy bs) {a : NodeId → Option Anchor}
    (hlaid : Laid ctx.schema (f.placed e.schema p (as ++ gx).getLast? n (gy ++ bs).head?)
      (Function.update k p ((as ++ gx) ++ n :: (gy ++ bs))))
    (hled : Led ctx kind (gx ++ n :: gy) a)
    (hsame : ∀ m, m ∉ gx ++ n :: gy → a m = f.anchorAt m) :
    Sound ctx ((f.placed e.schema p (as ++ gx).getLast? n (gy ++ bs).head?).anchored a)
      (Function.update k p ((as ++ gx) ++ n :: (gy ++ bs))) := by
  obtain ⟨f', hf'⟩ : ∃ f', f' = f.placed e.schema p (as ++ gx).getLast? n (gy ++ bs).head? :=
    ⟨_, rfl⟩
  obtain ⟨k', hk'⟩ : ∃ k', k' = Function.update k p ((as ++ gx) ++ n :: (gy ++ bs)) := ⟨_, rfl⟩
  have hre : Regrouped f k f' k' p e.schema := hf' ▸ hk' ▸ regrouped_placed h.split h.lives _ _
  have hgroup : f'.group k' p e.schema = gx ++ n :: gy := by
    rw [hf', hk', h.group_placed_eq]
  have hre' := hre.anchors a
  have hgroup' : (f'.anchored a).group k' p e.schema = gx ++ n :: gy := by
    rw [group_anchored, hgroup]
  have hanchor : ∀ m, m ∈ gx ++ n :: gy → (f'.anchored a).anchorAt m = a m := by
    intro m hm
    have hkind := (mem_group.1 (hgroup ▸ hm)).2
    obtain ⟨e', he', -⟩ := get?_of_kind? hkind
    exact anchorAt_anchored he'
  rw [← hf', ← hk'] at hlaid ⊢
  refine ⟨hlaid.anchored a, hre'.keyed h.noKey h.sound.keyed, ?_, ?_⟩
  · exact hre'.ascending h.noKey h.node_eq h.sound.ascending fun _ => by
      rw [hgroup']
      exact h.pairwise
  · refine hre'.anchored h.sound.laid (hlaid.anchored a) h.node_eq h.kind_eq ?_ ?_ ?_
      h.sound.anchored
    · intro m _ hm
      rw [hgroup'] at hm
      cases he' : f'.get? m with
      | some e' => rw [anchorAt_anchored he', hsame m hm]
      | none =>
        have hold : f'.anchorAt m = f.anchorAt m := hf' ▸ anchorAt_placed ..
        rw [← hold]
        simp [anchorAt, he']
    · rw [hgroup']
      exact hled.congr hanchor
    · intro m hm hm'
      rw [hgroup'] at hm'
      rw [h.group_eq] at hm
      exact absurd (by simp only [List.mem_append, List.mem_cons] at hm ⊢; tauto) hm'

end Joins

end InstanceTree
