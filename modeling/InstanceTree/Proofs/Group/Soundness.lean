import InstanceTree.Proofs.Group.Anchors
import InstanceTree.Proofs.RedBlack.Contents

namespace InstanceTree

open Forest

def Ascending (s : Schema) (f : Forest) (k : Layout) : Prop :=
  ∀ (p : Option NodeId) (t : SchemaId) (node : SchemaNode), s.nodes[t]? = some node →
    node.sortKind?.isSome → (f.group k p t).Pairwise fun a b => f.rowOrder k node a b ≠ .gt

def Context.Allows (ctx : Context) (count : Nat) : Prop :=
  ∀ limit, ctx.options.indexLimit = some limit → count ≤ limit

/-- An index has the members of a group, in order; a group of one member has no index. -/
def Indexes (ctx : Context) (kind : SortKind) (g : List NodeId) : Option Index → Prop
  | none => g.length = 1
  | some i => 2 ≤ g.length ∧ i.kind = kind ∧ i.bag.limit = ctx.options.indexLimit ∧
    ctx.Allows g.length ∧ ∃ es, i.bag.Contains es ∧ es.map (·.2) = g

/-- Of the members of a sorted group the first one carries an anchor, if there are indexes at
all, and no other one does. -/
def Led (ctx : Context) (kind : SortKind) (g : List NodeId) (a : NodeId → Option Anchor) : Prop :=
  ∀ n ∈ g, if ctx.indexes = true ∧ g.head? = some n then
    ∃ x, a n = some x ∧ Indexes ctx kind g x.index else a n = none

/-- Every sorted group has the anchor that it should have, and there are no other anchors. -/
structure Anchored (ctx : Context) (f : Forest) (k : Layout) : Prop where
  led : ∀ (p : Option NodeId) (t : SchemaId) (node : SchemaNode) (kind : SortKind),
    ctx.schema.nodes[t]? = some node → node.sortKind? = some kind →
      Led ctx kind (f.group k p t) f.anchorAt
  only : ∀ n x, f.anchorAt n = some x → ∃ p t node, ctx.schema.nodes[t]? = some node ∧
    node.sortKind?.isSome ∧ n ∈ f.group k p t

/-- What holds of a forest between operations. -/
structure Sound (ctx : Context) (f : Forest) (k : Layout) : Prop where
  laid : Laid ctx.schema f k
  keyed : Keyed ctx.schema f k
  ascending : Ascending ctx.schema f k
  anchored : Anchored ctx f k

/-- Nothing has changed but the instances of `t` below `p`. -/
structure Regrouped (f : Forest) (k : Layout) (f' : Forest) (k' : Layout) (p : Option NodeId)
    (t : SchemaId) : Prop where
  kind : f'.kind? = f.kind?
  value : f'.valueAt = f.valueAt
  group : ∀ q t', q ≠ p ∨ t' ≠ t → f'.group k' q t' = f.group k q t'

theorem Led.congr {ctx : Context} {kind : SortKind} {g : List NodeId}
    {a b : NodeId → Option Anchor} (h : Led ctx kind g a) (hab : ∀ n ∈ g, b n = a n) :
    Led ctx kind g b := by
  intro n hn
  rw [hab n hn]
  exact h n hn

section Led

variable {ctx : Context} {kind : SortKind} {g : List NodeId} {a : NodeId → Option Anchor}
  {leader m : NodeId}

theorem Led.leader_eq (h : Led ctx kind g a) (hindexes : ctx.indexes = true)
    (hleader : g.head? = some leader) : ∃ x, a leader = some x ∧ Indexes ctx kind g x.index := by
  have hhead := h leader (List.mem_of_head? hleader)
  rwa [if_pos ⟨hindexes, hleader⟩] at hhead

theorem Led.follower_eq (h : Led ctx kind g a) (hleader : g.head? = some leader) (hm : m ∈ g)
    (hml : m ≠ leader) : a m = none := by
  have hnone := h m hm
  rwa [if_neg (by rw [hleader]; simpa using fun _ hl => hml hl.symm)] at hnone

theorem Led.plain_eq (h : Led ctx kind g a) (hplain : ctx.indexes = false) (hm : m ∈ g) :
    a m = none := by
  have hnone := h m hm
  rwa [if_neg (by simp [hplain])] at hnone

theorem Led.head_of_some (h : Led ctx kind g a) {x : Anchor} (hm : m ∈ g) (hx : a m = some x) :
    g.head? = some m := by
  have hled := h m hm
  split at hled
  · next hhead => exact hhead.2
  · rw [hled] at hx
    cases hx

theorem led_of_leader (hleader : g.head? = some leader) {x : Anchor} (hx : a leader = some x)
    (hindexes : ctx.indexes = true) (hindex : Indexes ctx kind g x.index)
    (hother : ∀ m ∈ g, m ≠ leader → a m = none) : Led ctx kind g a := by
  intro m hm
  by_cases hml : m = leader
  · rw [hml, if_pos ⟨hindexes, hleader⟩]
    exact ⟨x, hx, hindex⟩
  · rw [if_neg (by rw [hleader]; simpa using fun _ hl => hml hl.symm)]
    exact hother m hm hml

theorem led_of_plain (hplain : ctx.indexes = false) (h : ∀ m ∈ g, a m = none) :
    Led ctx kind g a := by
  intro m hm
  rw [if_neg (by simp [hplain])]
  exact h m hm

end Led

theorem Forest.row_congr {f f' : Forest} {k k' : Layout} {node : SchemaNode} {n : NodeId}
    (hvalue : f'.valueAt n = f.valueAt n)
    (hkeys : ∀ key ∈ node.keys, f'.keyValue k' n key = f.keyValue k n key) :
    f'.row k' node n = f.row k node n := by
  rw [row, row, hvalue]
  exact congrArg _ (List.filterMap_congr hkeys)

/-- Every sorted group of the forest `f'` is empty, or it is the group of `f` with the rows and the
anchors of its members; what has an anchor stays in its group. -/
structure Carries (ctx : Context) (f : Forest) (k : Layout) (f' : Forest) (k' : Layout) :
    Prop where
  groups : ∀ (p : Option NodeId) (t : SchemaId) (node : SchemaNode),
    ctx.schema.nodes[t]? = some node → node.sortKind?.isSome → f'.group k' p t = [] ∨
      (f'.group k' p t = f.group k p t ∧ ∀ n ∈ f.group k p t,
        f'.row k' node n = f.row k node n ∧ f'.anchorAt n = f.anchorAt n)
  anchors : ∀ n x, f'.anchorAt n = some x → f.anchorAt n = some x
  stays : ∀ n x p t, f'.anchorAt n = some x → n ∈ f.group k p t → n ∈ f'.group k' p t

theorem Sound.carry {ctx : Context} {f f' : Forest} {k k' : Layout} (h : Sound ctx f k)
    (hc : Carries ctx f k f' k') (hlaid : Laid ctx.schema f' k')
    (hkeyed : Keyed ctx.schema f' k') : Sound ctx f' k' where
  laid := hlaid
  keyed := hkeyed
  ascending := by
    intro p t node hnode hsorted
    rcases hc.groups p t node hnode hsorted with hnil | ⟨hsame, hmembers⟩
    · rw [hnil]
      exact List.Pairwise.nil
    · rw [hsame]
      apply (h.ascending p t node hnode hsorted).imp_of_mem
      intro a b ha hb hab
      rwa [rowOrder, (hmembers a ha).1, (hmembers b hb).1]
  anchored := by
    constructor
    · intro p t node kind hnode hkind
      rcases hc.groups p t node hnode (by simp [hkind]) with hnil | ⟨hsame, hmembers⟩
      · rw [hnil]
        intro n hn
        cases hn
      · rw [hsame]
        exact (h.anchored.led p t node kind hnode hkind).congr fun n hn => (hmembers n hn).2
    · intro n x hx
      obtain ⟨p, t, node, hnode, hsorted, hn⟩ := h.anchored.only n x (hc.anchors n x hx)
      exact ⟨p, t, node, hnode, hsorted, hc.stays n x p t hx hn⟩

namespace Regrouped

variable {ctx : Context} {f f' : Forest} {k k' : Layout} {p : Option NodeId} {t : SchemaId}

theorem row (h : Regrouped f k f' k' p t) {node : SchemaNode} (ht : t ∉ node.keys) (n : NodeId) :
    f'.row k' node n = f.row k node n := by
  apply row_congr (by rw [h.value])
  intro key hkey
  have hne : key ≠ t := by
    intro heq
    subst heq
    exact ht hkey
  rw [keyValue, keyValue, h.group _ _ (.inr hne), h.value]

theorem anchors (h : Regrouped f k f' k' p t) (a : NodeId → Option Anchor) :
    Regrouped f k (f'.anchored a) k' p t :=
  ⟨by simpa using h.kind, by simpa using h.value, by simpa using h.group⟩

theorem keyed (h : Regrouped f k f' k' p t) (hkey : ctx.schema.NoKey t)
    (hkeyed : Keyed ctx.schema f k) : Keyed ctx.schema f' k' := by
  intro n t' node' hn hnode' key hmem
  have hne : key ≠ t := by
    intro heq
    subst heq
    exact hkey t' node' hnode' hmem
  rw [h.group _ _ (.inr hne)]
  exact hkeyed n t' node' (h.kind ▸ hn) hnode' key hmem

theorem ascending (h : Regrouped f k f' k' p t) (hkey : ctx.schema.NoKey t) {node : SchemaNode}
    (hnode : ctx.schema.nodes[t]? = some node)
    (hasc : Ascending ctx.schema f k) (hnew : node.sortKind?.isSome →
      (f'.group k' p t).Pairwise fun a b => f.rowOrder k node a b ≠ .gt) :
    Ascending ctx.schema f' k' := by
  intro q t' node' hnode' hsorted
  have horder : ∀ a b, f'.rowOrder k' node' a b = f.rowOrder k node' a b := fun a b => by
    have ht := hkey t' node' hnode'
    rw [rowOrder, rowOrder, h.row ht, h.row ht]
  simp only [horder]
  by_cases hq : q = p ∧ t' = t
  · obtain ⟨rfl, rfl⟩ := hq
    cases hnode.symm.trans hnode'
    exact hnew hsorted
  · rw [h.group q t' (by tauto)]
    exact hasc q t' node' hnode' hsorted

theorem anchored_of_unsorted (h : Regrouped f k f' k' p t) {node : SchemaNode}
    (hnode : ctx.schema.nodes[t]? = some node) (hunsorted : node.sortKind? = none)
    (hsame : ∀ n, f'.anchorAt n = f.anchorAt n) (hanch : Anchored ctx f k) :
    Anchored ctx f' k' := by
  have hne : ∀ {t' node' kind}, ctx.schema.nodes[t']? = some node' →
      node'.sortKind? = some kind → t' ≠ t := by
    intro t' node' kind hnode' hkind heq
    subst heq
    cases hnode.symm.trans hnode'
    cases hunsorted.symm.trans hkind
  constructor
  · intro q t' node' kind hnode' hkind
    rw [h.group q t' (.inr (hne hnode' hkind))]
    exact (hanch.led q t' node' kind hnode' hkind).congr fun n _ => hsame n
  · intro n x hx
    obtain ⟨q, t', node', hnode', hsorted, hn⟩ := hanch.only n x (hsame n ▸ hx)
    obtain ⟨kind, hkind⟩ := Option.isSome_iff_exists.1 hsorted
    refine ⟨q, t', node', hnode', hsorted, ?_⟩
    rwa [h.group q t' (.inr (hne hnode' hkind))]

theorem anchored (h : Regrouped f k f' k' p t) (hlaid : Laid ctx.schema f k)
    (hlaid' : Laid ctx.schema f' k') {node : SchemaNode} {kind : SortKind}
    (hnode : ctx.schema.nodes[t]? = some node) (hkind : node.sortKind? = some kind)
    (hsame : ∀ n, n ∉ f.group k p t → n ∉ f'.group k' p t → f'.anchorAt n = f.anchorAt n)
    (hled : Led ctx kind (f'.group k' p t) f'.anchorAt)
    (hleft : ∀ n ∈ f.group k p t, n ∉ f'.group k' p t → f'.anchorAt n = none)
    (hanch : Anchored ctx f k) : Anchored ctx f' k' := by
  constructor
  · intro q t' node' kind' hnode' hkind'
    by_cases hq : q = p ∧ t' = t
    · obtain ⟨rfl, rfl⟩ := hq
      cases hnode.symm.trans hnode'
      cases hkind.symm.trans hkind'
      exact hled
    · have hgroup := h.group q t' (by tauto)
      rw [hgroup]
      apply (hanch.led q t' node' kind' hnode' hkind').congr
      intro n hn
      have hn' := hgroup ▸ hn
      rw [mem_group] at hn hn'
      refine hsame n (fun hmem => hq ?_) fun hmem => hq ?_
      · rw [mem_group] at hmem
        exact ⟨hlaid.unique_parent hn.1 hmem.1, Option.some.inj (hn.2.symm.trans hmem.2)⟩
      · rw [mem_group] at hmem
        exact ⟨hlaid'.unique_parent hn'.1 hmem.1, Option.some.inj (hn'.2.symm.trans hmem.2)⟩
  · intro n x hx
    by_cases hn' : n ∈ f'.group k' p t
    · exact ⟨p, t, node, hnode, by simp [hkind], hn'⟩
    · by_cases hn : n ∈ f.group k p t
      · rw [hleft n hn hn'] at hx
        cases hx
      · rw [hsame n hn hn'] at hx
        obtain ⟨q, t', node', hnode', hsorted, hmem⟩ := hanch.only n x hx
        refine ⟨q, t', node', hnode', hsorted, ?_⟩
        rwa [h.group q t']
        by_contra hq
        rw [not_or, not_not, not_not] at hq
        obtain ⟨rfl, rfl⟩ := hq
        exact hn hmem

end Regrouped

end InstanceTree
