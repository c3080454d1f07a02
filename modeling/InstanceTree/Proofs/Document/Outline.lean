import InstanceTree.Proofs.Document.Trees

namespace InstanceTree

open Forest

/-- What can be seen of an element wherever it is stored: its schema node, its value, the state of
its anchor and what stands below it, in order. -/
inductive Outline where
  | node (schema : SchemaId) (value : Option Value) (anchor : AnchorState) (below : List Outline)

namespace Forest

def outlineBelow (f : Forest) : Nat → Option NodeId → Except Fault (List Outline)
  | 0, _ => .error .endless
  | depth + 1, p => do
    (← f.children p).mapM fun n => do
      return .node (← f.schemaOf n) (← f.value? n) (← f.anchorState n)
        (← f.outlineBelow depth (some n))

/-- Two forests with one outline below the top are the same there but for where their elements are
stored and what metadata they have. -/
def outline (f : Forest) (p : Option NodeId) : Except Fault (List Outline) :=
  f.outlineBelow f.steps p

end Forest

def Context.leaderState (ctx : Context) (t : SchemaId) (count : Nat) : AnchorState :=
  match (ctx.schema.nodes[t]?).bind SchemaNode.sortKind? with
  | none => .absent
  | some _ =>
    if ctx.indexes then if count = 1 then .singleton else .materialized count else .absent

mutual

def Tree.outline (ctx : Context) (t : SchemaId) (anchor : AnchorState) : Tree → Outline
  | .node value below => .node t value anchor (Grove.outlines ctx below)

def Tree.followers (ctx : Context) (t : SchemaId) : List Tree → List Outline
  | [] => []
  | x :: xs => x.outline ctx t .absent :: Tree.followers ctx t xs

/-- The outlines of siblings: the first instance of a sorted schema node carries the anchor. -/
def Grove.outlines (ctx : Context) : List (SchemaId × List Tree) → List Outline
  | [] => []
  | (_, []) :: rest => Grove.outlines ctx rest
  | (t, x :: xs) :: rest => x.outline ctx t (ctx.leaderState t (xs.length + 1)) ::
    (Tree.followers ctx t xs ++ Grove.outlines ctx rest)

end

namespace Forest

variable {ctx : Context} {f : Forest} {k : Layout} {p : Option NodeId} {t : SchemaId} {n : NodeId}
  {depth : Nat} {x : Tree}

theorem anchorState_eq (hn : f.Alive (some n)) :
    f.anchorState n = .ok (((f.anchorAt n).map Anchor.state).getD .absent) := by
  obtain ⟨e, he⟩ := hn n rfl
  simp only [anchorState, anchor?, element_of_get? he, ok_bind, anchorAt, he, Option.bind_some]
  rfl

theorem anchorState_of_mem (h : Sound ctx f k) (hn : n ∈ f.group k p t) :
    f.anchorState n = .ok (if (f.group k p t).head? = some n then
      ctx.leaderState t (f.group k p t).length else .absent) := by
  obtain ⟨hmem, hkind⟩ := mem_group.1 hn
  obtain ⟨e, he, -⟩ := h.laid.exists_of_mem hmem
  obtain ⟨node, hnode, -⟩ := h.laid.node_of_mem hmem hkind
  rw [anchorState_eq (alive_some.2 ⟨e, he⟩), Context.leaderState, hnode, Option.bind_some]
  refine congrArg _ ?_
  cases hsort : node.sortKind? with
  | none =>
    cases hanchor : f.anchorAt n with
    | none => split <;> rfl
    | some x =>
      obtain ⟨p', t', node', hnode', hsorted, hn'⟩ := h.anchored.only n x hanchor
      cases hkind.symm.trans (mem_group.1 hn').2
      cases hnode.symm.trans hnode'
      simp [hsort] at hsorted
  | some kind =>
    have hled := h.anchored.led p t node kind hnode hsort n hn
    by_cases hhead : (f.group k p t).head? = some n
    · rw [if_pos hhead]
      cases hindexes : ctx.indexes with
      | false =>
        rw [if_neg (by simp [hindexes])] at hled
        rw [hled]
        rfl
      | true =>
        rw [if_pos ⟨hindexes, hhead⟩] at hled
        obtain ⟨⟨index⟩, hx, hindex⟩ := hled
        rw [hx]
        cases index with
        | none =>
          have hone : (f.group k p t).length = 1 := hindex
          simp [Anchor.state, hone]
        | some i =>
          obtain ⟨htwo, hhas⟩ := indexes_some.1 hindex
          have hmany : (f.group k p t).length ≠ 1 := by omega
          simp [Anchor.state, hhas.count_eq, hmany]
    · rw [if_neg hhead]
      rw [if_neg (by simp [hhead])] at hled
      rw [hled]
      rfl

def outlineAt (f : Forest) (depth : Nat) (n : NodeId) : Except Fault Outline := do
  return .node (← f.schemaOf n) (← f.value? n) (← f.anchorState n)
    (← f.outlineBelow depth (some n))

theorem outlineBelow_succ (f : Forest) (depth : Nat) (p : Option NodeId) :
    f.outlineBelow (depth + 1) p = (do (← f.children p).mapM (f.outlineAt depth)) := rfl

def Outlines (ctx : Context) (f : Forest) (depth : Nat) (n : NodeId) : Prop :=
  ∀ a, Bears f (f.layout (some n)) a → f.outlineBelow depth (some n) = .ok (Grove.outlines ctx a)

theorem outlineAt_eq (hn : f.kind? n = some t) (hx : Depicts f n x) {anchor : AnchorState}
    (hanchor : f.anchorState n = .ok anchor) (hbelow : Outlines ctx f depth n) :
    f.outlineAt depth n = .ok (x.outline ctx t anchor) := by
  obtain ⟨value, below⟩ := x
  obtain ⟨hvalue, ha⟩ := hx
  obtain ⟨e, he, rfl⟩ := get?_of_kind? hn
  simp only [outlineAt, schemaOf_of_get? he, value?_of_get? he, hvalue, hanchor, hbelow below ha,
    ok_bind]
  rfl

theorem mapM_followers {ns : List NodeId} {xs : List Tree} (hxs : DepictsAll f t ns xs)
    (hanchor : ∀ n ∈ ns, f.anchorState n = .ok .absent)
    (hbelow : ∀ n ∈ ns, Outlines ctx f depth n) :
    ns.mapM (f.outlineAt depth) = .ok (Tree.followers ctx t xs) := by
  induction ns generalizing xs with
  | nil =>
    cases xs with
    | nil => rfl
    | cons x xs => exact hxs.elim
  | cons n ns ih =>
    cases xs with
    | nil => exact hxs.elim
    | cons x xs =>
      obtain ⟨hn, hx, hxs⟩ := hxs
      rw [List.mapM_cons, outlineAt_eq hn hx (hanchor n List.mem_cons_self)
        (hbelow n List.mem_cons_self), ok_bind, ih hxs
          (fun m hm => hanchor m (List.mem_cons_of_mem _ hm))
          (fun m hm => hbelow m (List.mem_cons_of_mem _ hm))]
      rfl

theorem mapM_outlineAt (h : Sound ctx f f.layout)
    (hbelow : ∀ n ∈ f.layout p, Outlines ctx f depth n)
    {a : Grove} {front ns : List NodeId} (hlayout : f.layout p = front ++ ns)
    (hfront : ∀ t ∈ a.map Prod.fst, ∀ m ∈ front, f.isOf t m = false) (ha : Bears f ns a) :
    ns.mapM (f.outlineAt depth) = .ok (Grove.outlines ctx a) := by
  induction a generalizing front ns with
  | nil =>
    cases ha
    rfl
  | cons group rest ih =>
    obtain ⟨t, xs⟩ := group
    obtain ⟨ms, ns, rfl, hne, hother, hxs, hrest⟩ := ha
    obtain ⟨m, us, rfl⟩ := List.exists_cons_of_ne_nil hne
    cases xs with
    | nil => exact hxs.elim
    | cons x xs =>
      have hgroup : f.group f.layout p t = m :: us := by
        rw [group, hlayout]
        exact hxs.filter_between (hfront t List.mem_cons_self) hother
      have hlater := ih (hlayout.trans (List.append_assoc ..).symm)
        (hxs.before hfront (hrest.not_mem hother)) hrest
      obtain ⟨hm, hx, hus⟩ := hxs
      have hnd : (m :: us).Nodup := hgroup ▸ (h.laid.nodup p).filter _
      have hstate : ∀ n ∈ m :: us, f.anchorState n = .ok (if m = n then
          ctx.leaderState t (xs.length + 1) else .absent) := by
        intro n hn
        rw [anchorState_of_mem h (p := p) (hgroup ▸ hn), hgroup, List.length_cons, hus.length_eq]
        simp
      have hleader := hstate m List.mem_cons_self
      rw [if_pos rfl] at hleader
      have hothers : ∀ n ∈ us, f.anchorState n = .ok .absent := by
        intro n hn
        rw [hstate n (List.mem_cons_of_mem _ hn), if_neg]
        rintro rfl
        exact (List.nodup_cons.1 hnd).1 hn
      have hin : ∀ n ∈ m :: us, Outlines ctx f depth n := fun n hn =>
        hbelow n (hlayout ▸ List.mem_append_right _ (List.mem_append_left _ hn))
      rw [List.mapM_append, List.mapM_cons, outlineAt_eq hm hx hleader (hin m List.mem_cons_self),
        ok_bind, mapM_followers hus hothers fun n hn => hin n (List.mem_cons_of_mem _ hn), ok_bind,
        hlater]
      rfl

end Forest

/-- What is below a parent has the outline of the grove that it is. -/
theorem Sound.outline_eq {ctx : Context} {f : Forest} {p : Option NodeId}
    (h : Sound ctx f f.layout) (hs : ctx.schema.Built) (hp : f.Alive p) {a : Grove}
    (ha : Bears f (f.layout p) a) : f.outline p = .ok (Grove.outlines ctx a) := by
  refine h.laid.descend (M := fun depth p => ∀ a, Bears f (f.layout p) a →
    f.outlineBelow depth p = .ok (Grove.outlines ctx a)) hs ?_ hp a ha
  intro depth p hp ih a ha
  rw [outlineBelow_succ, h.laid.children_eq hp, ok_bind]
  exact mapM_outlineAt h ih (List.nil_append _).symm nofun ha

end InstanceTree
