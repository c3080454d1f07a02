import InstanceTree.Proofs.Group.Checking
import InstanceTree.Proofs.Operations.Runs

namespace InstanceTree

open Forest

/-- A sorted group is in order, and its leader has an anchor with an index of the group, without
one if the leader is alone. -/
structure Forest.WellIndexed (ctx : Context) (f : Forest) (g : List NodeId) (leader : NodeId) :
    Prop where
  ascending : g.Pairwise fun a b => ∃ sign, f.compare ctx a b = .ok sign ∧ sign ≠ .gt
  alone : g.length = 1 → f.anchor? leader = .ok (some ⟨none⟩)
  indexed : 2 ≤ g.length → ∃ i, f.anchor? leader = .ok (some ⟨some i⟩) ∧ i.members = .ok g ∧
    i.count = g.length ∧ ∃ blacks, i.check ctx f leader = pure blacks

theorem Forest.anchor?_eq_ok {f : Forest} {n : NodeId} {x : Anchor} :
    f.anchor? n = .ok (some x) ↔ f.anchorAt n = some x := by
  simp only [anchor?, bind_eq_ok, element_eq_some, anchorAt, Option.bind_eq_some_iff]
  constructor
  · intro hsome
    obtain ⟨e, he, hx⟩ := hsome
    exact ⟨e, he, Except.ok.inj hx⟩
  · intro hsome
    obtain ⟨e, he, hx⟩ := hsome
    exact ⟨e, he, congrArg Except.ok hx⟩

namespace Sound

variable {ctx : Context} {f : Forest} {k : Layout} {p : Option NodeId} {t : SchemaId}
  {node : SchemaNode} {leader : NodeId}

theorem wellIndexed (h : Sound ctx f k) (hs : ctx.schema.Built) (hindexes : ctx.indexes = true)
    (hnode : ctx.schema.nodes[t]? = some node) (hsorted : node.sortKind?.isSome)
    (hleader : (f.group k p t).head? = some leader) :
    WellIndexed ctx f (f.group k p t) leader := by
  obtain ⟨kind, hkind⟩ := Option.isSome_iff_exists.1 hsorted
  obtain ⟨x, hx, hindex⟩ := (h.anchored.led p t node kind hnode hkind).leader_eq hindexes hleader
  obtain ⟨as, bs, htogether⟩ := (h.laid.contiguous p t).together
  obtain ⟨index⟩ := x
  refine ⟨?_, ?_, ?_⟩
  · apply (h.ascending p t node hnode hsorted).imp_of_mem
    intro a b ha hb hab
    exact ⟨_, h.laid.compare_eq hs h.keyed hnode hkind (mem_group.1 ha).2 (mem_group.1 hb).2, hab⟩
  · intro hone
    cases index with
    | none => exact anchor?_eq_ok.2 hx
    | some i =>
      have htwo := hindex.1
      omega
  · intro htwo
    cases index with
    | none =>
      have hone : (f.group k p t).length = 1 := hindex
      omega
    | some i =>
      have hhas := (indexes_some.1 hindex).2
      exact ⟨i, anchor?_eq_ok.2 hx, hhas.members_eq, hhas.count_eq,
        hhas.check_eq h hs hnode hkind htogether hleader⟩

theorem leads_of_anchor (h : Sound ctx f k) {n : NodeId} {x : Anchor}
    (hx : f.anchorAt n = some x) : ∃ p t node, ctx.schema.nodes[t]? = some node ∧
      node.sortKind?.isSome ∧ (f.group k p t).head? = some n ∧ f.Alive p := by
  obtain ⟨p, t, node, hnode, hsorted, hn⟩ := h.anchored.only n x hx
  obtain ⟨kind, hkind⟩ := Option.isSome_iff_exists.1 hsorted
  have hled := h.anchored.led p t node kind hnode hkind
  exact ⟨p, t, node, hnode, hsorted, hled.head_of_some hn hx,
    h.laid.alive_of_mem (mem_group.1 hn).1⟩

end Sound

/-- In every reachable forest, with indexes at hand, each sorted group is in order and indexed at
its leader, and no other element has an anchor. -/
theorem Reachable.indexed {ctx : Context} {f : Forest} (h : Reachable ctx f)
    (hs : ctx.schema.Built) (hindexes : ctx.indexes = true) :
    (∀ p l t node leader, f.children p = .ok l → ctx.schema.nodes[t]? = some node →
      node.sortKind?.isSome → (l.filter (f.isOf t)).head? = some leader →
        WellIndexed ctx f (l.filter (f.isOf t)) leader) ∧
    ∀ n x, f.anchor? n = .ok (some x) → ∃ p l t node, f.children p = .ok l ∧
      ctx.schema.nodes[t]? = some node ∧ node.sortKind?.isSome ∧
        (l.filter (f.isOf t)).head? = some n := by
  obtain ⟨k, hsound⟩ := h.sound hs
  constructor
  · intro p l t node leader hl hnode hsorted hleader
    obtain ⟨-, rfl⟩ := hsound.laid.eq_of_children hl
    exact hsound.wellIndexed hs hindexes hnode hsorted hleader
  · intro n x hx
    obtain ⟨p, t, node, hnode, hsorted, hhead, hp⟩ := hsound.leads_of_anchor (anchor?_eq_ok.1 hx)
    exact ⟨p, k p, t, node, hsound.laid.children_eq hp, hnode, hsorted, hhead⟩

/-- The smaller of two numbers leads, though it came second. -/
theorem Reachable.indexed_of_two_numbers : ∃ f, Reachable (.ofNumbers true) f ∧
    f.children none = .ok [1, 0] ∧ WellIndexed (.ofNumbers true) f [1, 0] 1 := by
  have hfirst := ((Reachable.empty : Reachable (.ofNumbers true) .empty).step
    (.createTerm 0 (.uint 5)) rfl).step (.insertChild none 0) rfl
  have h := (hfirst.step (.createTerm 0 (.uint 3)) rfl).step (.insertChild none 1) rfl
  exact ⟨_, h, rfl,
    (h.indexed Schema.numbers_built rfl).1 none [1, 0] 0 _ 1 rfl rfl rfl rfl⟩

end InstanceTree
