import InstanceTree.Proofs.OrderedForest
import InstanceTree.Proofs.Group.Indexing

namespace InstanceTree

open Forest

/-- Chains with the same ends and the same run for each schema node. -/
structure Children.Agrees (c d : Children) : Prop where
  first : d.first = c.first
  last : d.last = c.last
  runs : ∀ t, d.runs.get? t = c.runs.get? t

/-- Indexes by the same rule, with the same limit and the same members in the same order; what
their trees look like does not matter. -/
structure Index.Agrees (i j : Index) : Prop where
  kind : j.kind = i.kind
  limit : j.bag.limit = i.bag.limit
  members : ∃ ms, i.members = .ok ms ∧ j.members = .ok ms

def Anchor.Agrees (x y : Anchor) : Prop :=
  Option.Rel Index.Agrees x.index y.index

structure Element.Agrees (e e' : Element) : Prop where
  schema : e'.schema = e.schema
  value : e'.value? = e.value?
  children : Option.Rel Children.Agrees e.children? e'.children?
  parent : e'.parent = e.parent
  prev : e'.prev = e.prev
  next : e'.next = e.next
  linked : e'.linked = e.linked
  metadata : e'.metadata = e.metadata
  anchor : Option.Rel Anchor.Agrees e.anchor e'.anchor

/-- Two forests are the same but for the shapes of their indexes. -/
structure Forest.Agrees (f g : Forest) : Prop where
  vacant : g.vacant = f.vacant
  slots : g.slots.size = f.slots.size
  top : f.top.Agrees g.top
  elements : ∀ n, Option.Rel Element.Agrees (f.get? n) (g.get? n)

theorem Element.children?_eq_none_iff {e : Element} :
    e.children? = none ↔ e.value?.isSome = true := by
  rw [children?, value?]
  cases e.content <;> simp

section Anchors

variable {ctx : Context} {kind : SortKind} {group : List NodeId} {a b : NodeId → Option Anchor}
  {n : NodeId}

theorem Indexes.agrees {x y : Option Index} (hx : Indexes ctx kind group x)
    (hy : Indexes ctx kind group y) : Option.Rel Index.Agrees x y := by
  cases x with
  | none =>
    cases y with
    | none => exact .none
    | some j =>
      have hone : group.length = 1 := hx
      have htwo := (indexes_some.1 hy).1
      omega
  | some i =>
    obtain ⟨htwo, hi⟩ := indexes_some.1 hx
    cases y with
    | none =>
      have hone : group.length = 1 := hy
      omega
    | some j =>
      obtain ⟨-, hj⟩ := indexes_some.1 hy
      exact .some ⟨hj.kind_eq.trans hi.kind_eq.symm, hj.limit_eq.trans hi.limit_eq.symm,
        group, hi.members_eq, hj.members_eq⟩

theorem Led.agrees (ha : Led ctx kind group a) (hb : Led ctx kind group b) (hn : n ∈ group) :
    Option.Rel Anchor.Agrees (a n) (b n) := by
  have hled := ha n hn
  have hled' := hb n hn
  split at hled
  next hlead =>
    rw [if_pos hlead] at hled'
    obtain ⟨x, hx, hxs⟩ := hled
    obtain ⟨y, hy, hys⟩ := hled'
    rw [hx, hy]
    exact .some (hxs.agrees hys)
  next hlead =>
    rw [if_neg hlead] at hled'
    rw [hled, hled']
    exact .none

end Anchors

theorem Forest.kind?_of_payload {f g : Forest} (h : ∀ i, g.payload i = f.payload i) :
    g.kind? = f.kind? :=
  funext fun i => kind?_eq_of_payload (h i)

theorem Forest.group_of_kind? {f g : Forest} (h : g.kind? = f.kind?) : g.group = f.group := by
  have hof : g.isOf = f.isOf := by
    funext t n
    rw [isOf, isOf, h]
  funext k p t
  rw [group, group, hof]

theorem Laid.links_agree {s : Schema} {f g : Forest} {k : Layout} {n : NodeId} {e e' : Element}
    (hf : Laid s f k) (hg : Laid s g k) (he : f.get? n = some e)
    (he' : g.get? n = some e') : e'.linked = e.linked ∧ e'.parent = e.parent ∧ e'.prev = e.prev ∧
      e'.next = e.next := by
  cases hlinked : e.linked with
  | true =>
    obtain ⟨xs, ys, hk⟩ := List.append_of_mem (hf.placed n e he hlinked)
    obtain ⟨-, -, hprev, hnext⟩ := hf.links_of_get? hk he
    obtain ⟨hlinked', hparent', hprev', hnext'⟩ := hg.links_of_get? hk he'
    exact ⟨hlinked', hparent', hprev'.trans hprev.symm, hnext'.trans hnext.symm⟩
  | false =>
    have hlinked' : e'.linked = false := by
      cases hlinked' : e'.linked with
      | false => rfl
      | true => exact absurd (hg.placed n e' he' hlinked') (hf.not_mem_of_loose he hlinked)
    obtain ⟨hparent, hprev, hnext⟩ := hf.loose n e he hlinked
    obtain ⟨hparent', hprev', hnext'⟩ := hg.loose n e' he' hlinked'
    exact ⟨hlinked', hparent'.trans hparent.symm, hprev'.trans hprev.symm,
      hnext'.trans hnext.symm⟩

namespace Sound

variable {ctx : Context} {f g : Forest} {k : Layout} {n : NodeId} {e e' : Element}

theorem anchor_agrees (hf : Sound ctx f k) (hg : Sound ctx g k) (hgroup : g.group = f.group)
    (n : NodeId) : Option.Rel Anchor.Agrees (f.anchorAt n) (g.anchorAt n) := by
  by_cases hmember : ∃ p t node, ctx.schema.nodes[t]? = some node ∧ node.sortKind?.isSome ∧
      n ∈ f.group k p t
  · obtain ⟨p, t, node, hnode, hsorted, hn⟩ := hmember
    obtain ⟨kind, hkind⟩ := Option.isSome_iff_exists.1 hsorted
    have hled := hg.anchored.led p t node kind hnode hkind
    rw [hgroup] at hled
    exact (hf.anchored.led p t node kind hnode hkind).agrees hled hn
  · have hnone : ∀ {h : Forest}, Sound ctx h k → h.group = f.group → h.anchorAt n = none := by
      intro h hh hgroup
      by_contra hsome
      obtain ⟨x, hx⟩ := Option.ne_none_iff_exists'.1 hsome
      have honly := hh.anchored.only n x hx
      rw [hgroup] at honly
      exact hmember honly
    rw [hnone hf rfl, hnone hg hgroup]
    exact .none

theorem chain_agrees (hf : Sound ctx f k) (hg : Sound ctx g k) (hgroup : g.group = f.group)
    {p : Option NodeId} {c d : Children} (hc : f.chain? p = some c) (hd : g.chain? p = some d) :
    c.Agrees d where
  first := (hg.laid.first p d hd).trans (hf.laid.first p c hc).symm
  last := (hg.laid.last p d hd).trans (hf.laid.last p c hc).symm
  runs := by
    intro t
    rw [hg.laid.runs p d t hd, hf.laid.runs p c t hc, hgroup]

theorem element_agrees (hf : Sound ctx f k) (hg : Sound ctx g k) (hgroup : g.group = f.group)
    (he : f.get? n = some e) (he' : g.get? n = some e') (hschema : e'.schema = e.schema)
    (hvalue : e'.value? = e.value?) (hmetadata : e'.metadata = e.metadata) : e.Agrees e' := by
  obtain ⟨hlinked, hparent, hprev, hnext⟩ := hf.laid.links_agree hg.laid he he'
  have hanchor := hf.anchor_agrees hg hgroup n
  rw [anchorAt, anchorAt, he, he'] at hanchor
  have hchildren : Option.Rel Children.Agrees e.children? e'.children? := by
    cases hc : e.children? with
    | none =>
      have hd := Element.children?_eq_none_iff.1 hc
      rw [← hvalue, ← Element.children?_eq_none_iff] at hd
      rw [hd]
      exact .none
    | some c =>
      cases hd : e'.children? with
      | none =>
        rw [Element.children?_eq_none_iff, hvalue, ← Element.children?_eq_none_iff, hc] at hd
        cases hd
      | some d =>
        have hchain : f.chain? (some n) = some c := by rw [chain?, he, Option.bind_some, hc]
        have hchain' : g.chain? (some n) = some d := by rw [chain?, he', Option.bind_some, hd]
        exact .some (hf.chain_agrees hg hgroup hchain hchain')
  exact ⟨hschema, hvalue, hchildren, hparent, hprev, hnext, hlinked, hmetadata, hanchor⟩

/-- Sound forests of one layout with the same payloads in the same slots agree. -/
theorem agrees (hf : Sound ctx f k) (hg : Sound ctx g k)
    (hpayload : ∀ i, g.payload i = f.payload i) (hvacant : g.vacant = f.vacant)
    (hslots : g.slots.size = f.slots.size) : f.Agrees g := by
  have hgroup := group_of_kind? (kind?_of_payload hpayload)
  have htop : f.top.Agrees g.top := hf.chain_agrees hg hgroup (p := none) rfl rfl
  apply Forest.Agrees.mk hvacant hslots htop
  intro n
  have hn := hpayload n
  cases he : f.get? n with
  | none =>
    rw [payload_eq_none_iff.2 he, payload_eq_none_iff] at hn
    rw [hn]
    exact .none
  | some e =>
    rw [payload, payload, he, Option.map_some, Option.map_eq_some_iff] at hn
    obtain ⟨e', he', hsame⟩ := hn
    obtain ⟨hschema, hvalue, hmetadata⟩ := Payload.mk.inj hsame
    rw [he']
    exact .some (hf.element_agrees hg hgroup he he' hschema hvalue hmetadata)

end Sound

end InstanceTree
