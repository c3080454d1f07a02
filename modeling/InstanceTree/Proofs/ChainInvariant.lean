import InstanceTree.Proofs.Operations.Runs
import InstanceTree.Proofs.SchemaChildren
import Mathlib.Logic.Relation

namespace InstanceTree

open Edit Forest

namespace Forest

def IsKey (ctx : Context) (f : Forest) (n : NodeId) : Prop :=
  ∃ node, f.schemaNode ctx n = .ok node ∧ node.isKey = true

/-- An instance of a key leaf, with a value of the type that the key declares. -/
def IsKeyLeaf (ctx : Context) (f : Forest) (n : NodeId) (key : SchemaId) : Prop :=
  f.schemaOf n = .ok key ∧ ∃ node v, ctx.schema.get key = .ok node ∧ node.isKey = true ∧
    f.value? n = .ok (some v) ∧ node.valueType? = some v.type

/-- The children `l` of a parent, or the elements at the top, form one chain, which the parent
knows by its ends and its runs. List instances start with their keys, and there are no other
keys. -/
structure Chained (ctx : Context) (f : Forest) (p : Option NodeId) (l : List NodeId) :
    Prop where
  children : f.children p = .ok l
  first : f.firstChild p = .ok l.head?
  last : f.lastChild p = .ok l.getLast?
  nodup : l.Nodup
  links : ∀ xs n ys, l = xs ++ n :: ys → ∃ e, f.element n = .ok e ∧ e.linked = true ∧
    e.parent = p ∧ e.prev = xs.getLast? ∧ e.next = ys.head?
  contiguous : ∀ t, Contiguous (f.isOf t) l
  runs : ∀ t, f.run? p t = .ok (runOf (l.filter (f.isOf t)))
  below : ∀ n ∈ l, ∃ node, f.schemaNode ctx n = .ok node ∧ p.mapM f.schemaOf = .ok node.parent
  keys : ∃ cs rest, l = cs ++ rest ∧ List.Forall₂ (f.IsKeyLeaf ctx) cs (f.keysBelow ctx.schema p) ∧
    ∀ n ∈ rest, ∀ node, f.schemaNode ctx n = .ok node → node.isKey = false

def ParentOf (f : Forest) (p n : NodeId) : Prop :=
  ∃ e, f.element n = .ok e ∧ e.parent = some p

/-- Elements and slots are where the links say: what is linked stands below its parent, which is
no terminal, and nothing stands below itself; what is not linked has no links; the nodes of an
index hold elements that live, and none of them is free for reuse; and free are exactly the slots
that are vacant, each of them once. -/
structure Placed (f : Forest) : Prop where
  linked : ∀ n e, f.element n = .ok e → e.linked = true →
    ∃ l, f.children e.parent = .ok l ∧ n ∈ l
  loose : ∀ n e, f.element n = .ok e → e.linked = false →
    e.parent = none ∧ e.prev = none ∧ e.next = none
  hosts : ∀ p n, f.ParentOf p n → ∃ c, f.children? (some p) = .ok (some c)
  acyclic : ∀ n, ¬Relation.TransGen f.ParentOf n n
  indexed : ∀ n i, f.index? n = .ok (some i) → ∃ es, i.bag.Contains es ∧
    i.members = .ok (es.map (·.2)) ∧ ∀ x ∈ es, ∃ e, f.element x.2 = .ok e
  vacant_nodup : f.vacant.Nodup
  vacant_iff : ∀ i : NodeId, i ∈ f.vacant ↔ f.slots[i]? = some none

end Forest

theorem Option.mapM_schemaOf {f : Forest} {p : Option NodeId} (hp : f.Alive p) :
    p.mapM f.schemaOf = .ok (p.bind f.kind?) := by
  cases p with
  | none => rfl
  | some i =>
    obtain ⟨e, he⟩ := hp i rfl
    simp only [Option.mapM_some, schemaOf_of_get? he, map_ok, Option.bind_some, kind?, he,
      Option.map_some]

namespace Laid

variable {s : Schema} {f : Forest} {k : Layout} {n p : NodeId}

theorem parentOf_iff (h : Laid s f k) : f.ParentOf p n ↔ n ∈ k (some p) := by
  constructor
  · intro hn
    obtain ⟨e, he, hparent⟩ := hn
    rw [element_eq_some] at he
    have hlinked : e.linked = true := by
      cases hlinked : e.linked with
      | true => rfl
      | false =>
        rw [(h.loose n e he hlinked).1] at hparent
        cases hparent
    rw [← hparent]
    exact h.placed n e he hlinked
  · intro hn
    obtain ⟨e, he, -, hparent⟩ := h.exists_of_mem hn
    exact ⟨e, element_of_get? he, hparent⟩

theorem acyclic (h : Laid s f k) (hs : s.Built) : ¬Relation.TransGen f.ParentOf n n := by
  have hlt : ∀ {a b}, Relation.TransGen f.ParentOf a b →
      ∃ t t', f.kind? a = some t ∧ f.kind? b = some t' ∧ t < t' := by
    intro a b hab
    induction hab with
    | single hstep => exact h.kind_lt_of_mem hs (h.parentOf_iff.1 hstep)
    | tail _ hstep ih =>
      obtain ⟨t, t', ht, ht', hlt⟩ := ih
      obtain ⟨u, u', hu, hu', hlt'⟩ := h.kind_lt_of_mem hs (h.parentOf_iff.1 hstep)
      cases ht'.symm.trans hu
      exact ⟨t, u', ht, hu', Nat.lt_trans hlt hlt'⟩
  intro hcycle
  obtain ⟨t, t', ht, ht', hlt⟩ := hlt hcycle
  cases ht.symm.trans ht'
  exact Nat.lt_irrefl _ hlt

end Laid

namespace Sound

variable {ctx : Context} {f : Forest} {k : Layout} {p : Option NodeId}

theorem isKeyLeaf (h : Sound ctx f k) (hs : ctx.schema.Built) {key : SchemaId} {n : NodeId}
    (hkey : key ∈ f.keysBelow ctx.schema p) (hn : f.kind? n = some key) :
    f.IsKeyLeaf ctx n key := by
  obtain ⟨e, he, rfl⟩ := get?_of_kind? hn
  unfold keysBelow at hkey
  cases hnode : (p.bind f.kind?).bind (ctx.schema.nodes[·]?) with
  | none => simp [hnode] at hkey
  | some node =>
    obtain ⟨t, -, ht⟩ := Option.bind_eq_some_iff.1 hnode
    obtain ⟨m, type, hm, hkind, -, hisKey⟩ := hs.key ht (by simpa [hnode] using hkey)
    have htype : m.valueType? = some type := by simp [SchemaNode.valueType?, hkind]
    obtain ⟨v, hv, hvtype⟩ := h.laid.value_of_type hn hm htype
    refine ⟨schemaOf_of_get? he, m, v, Schema.get_eq_ok.2 hm, hisKey, ?_, by rw [htype, hvtype]⟩
    rw [value?_of_get? he, hv]

theorem chained (h : Sound ctx f k) (hled : KeyLed ctx.schema f k) (hs : ctx.schema.Built)
    (hp : f.Alive p) : Chained ctx f p (k p) where
  children := h.laid.children_eq hp
  first := by
    simp only [firstChild, children?_eq hp, ok_bind]
    cases hc : f.chain? p with
    | none => rw [h.laid.childless p hc]; rfl
    | some c => rw [← h.laid.first p c hc]; rfl
  last := h.laid.lastChild_eq hp
  nodup := h.laid.nodup p
  links := by
    intro xs n ys hk
    obtain ⟨e, he, hlinks⟩ := h.laid.links p xs n ys hk
    exact ⟨e, element_of_get? he, hlinks⟩
  contiguous := h.laid.contiguous p
  runs := h.laid.run?_eq hp
  below := by
    intro n hn
    obtain ⟨e, he, -⟩ := h.laid.exists_of_mem hn
    obtain ⟨node, hnode, hparent⟩ := h.laid.below p n e hn he
    refine ⟨node, schemaNode_eq (t := e.schema) (by simp [kind?, he]) hnode, ?_⟩
    rw [Option.mapM_schemaOf hp, hparent]
  keys := by
    obtain ⟨cs, rest, hk, hcs, hrest⟩ := hled p
    refine ⟨cs, rest, hk, ?_, ?_⟩
    · rw [List.forall₂_iff_get]
      have hlen : cs.length = (f.keysBelow ctx.schema p).length := by
        simpa using congrArg List.length hcs
      refine ⟨hlen, fun i hi hi' => h.isKeyLeaf hs (List.get_mem _ _) ?_⟩
      have hget := congrArg (·[i]?) hcs
      simpa [hi, hi'] using hget
    · intro n hn node hnode
      obtain ⟨e, he, -⟩ := h.laid.exists_of_mem (p := p) (n := n) (by simp [hk, hn])
      have hnode := schemaNode_eq_ok he hnode
      exact (hs.noKey_iff hnode).1 (hrest n hn e.schema (by simp [kind?, he]))

theorem index_members (h : Sound ctx f k) {n : NodeId} {i : Index}
    (hi : f.index? n = .ok (some i)) : ∃ es, i.bag.Contains es ∧
      i.members = .ok (es.map (·.2)) ∧ ∀ x ∈ es, ∃ e, f.element x.2 = .ok e := by
  simp only [index?, anchor?, bind_eq_ok, element_eq_some] at hi
  obtain ⟨x, ⟨e, he, hx⟩, hi⟩ := hi
  cases hx
  have hindex : e.anchor.bind (·.index) = some i := Except.ok.inj hi
  obtain ⟨x, hx, hxi⟩ := Option.bind_eq_some_iff.1 hindex
  have hanchor : f.anchorAt n = some x := by simp [anchorAt, he, hx]
  obtain ⟨p, t, node, hnode, hsorted, hn⟩ := h.anchored.only n x hanchor
  obtain ⟨kind, hkind⟩ := Option.isSome_iff_exists.1 hsorted
  have hled := h.anchored.led p t node kind hnode hkind n hn
  split at hled
  · obtain ⟨y, hy, hindexes⟩ := hled
    cases hanchor.symm.trans hy
    rw [hxi, indexes_some] at hindexes
    obtain ⟨es, hes, hmembers⟩ := hindexes.2.members
    refine ⟨es, hes, hmembers ▸ hindexes.2.members_eq, fun y hy => ?_⟩
    have hmem := hmembers ▸ List.mem_map_of_mem (f := fun x : Nat × NodeId => x.2) hy
    obtain ⟨em, hem, -⟩ := h.laid.exists_of_mem (mem_group.1 hmem).1
    exact ⟨em, element_of_get? hem⟩
  · cases hanchor.symm.trans hled

theorem placed (h : Sound ctx f k) (hs : ctx.schema.Built) : Placed f where
  linked := by
    intro n e he hlinked
    have hn := h.laid.placed n e (element_eq_some.1 he) hlinked
    exact ⟨_, h.laid.children_eq (h.laid.alive_of_mem hn), hn⟩
  loose := fun n e he => h.laid.loose n e (element_eq_some.1 he)
  hosts := by
    intro p n hparent
    have hn := h.laid.parentOf_iff.1 hparent
    obtain ⟨c, hc⟩ := h.laid.chain_of_mem hn
    exact ⟨c, by rw [children?_eq (h.laid.alive_of_mem hn), hc]⟩
  acyclic := fun _ => h.laid.acyclic hs
  indexed := fun _ _ hi => h.index_members hi
  vacant_nodup := h.laid.vacant_nodup
  vacant_iff := fun i => ⟨h.laid.vacant_empty i, h.laid.empty_vacant i⟩

end Sound

/-- In every reachable forest the children of every parent form a chain that its parent knows, and
no link leads astray. -/
theorem Reachable.well_chained {ctx : Context} {f : Forest} (h : Reachable ctx f)
    (hs : ctx.schema.Built) :
    (∀ p, f.Alive p → ∃ l, Chained ctx f p l) ∧ Placed f := by
  obtain ⟨k, hsound, hled⟩ := h.isSound hs
  exact ⟨fun p hp => ⟨k p, hsound.chained hled hs hp⟩, hsound.placed hs⟩

/-- A schema of one list of entries, which have a number for a key and a remark. -/
def Schema.entries : Schema where
  nodes := #[⟨"entry", .list [1], none, .system, false, [1, 2]⟩,
    ⟨"number", .leaf .uint, some 0, .system, true, []⟩,
    ⟨"remark", .leaf .string, some 0, .system, false, []⟩]
  roots := [0]

theorem Schema.entries_built : entries.Built := by
  have hlist : ∃ s, Schema.empty.addKeyed none "entry" [("number", .uint)] .system = .ok (s, 0) ∧
      s.add (some 0) "remark" (.leaf .string) .system false = .ok (entries, 2) :=
    ⟨_, rfl, by decide⟩
  obtain ⟨s, hlist, hleaf⟩ := hlist
  exact .leaf (.list .empty hlist) hleaf

def Context.ofEntries (indexed : Bool) : Context where
  options := {}
  modules := if indexed then [yangModule] else []
  schema := .entries

/-- An entry starts with its number, though its remark could have been put in front. -/
theorem Reachable.well_chained_of_entry : ∃ f, Reachable (.ofEntries true) f ∧
    f.children (some 0) = .ok [1, 2] ∧ Chained (.ofEntries true) f (some 0) [1, 2] := by
  have hlist := ((Reachable.empty : Reachable (.ofEntries true) .empty).step
    (.createList 0 [.uint 7]) rfl).step (.insertChild none 0) rfl
  have h := (hlist.step (.createTerm 2 (.string "first")) rfl).step (.insertChild (some 0) 2) rfl
  obtain ⟨l, hl⟩ := (h.well_chained Schema.entries_built).1 (some 0) (alive_some.2 ⟨_, rfl⟩)
  have hchildren : l = [1, 2] := (Except.ok.inj hl.children).symm
  exact ⟨_, h, rfl, hchildren ▸ hl⟩

end InstanceTree
