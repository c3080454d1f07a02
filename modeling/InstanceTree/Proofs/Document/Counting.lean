import InstanceTree.Proofs.ChainInvariant
import InstanceTree.Proofs.Document.Demand
import InstanceTree.Proofs.Document.Reading

namespace InstanceTree

open Forest

mutual

def Tree.count : Tree → Nat
  | .node _ below => 1 + Grove.count below

def Tree.countAll : List Tree → Nat
  | [] => 0
  | x :: xs => x.count + Tree.countAll xs

def Grove.count : List (SchemaId × List Tree) → Nat
  | [] => 0
  | (_, xs) :: rest => Tree.countAll xs + Grove.count rest

end

theorem Tree.countAll_eq_sum (xs : List Tree) : Tree.countAll xs = (xs.map Tree.count).sum := by
  induction xs with
  | nil => rfl
  | cons x xs ih => rw [countAll, ih, List.map_cons, List.sum_cons]

theorem Tree.countAll_perm {xs ys : List Tree} (h : xs.Perm ys) :
    Tree.countAll xs = Tree.countAll ys := by
  rw [countAll_eq_sum, countAll_eq_sum]
  exact (h.map _).sum_nat

theorem Tree.countAll_leaves (vs : List Value) : Tree.countAll (vs.map leaf) = vs.length := by
  induction vs with
  | nil => rfl
  | cons v vs ih =>
    rw [List.map_cons, countAll, ih, List.length_cons, Nat.add_comm]
    rfl

namespace Grove

theorem count_append (a b : Grove) : count (a ++ b) = count a + count b := by
  induction a with
  | nil => exact (Nat.zero_add _).symm
  | cons group a ih =>
    obtain ⟨t, xs⟩ := group
    rw [List.cons_append, count, ih, count, Nat.add_assoc]

theorem count_push (t : SchemaId) (xs : List Tree) (a : Grove) :
    count (push t xs a) = Tree.countAll xs + count a := by
  cases xs with
  | nil => exact (Nat.zero_add _).symm
  | cons x xs => rfl

theorem count_keyLeaves {keys : List SchemaId} {values : List Value}
    (h : values.length = keys.length) : count (keyLeaves keys values) = keys.length := by
  induction keys generalizing values with
  | nil => rfl
  | cons key keys ih =>
    cases values with
    | nil => cases h
    | cons v values =>
      have hrest := ih (Nat.succ.inj h)
      rw [keyLeaves] at hrest
      rw [keyLeaves, List.zipWith_cons_cons, count, hrest, List.length_cons, Nat.add_comm]
      rfl

end Grove

namespace Laid

variable {s : Schema} {f : Forest} {k : Layout} {p : Option NodeId} {n m i : NodeId}

theorem eq_of_reached (h : Laid s f k) (hs : s.Built) (hn : n ∈ k p) (hm : m ∈ k p)
    (hpath : Relation.ReflTransGen f.ParentOf n m) : n = m := by
  rcases hpath.cases_tail with heq | ⟨q, hpath, hq⟩
  · exact heq.symm
  · -- the last step comes from the parent, which would stand below `n`
    have hp := h.unique_parent hm (h.parentOf_iff.1 hq)
    subst hp
    exact absurd (.tail' hpath (h.parentOf_iff.2 hn)) (h.acyclic hs)

theorem eq_of_common (h : Laid s f k) (hs : s.Built) (hn : n ∈ k p) (hm : m ∈ k p)
    (hni : Relation.ReflTransGen f.ParentOf n i) (hmi : Relation.ReflTransGen f.ParentOf m i) :
    n = m := by
  have hunique : Relator.RightUnique (Function.swap f.ParentOf) := by
    intro a b c hab hac
    exact Option.some.inj (h.unique_parent (h.parentOf_iff.1 hab) (h.parentOf_iff.1 hac))
  rcases Relation.ReflTransGen.total_of_right_unique hunique hni.swap hmi.swap with hpath | hpath
  · exact (h.eq_of_reached hs hm hn hpath.swap).symm
  · exact h.eq_of_reached hs hn hm hpath.swap

theorem reached_of_preorder (h : Laid s f k) {rs order : List NodeId} (horder : k.Preorder rs order)
    (hi : i ∈ order) : ∃ r ∈ rs, Relation.ReflTransGen f.ParentOf r i := by
  have hstep : (fun a b => b ∈ k (some a)) = f.ParentOf := by
    funext a b
    exact propext h.parentOf_iff.symm
  rw [← hstep]
  exact horder.mem_iff.1 hi

theorem nodup_preorder (h : Laid s f k) (hs : s.Built) {rs order : List NodeId}
    (horder : k.Preorder rs order) (hnd : rs.Nodup) (hrs : ∀ r ∈ rs, r ∈ k p) : order.Nodup := by
  induction horder generalizing p with
  | nil => exact List.nodup_nil
  | @cons n ns below behind hbelow hbehind ihbelow ihbehind =>
    obtain ⟨hn, hnd⟩ := List.nodup_cons.1 hnd
    have hnp := hrs n List.mem_cons_self
    have hns : ∀ r ∈ ns, r ∈ k p := fun r hr => hrs r (List.mem_cons_of_mem _ hr)
    have hunder : ∀ i ∈ below, Relation.TransGen f.ParentOf n i := by
      intro i hi
      obtain ⟨c, hc, hpath⟩ := h.reached_of_preorder hbelow hi
      exact .head' (h.parentOf_iff.2 hc) hpath
    have hapart : ∀ i ∈ behind, ¬Relation.ReflTransGen f.ParentOf n i := by
      intro i hi hpath
      obtain ⟨r, hr, hpath'⟩ := h.reached_of_preorder hbehind hi
      cases h.eq_of_common hs hnp (hns r hr) hpath hpath'
      exact hn hr
    refine List.nodup_cons.2 ⟨?_, List.nodup_append.2 ⟨ihbelow (h.nodup _) fun _ => id,
      ihbehind hnd hns, ?_⟩⟩
    · intro hmem
      rcases List.mem_append.1 hmem with hmem | hmem
      · exact h.acyclic hs (hunder n hmem)
      · exact hapart n hmem .refl
    · rintro i hi _ hi' rfl
      exact hapart i hi' (hunder i hi).to_reflTransGen

end Laid

section Depicts

variable {f : Forest}

mutual

theorem Forest.Depicts.exists_preorder : (x : Tree) → ∀ {n : NodeId}, Depicts f n x →
    ∃ order, f.layout.Preorder [n] order ∧ order.length = x.count
  | .node _ below, n, h => by
    obtain ⟨order, horder, hlen⟩ := Bears.exists_preorder below h.2
    exact ⟨n :: order, .singleton horder, by rw [List.length_cons, hlen, Tree.count, Nat.add_comm]⟩

theorem Forest.DepictsAll.exists_preorder : (xs : List Tree) → ∀ {t : SchemaId} {ns : List NodeId},
    DepictsAll f t ns xs → ∃ order, f.layout.Preorder ns order ∧ order.length = Tree.countAll xs
  | [], _, [], _ => ⟨[], .nil, rfl⟩
  | [], _, _ :: _, h => h.elim
  | _ :: _, _, [], h => h.elim
  | x :: xs, _, n :: ns, h => by
    obtain ⟨order, horder, hlen⟩ := Depicts.exists_preorder x h.2.1
    obtain ⟨rest, hrest, hlen'⟩ := DepictsAll.exists_preorder xs h.2.2
    exact ⟨order ++ rest, horder.append hrest, by rw [List.length_append, hlen, hlen', Tree.countAll]⟩

theorem Forest.Bears.exists_preorder : (a : List (SchemaId × List Tree)) → ∀ {ns : List NodeId},
    Bears f ns a → ∃ order, f.layout.Preorder ns order ∧ order.length = Grove.count a
  | [], _, h => by
    cases h
    exact ⟨[], .nil, rfl⟩
  | (t, xs) :: rest, _, h => by
    obtain ⟨ms, ns, rfl, -, -, hms, hns⟩ := h
    obtain ⟨order, horder, hlen⟩ := DepictsAll.exists_preorder xs hms
    obtain ⟨behind, hbehind, hlen'⟩ := Bears.exists_preorder rest hns
    exact ⟨order ++ behind, horder.append hbehind,
      by rw [List.length_append, hlen, hlen', Grove.count]⟩

end

/-- The instances below a parent are elements of their own. -/
theorem Laid.count_le {s : Schema} (h : Laid s f f.layout) (hs : s.Built) {p : Option NodeId}
    {a : Grove} (ha : Bears f (f.layout p) a) : Grove.count a ≤ f.slots.size := by
  obtain ⟨order, horder, hlen⟩ := ha.exists_preorder
  rw [← hlen]
  apply length_le_slots (h.nodup_preorder hs horder (h.nodup p) fun _ => id)
  intro i hi
  obtain ⟨r, hr, hpath⟩ := horder.mem_iff.1 hi
  obtain ⟨q, hq⟩ : ∃ q, i ∈ f.layout q := by
    rcases hpath.cases_tail with rfl | ⟨q, -, hq⟩
    · exact ⟨p, hr⟩
    · exact ⟨some q, hq⟩
  obtain ⟨e, he, -⟩ := h.exists_of_mem hq
  exact ⟨_, slot_of_get? he⟩

end Depicts

namespace Context

variable {ctx : Context} {node : SchemaNode}

theorem countAll_arrange? {xs ys : List Tree} (h : ctx.arrange? node xs = some ys) :
    Tree.countAll ys = Tree.countAll xs := by
  unfold arrange? at h
  split at h
  · cases h
    unfold SchemaNode.arrange
    split
    · exact Tree.countAll_perm (List.mergeSort_perm xs node.mayPrecede)
    · rfl
  · cases h

variable [ByteCodec]

theorem demand_of_readFlat (ctx : Context) {below : Bool} {j : Json} {xs : List Tree}
    (hkey : node.isKey = false) (h : ctx.readFlat node j = some xs) :
    node.demand below j = Tree.countAll xs := by
  unfold readFlat at h
  unfold SchemaNode.demand
  cases hkind : node.kind with
  | leaf type =>
    rw [hkind] at h
    obtain ⟨v, -, rfl⟩ := Option.map_eq_some_iff.1 h
    simp [hkey, Tree.countAll, Tree.count, Tree.leaf, Grove.count]
  | leafList type =>
    rw [hkind] at h
    cases j with
    | arr items =>
      obtain ⟨vs, hvs, harrange⟩ := Option.bind_eq_some_iff.1 h
      rw [countAll_arrange? harrange, Tree.countAll_leaves]
      exact (mapM_eq_some.1 hvs).length_eq
    | _ => cases h
  | container =>
    rw [hkind] at h
    cases h
  | list keys =>
    rw [hkind] at h
    cases h

mutual

theorem demand_of_readMember (hs : ctx.schema.Built) {t : SchemaId} {node : SchemaNode}
    (hnode : ctx.schema.nodes[t]? = some node) (hkey : node.isKey = false) {below : Bool} :
    (j : Json) → ∀ {xs : List Tree}, ctx.readMember t node j = some xs →
      ctx.schema.memberDemand below t node j = Tree.countAll xs
  | .obj members, xs, h => by
    rw [Schema.memberDemand]
    cases hkind : node.kind with
    | container =>
      rw [readMember_container hkind, Option.bind_eq_some_iff] at h
      obtain ⟨a, ha, heq⟩ := h
      cases heq
      have hbelow := demand_of_readMembers hs (Schema.isSome_of_node hnode) members ha
      simp only [hbelow, Tree.countAll, Tree.count, Nat.add_zero]
    | leaf | leafList | list =>
      rw [readMember_obj (by simp [hkind])] at h
      exact demand_of_readFlat ctx hkey h
  | .arr items, xs, h => by
    rw [Schema.memberDemand]
    cases hkind : node.kind with
    | list keys =>
      have hkeys : node.keys = keys := by simp [SchemaNode.keys, hkind]
      subst hkeys
      rw [readMember_list hkind, Option.bind_eq_some_iff] at h
      obtain ⟨ys, hys, harrange⟩ := h
      rw [countAll_arrange? harrange]
      exact demand_of_readEntries hs hnode items hys
    | container | leaf | leafList =>
      rw [readMember_arr (by simp [hkind])] at h
      exact demand_of_readFlat ctx hkey h
  | .null, _, h => demand_of_readFlat ctx hkey h
  | .bool _, _, h => demand_of_readFlat ctx hkey h
  | .num _, _, h => demand_of_readFlat ctx hkey h
  | .str _, _, h => demand_of_readFlat ctx hkey h

theorem demand_of_readEntries (hs : ctx.schema.Built) {t : SchemaId} {node : SchemaNode}
    (hnode : ctx.schema.nodes[t]? = some node) {keys : List SchemaId} :
    (items : List Json) → ∀ {xs : List Tree}, ctx.readEntries t keys items = some xs →
      ctx.schema.entriesDemand t keys items = Tree.countAll xs
  | [], _, h => by
    cases h
    rfl
  | .obj fields :: rest, _, h => by
    simp only [readEntries, Option.bind_eq_bind, Option.bind_eq_some_iff] at h
    obtain ⟨values, hvalues, below, hbelow, ys, hys, heq⟩ := h
    cases heq
    have hkeys := Grove.count_keyLeaves (mapM_eq_some.1 hvalues).length_eq.symm
    rw [Schema.entriesDemand, demand_of_readMembers hs (Schema.isSome_of_node hnode) fields hbelow,
      demand_of_readEntries hs hnode rest hys, Tree.countAll, Tree.count, Grove.count_append, hkeys]
    omega
  | .null :: _, _, h => by cases h
  | .bool _ :: _, _, h => by cases h
  | .num _ :: _, _, h => by cases h
  | .str _ :: _, _, h => by cases h
  | .arr _ :: _, _, h => by cases h

theorem demand_of_readMembers (hs : ctx.schema.Built) {q : Option SchemaId}
    (hq : ∀ i, q = some i → (ctx.schema.nodes[i]?).isSome) :
    (members : List (String × Json)) → ∀ {a : Grove}, ctx.readMembers q members = some a →
      ctx.schema.membersDemand q members = Grove.count a
  | [], _, h => by
    cases h
    rfl
  | (name, j) :: rest, _, h => by
    have h' := h
    simp only [readMembers, Option.bind_eq_bind, Option.bind_eq_some_iff] at h'
    obtain ⟨c, hc, node, hnode, -⟩ := h'
    rw [readMembers_cons hc hnode] at h
    rw [Schema.membersDemand_cons hc hnode]
    cases hkey : node.isKey with
    | true =>
      rw [if_pos hkey] at h
      obtain ⟨⟨type, hkind⟩, hsome⟩ := hs.leaf_of_isKey hnode hkey
      obtain ⟨_, hnode', hparent, -⟩ := hs.named_eq_some hc hq
      cases hnode.symm.trans hnode'
      have hskip : ctx.schema.memberDemand q.isSome c node j = 0 := by
        cases j <;> simp [Schema.memberDemand, SchemaNode.demand, hkind, hkey, ← hparent, hsome]
      rw [hskip, Nat.zero_add]
      exact demand_of_readMembers hs hq rest h
    | false =>
      rw [if_neg (by simp [hkey]), Option.bind_eq_some_iff] at h
      obtain ⟨xs, hxs, h⟩ := h
      obtain ⟨b, hb, heq⟩ := Option.bind_eq_some_iff.1 h
      cases heq
      rw [demand_of_readMember hs hnode hkey j hxs, demand_of_readMembers hs hq rest hb,
        Grove.count_push]

end

end Context

end InstanceTree
