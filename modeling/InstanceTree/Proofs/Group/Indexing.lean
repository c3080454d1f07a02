import InstanceTree.Group.Sorted
import InstanceTree.Proofs.Edit
import InstanceTree.Proofs.Group.Joining

namespace InstanceTree

open Forest RedBlack

/-- An index of a rule and a limit that has the members of a group, in order. -/
structure Index.Has (i : Index) (ctx : Context) (kind : SortKind) (g : List NodeId) : Prop where
  kind_eq : i.kind = kind
  limit_eq : i.bag.limit = ctx.options.indexLimit
  allowed : ctx.Allows g.length
  members : ∃ es, i.bag.Contains es ∧ es.map (·.2) = g

theorem indexes_some {ctx : Context} {kind : SortKind} {g : List NodeId} {i : Index} :
    Indexes ctx kind g (some i) ↔ 2 ≤ g.length ∧ i.Has ctx kind g :=
  ⟨fun ⟨hg, hkind, hlimit, hfits, hes⟩ => ⟨hg, hkind, hlimit, hfits, hes⟩,
    fun ⟨hg, hkind, hlimit, hfits, hes⟩ => ⟨hg, hkind, hlimit, hfits, hes⟩⟩

theorem Index.has_empty (ctx : Context) (kind : SortKind) :
    (Index.empty kind ctx.options.indexLimit).Has ctx kind [] :=
  ⟨rfl, rfl, fun _ _ => Nat.zero_le _, [], Bag.contains_empty _, rfl⟩

namespace Index.Has

variable {ctx : Context} {f : Forest} {kind : SortKind} {g gx gy : List NodeId} {i : Index}
  {n : NodeId} {c : NodeId → NodeId → Ordering} {S : NodeId → Prop}

theorem insert?_eq (h : i.Has ctx kind (gx ++ gy)) (hlt : (gx ++ gy).length < handleCount)
    (hs : Comparator.Sorts (f.compareBy ctx kind) c S) (hin : ∀ m ∈ gx ++ gy, S m) (hn : S n)
    (hasc : (gx ++ gy).Pairwise fun a b => c a b ≠ .gt) (hx : ∀ m ∈ gx, c m n ≠ .gt)
    (hy : ∀ m ∈ gy, c m n = .gt) :
    (∃ limit, ctx.options.indexLimit = some limit ∧ limit ≤ (gx ++ gy).length ∧
      i.insert? ctx f n = .ok none) ∨
    ∃ i' node, i.insert? ctx f n = .ok (some (i', node)) ∧ i'.Has ctx kind (gx ++ n :: gy) ∧
      i'.predecessor? node = .ok gx.getLast? := by
  obtain ⟨rfl, hlimit, -, es, hes, hmem⟩ := h
  have hcount : i.bag.count = (gx ++ gy).length := by rw [hes.count, ← hmem, List.length_map]
  have hin' : ∀ x ∈ es, S x.2 := fun x hx => hin x.2 (hmem ▸ List.mem_map_of_mem hx)
  have hasc' : es.Pairwise fun x y => c x.2 y.2 ≠ .gt := by
    rw [← hmem, List.pairwise_map] at hasc
    exact hasc
  cases hfull : i.bag.isFull with
  | true =>
    obtain ⟨limit, hl, hle⟩ := (Bag.isFull_iff _).1 hfull
    refine .inl ⟨limit, hlimit ▸ hl, hcount ▸ hle, ?_⟩
    have hroom : ¬i.bag.HasRoom true := by
      rintro ⟨hroom, -⟩
      cases hfull.symm.trans hroom
    simp only [insert?, Bag.insert?_refused hroom, ok_bind]
    rfl
  | false =>
    have hroom : i.bag.HasRoom true := hes.hasRoom hfull (by rwa [← hes.count, hcount])
    obtain ⟨b, node, hout, hb, hblimit⟩ := hes.insert?_eq hroom hs hn hin' hasc'
    obtain ⟨xs, ys, rfl, hstably, hxs, hys⟩ := hs.stably_split hn hin' hasc' node
    rw [hstably] at hb
    have hcut : xs.map (·.2) = gx ∧ ys.map (·.2) = gy := by
      refine append_inj_of_forall (P := fun m => c m n ≠ .gt) (by simpa using hmem) ?_ ?_ hx ?_
      · simpa using fun m j hm => hxs (j, m) hm
      · simpa using fun m j hm => hys (j, m) hm
      · exact fun m hm hne => hne (hy m hm)
    obtain ⟨rfl, rfl⟩ := hcut
    refine .inr ⟨{ i with bag := b }, node, ?_, ?_, ?_⟩
    · simp only [insert?, hout, ok_bind]
      rfl
    · refine ⟨rfl, hblimit.trans hlimit, ?_, _, hb, by simp⟩
      intro limit hl
      have hroom : ¬limit ≤ i.bag.count := by
        intro hle
        simp [(Bag.isFull_iff _).2 ⟨limit, hlimit.trans hl, hle⟩] at hfull
      simp only [List.length_append, List.length_cons] at hcount ⊢
      omega
    · simp only [predecessor?, hb.prev_eq rfl, ok_bind]
      rcases List.eq_nil_or_concat xs with rfl | ⟨xs, ⟨j, m⟩, rfl⟩
      · rfl
      · have hm := hb.elem_eq (n := j) (e := m) (by simp)
        simp only [List.concat_eq_append, List.getLast?_concat, Option.map_some, hm,
          List.map_append, List.map_cons, List.map_nil]
        rfl

theorem members_eq (h : i.Has ctx kind g) : i.members = .ok g := by
  obtain ⟨es, hes, rfl⟩ := h.members
  exact hes.toList_eq

theorem count_eq (h : i.Has ctx kind g) : i.count = g.length := by
  obtain ⟨es, hes, rfl⟩ := h.members
  rw [count, hes.count, List.length_map]

theorem drain_eq (h : i.Has ctx kind g) : i.drain = .ok g.length := by
  obtain ⟨es, hes, rfl⟩ := h.members
  obtain ⟨⟨b, gone⟩, hdrain, -, hgone⟩ := hes.drain_spec
  simp only [drain, hdrain, ok_bind]
  rw [← hgone.length_eq]
  rfl

theorem drops (h : i.Has ctx kind g) : Drops (some ⟨some i⟩) := by
  simp only [Drops, dropAnchor, Option.bind_some, h.drain_eq, ok_bind]
  rfl

theorem remove_spec (h : i.Has ctx kind (gx ++ n :: gy))
    (hs : Comparator.Sorts (f.compareBy ctx kind) c S) (hin : ∀ m ∈ gx ++ n :: gy, S m)
    (hasc : (gx ++ n :: gy).Pairwise fun a b => c a b ≠ .gt) (hnd : (gx ++ n :: gy).Nodup) :
    Yields (i.remove ctx f n) fun i' => i'.Has ctx kind (gx ++ gy) := by
  obtain ⟨rfl, hlimit, hfits, es, hes, hmem⟩ := h
  have hin' : ∀ x ∈ es, S x.2 := fun x hx => hin x.2 (hmem ▸ List.mem_map_of_mem hx)
  have hasc' : es.Pairwise fun x y => c x.2 y.2 ≠ .gt := by
    rw [← hmem, List.pairwise_map] at hasc
    exact hasc
  obtain ⟨xs, ys', rfl, rfl, hys⟩ := List.map_eq_append_iff.1 hmem
  obtain ⟨⟨j, m⟩, ys, rfl, rfl, rfl⟩ := List.map_eq_cons_iff.1 hys
  have hfind := hes.find_eq hs hin' hasc' (n := j) (e := m) (by simp) (hmem ▸ hnd)
  have hj : ∀ x ∈ xs, ¬(x.1 == j) = true := by
    intro x hx hxj
    have hnodup := hes.nodup
    rw [List.map_append, List.map_cons, List.nodup_append] at hnodup
    exact hnodup.2.2 x.1 (List.mem_map_of_mem hx) j (by simp) (by simpa using hxj)
  obtain ⟨b, hb, hbes, hblimit, -⟩ := hes.remove_spec (n := j) (by simp)
  rw [List.eraseP_append_right _ hj, List.eraseP_cons_of_pos (by simp)] at hbes
  have hfits' : ctx.Allows (xs.map (·.2) ++ ys.map (·.2)).length := by
    intro limit hl
    have hle := hfits limit hl
    simp only [List.length_append, List.length_map, List.length_cons] at hle ⊢
    omega
  refine .intro (a := { i with bag := b }) ?_ ⟨rfl, hblimit.trans hlimit, hfits', _, hbes, by simp⟩
  simp only [remove, hfind, ok_bind, hb]
  rfl

end Index.Has

end InstanceTree
