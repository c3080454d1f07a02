import InstanceTree.Proofs.Document.Export
import InstanceTree.Proofs.Document.Fitting

namespace InstanceTree

open Forest

theorem Json.Members.get?_of_mem {ms : Json.Members} {name : String} {j : Json}
    (hnd : (ms.map Prod.fst).Nodup) (h : (name, j) ∈ ms) : ms.get? name = some j := by
  induction ms with
  | nil => cases h
  | cons m ms ih =>
    obtain ⟨n, w⟩ := m
    obtain ⟨hn, hnd⟩ := List.nodup_cons.1 hnd
    rw [get?]
    rcases List.mem_cons.1 h with heq | h
    · cases heq
      rw [if_pos rfl]
    · rw [if_neg]
      · exact ih hnd h
      · rintro rfl
        exact hn (List.mem_map.2 ⟨_, h, rfl⟩)

theorem mem_keyLeaves {keys : List SchemaId} {values : List Value} {x : SchemaId × Value}
    (h : x ∈ keys.zip values) : (x.1, [Tree.leaf x.2]) ∈ keyLeaves keys values := by
  rw [keyLeaves, ← List.map_uncurry_zip_eq_zipWith]
  exact List.mem_map.2 ⟨x, h, rfl⟩

section

variable {ctx : Context} {q : Option SchemaId} {t : SchemaId} {node : SchemaNode} {a : Grove}
  {xs : List Tree}

theorem Grove.Fits.of_mem (h : Grove.Fits ctx q a) (hxs : (t, xs) ∈ a) :
    ∃ node, ctx.schema.nodes[t]? = some node ∧ node.parent = q ∧ ctx.Orderly node xs ∧
      Tree.FitAll ctx t xs := by
  induction a with
  | nil => cases hxs
  | cons group rest ih =>
    obtain ⟨u, ys⟩ := group
    obtain ⟨-, ⟨node, hnode, hparent, horder⟩, hfit, hrest⟩ := h
    rcases List.mem_cons.1 hxs with heq | hxs
    · cases heq
      exact ⟨node, hnode, hparent, horder, hfit⟩
    · exact ih hrest hxs

theorem SchemaNode.gather_distinct {items : List Json} (h : Json.distinctItems items = true) :
    (node.gather items).distinct = true := by
  unfold gather
  split
  · exact h
  · exact h
  · rcases List.mem_cons.1 (List.getLastD_mem_cons : items.getLastD .null ∈ _) with heq | hmem
    · rw [heq]
      rfl
    · exact Json.distinctItems_iff.1 h _ hmem

theorem Tree.Fits.plain_eq {below : Grove} (hnode : ctx.schema.nodes[t]? = some node)
    (hkeys : node.keys = []) (h : Tree.Fits ctx t (.node none below)) :
    Grove.plain ctx.schema below = below := by
  obtain ⟨-, m, values, hm, -, -, heq⟩ := h
  cases hnode.symm.trans hm
  rw [hkeys] at heq
  exact heq.symm

theorem Grove.plain_cons (hnode : ctx.schema.nodes[t]? = some node) :
    Grove.plain ctx.schema ((t, xs) :: a) =
      if node.isKey then Grove.plain ctx.schema a else (t, xs) :: Grove.plain ctx.schema a := by
  simp only [plain, List.filter_cons, hnode, Option.all_some]
  cases node.isKey <;> rfl

variable [ByteCodec]

namespace Grove.Fits

theorem mem_members (h : Grove.Fits ctx q a) (hxs : (t, xs) ∈ a)
    (hnode : ctx.schema.nodes[t]? = some node) :
    (node.name, node.gather (Tree.items ctx.schema xs)) ∈ Grove.members ctx.schema a := by
  induction a with
  | nil => cases hxs
  | cons group rest ih =>
    obtain ⟨u, ys⟩ := group
    obtain ⟨-, ⟨node', hnode', -, -⟩, -, hrest⟩ := h
    rw [Grove.members_cons hnode']
    rcases List.mem_cons.1 hxs with heq | hxs
    · cases heq
      cases hnode.symm.trans hnode'
      exact List.mem_cons_self
    · exact List.mem_cons_of_mem _ (ih hrest hxs)

theorem exists_of_name (h : Grove.Fits ctx q a) {name : String}
    (hname : name ∈ (Grove.members ctx.schema a).map Prod.fst) : ∃ t ∈ a.map Prod.fst, ∃ node,
      ctx.schema.nodes[t]? = some node ∧ node.parent = q ∧ node.name = name := by
  induction a with
  | nil => cases hname
  | cons group rest ih =>
    obtain ⟨t, xs⟩ := group
    obtain ⟨-, ⟨node, hnode, hparent, -⟩, -, hrest⟩ := h
    rw [Grove.members_cons hnode] at hname
    rcases List.mem_cons.1 hname with rfl | hname
    · exact ⟨t, List.mem_cons_self, node, hnode, hparent, rfl⟩
    · obtain ⟨u, hu, hnamed⟩ := ih hrest hname
      exact ⟨u, List.mem_cons_of_mem _ hu, hnamed⟩

theorem names_nodup (h : Grove.Fits ctx q a) (hs : ctx.schema.Built) :
    ((Grove.members ctx.schema a).map Prod.fst).Nodup := by
  induction a with
  | nil => exact List.nodup_nil
  | cons group rest ih =>
    obtain ⟨t, xs⟩ := group
    obtain ⟨hnew, ⟨node, hnode, hparent, -⟩, -, hrest⟩ := h
    rw [Grove.members_cons hnode]
    refine List.nodup_cons.2 ⟨fun hmem => ?_, ih hrest⟩
    obtain ⟨u, hu, m, hm, hparent', hname⟩ := exists_of_name hrest hmem
    cases hs.name_inj hm hnode (hparent'.trans hparent.symm) hname
    exact hnew hu

end Grove.Fits

mutual

theorem Tree.toJson_distinct (hs : ctx.schema.Built) : (x : Tree) → ∀ {t : SchemaId},
    x.Fits ctx t → (x.toJson ctx.schema).distinct = true
  | .node (some v) _, _, _ => by cases v <;> rfl
  | .node none below, t, ⟨hfit, _⟩ => by
    rw [Tree.toJson]
    exact Json.distinct_obj.2 ⟨hfit.names_nodup hs, Grove.members_distinct hs below hfit⟩

theorem Tree.items_distinct (hs : ctx.schema.Built) : (xs : List Tree) → ∀ {t : SchemaId},
    Tree.FitAll ctx t xs → Json.distinctItems (Tree.items ctx.schema xs) = true
  | [], _, _ => rfl
  | x :: xs, _, ⟨hx, hxs⟩ =>
    Json.distinctItems_cons.2 ⟨Tree.toJson_distinct hs x hx, Tree.items_distinct hs xs hxs⟩

theorem Grove.members_distinct (hs : ctx.schema.Built) : (a : Grove) → ∀ {q : Option SchemaId},
    Grove.Fits ctx q a → Json.distinctMembers (Grove.members ctx.schema a) = true
  | [], _, _ => rfl
  | (t, xs) :: rest, _, ⟨_, ⟨node, hnode, _⟩, hfit, hrest⟩ => by
    rw [Grove.members_cons hnode]
    exact Json.distinctMembers_cons.2 ⟨SchemaNode.gather_distinct (Tree.items_distinct hs xs hfit),
      Grove.members_distinct hs rest hrest⟩

end

theorem Grove.Fits.readKeys (hs : ctx.schema.Built) (hnode : ctx.schema.nodes[t]? = some node)
    {values : List Value} (hfit : Grove.Fits ctx (some t) (keyLeaves node.keys values ++ a))
    (hlen : node.keys.length = values.length) :
    node.keys.mapM (ctx.schema.readKey
      (Grove.members ctx.schema (keyLeaves node.keys values ++ a))) = some values := by
  rw [mapM_eq_some, List.forall₂_iff_zip]
  refine ⟨hlen, fun {key v} hmem => ?_⟩
  have hgroup : (key, [Tree.leaf v]) ∈ keyLeaves node.keys values ++ a :=
    List.mem_append_left _ (mem_keyLeaves hmem)
  obtain ⟨m, type, hm, hkind, -⟩ := hs.key hnode (List.of_mem_zip hmem).1
  obtain ⟨-, -, -, -, ⟨-, m', hm', hvalue⟩, -⟩ := hfit.of_mem hgroup
  cases hm.symm.trans hm'
  have hget := Json.Members.get?_of_mem (hfit.names_nodup hs) (hfit.mem_members hgroup hm)
  have hgather : m.gather (Tree.items ctx.schema [Tree.leaf v]) = v.toJson := by
    simp [SchemaNode.gather, hkind, Tree.items, Tree.leaf, Tree.toJson]
  rw [hgather] at hget
  simp only [Schema.readKey, hm, Option.bind_eq_bind, Option.bind_some, hget, hvalue,
    Value.ofJson?_toJson]

theorem Tree.readEntries (hs : ctx.schema.Built) (hnode : ctx.schema.nodes[t]? = some node)
    (hinner : node.valueType? = none) (hfit : Tree.FitAll ctx t xs)
    (hbelow : ∀ below, Tree.node none below ∈ xs →
      ctx.readMembers (some t) (Grove.members ctx.schema below) =
        some (Grove.plain ctx.schema below)) :
    ctx.readEntries t node.keys (Tree.items ctx.schema xs) = some xs := by
  induction xs with
  | nil => rfl
  | cons x xs ih =>
    obtain ⟨hx, hxs⟩ := hfit
    have hrest := ih hxs fun below hmem => hbelow below (List.mem_cons_of_mem _ hmem)
    obtain ⟨_ | v, below⟩ := x
    · obtain ⟨hgrove, m, values, hm, -, hlen, heq⟩ := hx
      cases hnode.symm.trans hm
      have hmembers := hbelow below List.mem_cons_self
      have hkeys := Grove.Fits.readKeys hs hnode (a := Grove.plain ctx.schema below)
        (heq ▸ hgrove) hlen
      rw [← heq] at hkeys
      rw [Tree.items, Tree.toJson]
      simp only [Context.readEntries, hkeys, hmembers, hrest, Option.bind_eq_bind,
        Option.bind_some, ← heq]
      rfl
    · obtain ⟨-, m, hm, hvalue⟩ := hx
      cases hnode.symm.trans hm
      cases hinner.symm.trans hvalue

theorem Tree.readValues {type : ValueType} (hnode : ctx.schema.nodes[t]? = some node)
    (htype : node.valueType? = some type) (hfit : Tree.FitAll ctx t xs) :
    ∃ vs : List Value, xs = vs.map Tree.leaf ∧
      (Tree.items ctx.schema xs).mapM (Value.ofJson? type) = some vs := by
  induction xs with
  | nil => exact ⟨[], rfl, rfl⟩
  | cons x xs ih =>
    obtain ⟨hx, hxs⟩ := hfit
    obtain ⟨vs, rfl, hvs⟩ := ih hxs
    obtain ⟨_ | v, below⟩ := x
    · obtain ⟨-, m, -, hm, hvalue, -⟩ := hx
      cases hnode.symm.trans hm
      cases hvalue.symm.trans htype
    · obtain ⟨rfl, m, hm, hvalue⟩ := hx
      cases hnode.symm.trans hm
      cases htype.symm.trans hvalue
      refine ⟨v :: vs, rfl, ?_⟩
      rw [Tree.items, Tree.toJson, List.mapM_cons, Value.ofJson?_toJson, hvs]
      rfl

theorem Context.Orderly.readMember (horder : ctx.Orderly node xs) (hs : ctx.schema.Built)
    (hnode : ctx.schema.nodes[t]? = some node) (hfit : Tree.FitAll ctx t xs)
    (hbelow : ∀ below, Tree.node none below ∈ xs →
      ctx.readMembers (some t) (Grove.members ctx.schema below) =
        some (Grove.plain ctx.schema below)) :
    ctx.readMember t node (node.gather (Tree.items ctx.schema xs)) = some xs := by
  have harrange : ctx.arrange? node xs = some xs := by
    rw [Context.arrange?_eq_some horder.room, horder.arranged]
  have hone : node.isSingle = true → ∃ x, xs = [x] := fun hsingle =>
    List.length_eq_one_iff.1 (horder.single hsingle)
  cases hkind : node.kind with
  | leaf type =>
    have htype : node.valueType? = some type := by simp [SchemaNode.valueType?, hkind]
    obtain ⟨x, rfl⟩ := hone (by simp [SchemaNode.isSingle, hkind])
    obtain ⟨vs, hxs, hvs⟩ := Tree.readValues hnode htype hfit
    obtain ⟨v, rfl, rfl⟩ := List.map_eq_singleton_iff.1 hxs.symm
    obtain _ | ⟨hread, -⟩ := mapM_eq_some.1 hvs
    have hgather : node.gather (Tree.items ctx.schema [Tree.leaf v]) = v.toJson := by
      simp [SchemaNode.gather, hkind, Tree.items, Tree.leaf, Tree.toJson]
    rw [hgather, Context.readMember_leaf hkind]
    exact congrArg _ hread
  | container =>
    obtain ⟨x, rfl⟩ := hone (by simp [SchemaNode.isSingle, hkind])
    obtain ⟨hx, -⟩ := hfit
    obtain ⟨_ | v, below⟩ := x
    · have hplain := hx.plain_eq hnode (by simp [SchemaNode.keys, hkind])
      have hread := hbelow below List.mem_cons_self
      have hgather : node.gather (Tree.items ctx.schema [.node none below]) =
          .obj (Grove.members ctx.schema below) := by
        simp [SchemaNode.gather, hkind, Tree.items, Tree.toJson]
      rw [hgather, Context.readMember_container hkind, hread, hplain, Option.bind_some]
    · obtain ⟨-, m, hm, hvalue⟩ := hx
      cases hnode.symm.trans hm
      simp [SchemaNode.valueType?, hkind] at hvalue
  | leafList type =>
    have htype : node.valueType? = some type := by simp [SchemaNode.valueType?, hkind]
    obtain ⟨vs, rfl, hvs⟩ := Tree.readValues hnode htype hfit
    have hgather : node.gather (Tree.items ctx.schema (vs.map Tree.leaf)) =
        .arr (Tree.items ctx.schema (vs.map Tree.leaf)) := by
      simp [SchemaNode.gather, hkind]
    rw [hgather, Context.readMember_arr (by simp [hkind]), Context.readFlat_items hkind, hvs,
      Option.bind_some, harrange]
  | list keys =>
    have hkeys : node.keys = keys := by simp [SchemaNode.keys, hkind]
    have hentries := Tree.readEntries hs hnode (by simp [SchemaNode.valueType?, hkind]) hfit hbelow
    have hgather : node.gather (Tree.items ctx.schema xs) = .arr (Tree.items ctx.schema xs) := by
      simp [SchemaNode.gather, hkind]
    rw [hgather, Context.readMember_list (hkeys ▸ hkind), hentries, Option.bind_some, harrange]

mutual

theorem Tree.Fits.readMembers (hs : ctx.schema.Built) : (x : Tree) → ∀ {t : SchemaId}
    {below : Grove}, x.Fits ctx t → x = .node none below →
      ctx.readMembers (some t) (Grove.members ctx.schema below) =
        some (Grove.plain ctx.schema below)
  | .node _ below, t, _, h, heq => by
    cases heq
    obtain ⟨hfit, node, _, hnode, _⟩ := h
    exact Grove.Fits.readMembers hs below hfit (Schema.isSome_of_node hnode)

theorem Tree.FitAll.readMembers (hs : ctx.schema.Built) : (xs : List Tree) → ∀ {t : SchemaId},
    Tree.FitAll ctx t xs → ∀ below, Tree.node none below ∈ xs →
      ctx.readMembers (some t) (Grove.members ctx.schema below) =
        some (Grove.plain ctx.schema below)
  | x :: xs, _, ⟨hx, hxs⟩, below, hmem => by
    rcases List.mem_cons.1 hmem with heq | hmem
    · exact Tree.Fits.readMembers hs x hx heq.symm
    · exact Tree.FitAll.readMembers hs xs hxs below hmem

/-- Siblings are read back from the members that they make up, key leaves apart. -/
theorem Grove.Fits.readMembers (hs : ctx.schema.Built) : (a : Grove) → ∀ {q : Option SchemaId},
    Grove.Fits ctx q a → (∀ i, q = some i → (ctx.schema.nodes[i]?).isSome) →
      ctx.readMembers q (Grove.members ctx.schema a) = some (Grove.plain ctx.schema a)
  | [], _, _, _ => rfl
  | (t, xs) :: rest, q, ⟨_, ⟨node, hnode, hparent, horder⟩, hfit, hrest⟩, hq => by
    subst hparent
    rw [Grove.members_cons hnode, Context.readMembers_cons (hs.named_eq hnode) hnode,
      Grove.Fits.readMembers hs rest hrest hq, Grove.plain_cons hnode]
    split
    · rfl
    · rw [horder.readMember hs hnode hfit (Tree.FitAll.readMembers hs xs hfit)]
      obtain ⟨x, ys, rfl⟩ := List.exists_cons_of_ne_nil horder.nonempty
      rfl

end

end

end InstanceTree
