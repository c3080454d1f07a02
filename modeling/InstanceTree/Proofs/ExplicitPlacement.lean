import InstanceTree.Proofs.ChainInvariant

namespace InstanceTree

open Edit Forest

namespace Forest

/-- Siblings are well ordered: the key leaves are ahead of all others, and the instances of every
schema node follow each other without a gap. -/
structure WellOrdered (ctx : Context) (f : Forest) (l : List NodeId) : Prop where
  keysAhead : l.Pairwise fun a b => f.IsKey ctx b → f.IsKey ctx a
  contiguous : ∀ t, Contiguous (f.isOf t) l

/-- An element may be put below a parent by hand: the schema lets it stand there, and it is
neither kept sorted nor a key. -/
def PlacedByHand (ctx : Context) (f : Forest) (p : Option NodeId) (n : NodeId) : Prop :=
  ∃ node, f.schemaNode ctx n = .ok node ∧ p.mapM f.schemaOf = .ok node.parent ∧
    ¬node.KeptSorted ∧ node.isKey = false

theorem IsKeyLeaf.isKey {ctx : Context} {f : Forest} {n : NodeId} {key : SchemaId}
    (h : f.IsKeyLeaf ctx n key) : f.IsKey ctx n := by
  obtain ⟨hschema, node, -, hnode, hkey, -⟩ := h
  refine ⟨node, ?_, hkey⟩
  rw [schemaNode, hschema]
  exact hnode

theorem Chained.wellOrdered {ctx : Context} {f : Forest} {p : Option NodeId} {l : List NodeId}
    (h : Chained ctx f p l) : WellOrdered ctx f l where
  keysAhead := by
    obtain ⟨cs, rest, rfl, hcs, hrest⟩ := h.keys
    have hlead : ∀ a ∈ cs, f.IsKey ctx a := by
      intro a ha
      obtain ⟨i, hi, rfl⟩ := List.getElem_of_mem ha
      have hget := List.forall₂_iff_get.1 hcs
      exact (hget.2 i hi (hget.1 ▸ hi)).isKey
    have hnone : ∀ b ∈ rest, ¬f.IsKey ctx b := by
      intro b hb hkey
      obtain ⟨node, hnode, hkey⟩ := hkey
      cases (hrest b hb node hnode).symm.trans hkey
    rw [List.pairwise_append]
    refine ⟨?_, ?_, ?_⟩
    · exact List.pairwise_iff_getElem.2 fun i j hi _ _ _ => hlead _ (List.getElem_mem hi)
    · exact List.pairwise_iff_getElem.2 fun i j _ hj _ hkey =>
        absurd hkey (hnone _ (List.getElem_mem hj))
    · exact fun a ha b _ _ => hlead a ha
  contiguous := h.contiguous

end Forest

namespace Sound

variable {ctx : Context} {f : Forest} {k : Layout} {p : Option NodeId} {n pivot : NodeId}
  {e ep : Element} {node : SchemaNode} {xs ys : List NodeId}

theorem placeable_iff (h : Sound ctx f k) (hled : KeyLed ctx.schema f k) (hs : ctx.schema.Built)
    (hk : k p = xs ++ ys) (hp : f.Alive p) (he : f.get? n = some e)
    (hnode : ctx.schema.nodes[e.schema]? = some node) :
    Placeable ctx f node e.schema xs ys ↔
      ¬node.KeptSorted ∧ node.isKey = false ∧ WellOrdered ctx f (xs ++ n :: ys) := by
  have hold := (h.chained hled hs hp).wellOrdered
  rw [hk] at hold
  have hnof : ∀ t, f.isOf t n = true ↔ t = e.schema := by
    intro t
    simp [isOf, kind?, he, eq_comm]
  have hbehind : BehindKeys ctx.schema f ys ↔ ∀ a, ys.head? = some a → ¬f.IsKey ctx a := by
    constructor
    · intro hb a ha hkey
      obtain ⟨following, hfollowing, hkey⟩ := hkey
      obtain ⟨ea, hea⟩ := h.laid.alive_head hk a ha
      have hno := hb a ea.schema ha (by simp [kind?, hea])
      cases ((hs.noKey_iff (schemaNode_eq_ok hea hfollowing)).1 hno).symm.trans hkey
    · intro hb a t ha ht
      obtain ⟨ea, hea, rfl⟩ := get?_of_kind? ht
      obtain ⟨following, hfollowing, hnodea⟩ := schemaNode_ok h.laid hea
      apply hs.noKey_of_isKey hnodea
      rw [← Bool.not_eq_true]
      exact fun hkey => hb a ha ⟨following, hfollowing, hkey⟩
  have hnkey : node.isKey = false → ¬f.IsKey ctx n := by
    intro hkey hisKey
    obtain ⟨node', hlook, hkey'⟩ := hisKey
    cases hnode.symm.trans (schemaNode_eq_ok he hlook)
    cases hkey.symm.trans hkey'
  constructor
  · intro hplace
    refine ⟨SchemaNode.sortKind?_eq_none.1 hplace.unsorted, hplace.noKey, ?_, fun t => ?_⟩
    · exact (pairwise_insert_iff hold.keysAhead (hnkey hplace.noKey)).2 (hbehind.1 hplace.behind)
    · rw [(hold.contiguous t).insert_iff]
      split
      · next ht =>
        cases (hnof t).1 ht
        exact hplace.beside
      · next ht => exact hplace.outside t fun heq => ht ((hnof t).2 heq)
  · intro hplace
    obtain ⟨hsorted, hkey, hkeys, hcontiguous⟩ := hplace
    refine ⟨SchemaNode.sortKind?_eq_none.2 hsorted, hkey, hbehind.2 ?_, fun t ht => ?_, ?_⟩
    · exact (pairwise_insert_iff hold.keysAhead (hnkey hkey)).1 hkeys
    · have hn : ¬f.isOf t n = true := fun hof => ht ((hnof t).1 hof)
      simpa [hn] using (hold.contiguous t).insert_iff.1 (hcontiguous t)
    · have hn : f.isOf e.schema n = true := (hnof _).2 rfl
      simpa [hn] using (hold.contiguous e.schema).insert_iff.1 (hcontiguous e.schema)

theorem place_ok_iff (h : Sound ctx f k) (hled : KeyLed ctx.schema f k) (hs : ctx.schema.Built)
    (hk : k p = xs ++ ys) (hne : xs ++ ys ≠ []) (he : f.get? n = some e)
    (hnode : ctx.schema.nodes[e.schema]? = some node) {splice : Forest → Except Fault Forest}
    {g : Forest} (hsplice : splice f = .ok g) :
    (∃ g, (do
      requireParent ctx p n
      requirePlace ctx xs.getLast? ys.head? n
      change splice : Edit Unit).perform f = .ok (.ok (), g)) ↔
      node.parent = p.bind f.kind? ∧ ¬node.KeptSorted ∧ node.isKey = false ∧
        WellOrdered ctx f (xs ++ n :: ys) := by
  obtain ⟨m, hm⟩ := List.exists_mem_of_ne_nil _ hne
  have hp := h.laid.alive_of_mem (hk ▸ hm)
  rw [(requireParent_checks h.laid hp he hnode).bind_ok_iff,
    (requirePlace_checks h.laid hs hk hne he hnode).bind_ok_iff,
    h.placeable_iff hled hs hk hp he hnode]
  exact and_congr_right fun _ => and_iff_left ⟨g, perform_change_ok hsplice⟩

theorem insertBefore_ok_iff (h : Sound ctx f k) (hled : KeyLed ctx.schema f k)
    (hs : ctx.schema.Built) (hep : f.get? pivot = some ep) (hk : k ep.parent = xs ++ pivot :: ys)
    (he : f.get? n = some e) (hnode : ctx.schema.nodes[e.schema]? = some node) :
    (∃ g, (insertBefore ctx pivot n).perform f = .ok (.ok (), g)) ↔
      e.linked = false ∧ node.parent = ep.parent.bind f.kind? ∧ ¬node.KeptSorted ∧
        node.isKey = false ∧ WellOrdered ctx f (xs ++ n :: pivot :: ys) := by
  obtain ⟨hlinked, -, hprev, -⟩ := h.laid.links_of_get? hk hep
  rw [insertBefore, (requireUnlinked_checks he).bind_ok_iff]
  apply and_congr_right
  intro hloose
  rw [(requireLinked_checks hep).bind_ok_iff, and_iff_right hlinked,
    perform_bind_ok (perform_look_ok (element_of_get? hep)), hprev]
  exact h.place_ok_iff hled hs hk (by simp) he hnode (h.laid.spliceBefore_eq hk rfl he hloose)

theorem insertAfter_ok_iff (h : Sound ctx f k) (hled : KeyLed ctx.schema f k)
    (hs : ctx.schema.Built) (hep : f.get? pivot = some ep) (hk : k ep.parent = xs ++ pivot :: ys)
    (he : f.get? n = some e) (hnode : ctx.schema.nodes[e.schema]? = some node) :
    (∃ g, (insertAfter ctx pivot n).perform f = .ok (.ok (), g)) ↔
      e.linked = false ∧ node.parent = ep.parent.bind f.kind? ∧ ¬node.KeptSorted ∧
        node.isKey = false ∧ WellOrdered ctx f (xs ++ pivot :: n :: ys) := by
  obtain ⟨hlinked, -, -, hnext⟩ := h.laid.links_of_get? hk hep
  have hk' : k ep.parent = (xs ++ [pivot]) ++ ys := by simpa using hk
  rw [insertAfter, (requireUnlinked_checks he).bind_ok_iff]
  apply and_congr_right
  intro hloose
  rw [(requireLinked_checks hep).bind_ok_iff, and_iff_right hlinked,
    perform_bind_ok (perform_look_ok (element_of_get? hep)), hnext,
    ← List.getLast?_concat (l := xs) (a := pivot), List.append_cons xs pivot (n :: ys)]
  exact h.place_ok_iff hled hs hk' (by simp) he hnode
    (h.laid.spliceAfter_eq hk' List.getLast?_concat he hloose)

/-- Whether an edit places an element beside a linked pivot may be told from the place among the
siblings of the pivot, if it can be told for every way in which the siblings are laid out. -/
theorem beside_ok_iff (h : Sound ctx f k) (hep : f.get? pivot = some ep) (he : f.get? n = some e)
    (hnode : ctx.schema.nodes[e.schema]? = some node) {op : Edit Unit}
    (place : List NodeId → List NodeId → List NodeId)
    (hlinked : (∃ g, op.perform f = .ok (.ok (), g)) → ep.linked = true)
    (hiff : ∀ xs ys, k ep.parent = xs ++ pivot :: ys →
      ((∃ g, op.perform f = .ok (.ok (), g)) ↔ e.linked = false ∧
        node.parent = ep.parent.bind f.kind? ∧ ¬node.KeptSorted ∧ node.isKey = false ∧
          WellOrdered ctx f (place xs ys))) :
    (∃ g, op.perform f = .ok (.ok (), g)) ↔
      e.linked = false ∧ ep.linked = true ∧ f.PlacedByHand ctx ep.parent n ∧
        ∃ xs ys, f.children ep.parent = .ok (xs ++ pivot :: ys) ∧
          WellOrdered ctx f (place xs ys) := by
  have hlook : f.schemaNode ctx n = .ok node :=
    schemaNode_eq (t := e.schema) (by simp [kind?, he]) hnode
  constructor
  · intro hop
    have hpivot := h.laid.placed pivot ep hep (hlinked hop)
    have hp := h.laid.alive_of_mem hpivot
    obtain ⟨xs, ys, hk⟩ := List.append_of_mem hpivot
    obtain ⟨hloose, hparent, hsorted, hkey, hordered⟩ := (hiff xs ys hk).1 hop
    refine ⟨hloose, hlinked hop, ⟨node, hlook, ?_, hsorted, hkey⟩, xs, ys, ?_, hordered⟩
    · rw [Option.mapM_schemaOf hp, hparent]
    · rw [h.laid.children_eq hp, hk]
  · intro hplace
    obtain ⟨hloose, -, ⟨node', hlook', hparent, hsorted, hkey⟩, xs, ys, hchildren, hordered⟩ :=
      hplace
    cases hlook.symm.trans hlook'
    obtain ⟨hp, hk⟩ := h.laid.eq_of_children hchildren
    rw [Option.mapM_schemaOf hp] at hparent
    exact (hiff xs ys hk.symm).2 ⟨hloose, (Except.ok.inj hparent).symm, hsorted, hkey, hordered⟩

end Sound

/-- An explicit place beside a pivot is taken exactly where the schema lets the element stand and
the siblings stay well ordered. -/
theorem Reachable.placed_iff_wellOrdered {ctx : Context} {f : Forest} (h : Reachable ctx f)
    (hs : ctx.schema.Built) {pivot n : NodeId} {ep e : Element} (hpivot : f.element pivot = .ok ep)
    (hn : f.element n = .ok e) :
    ((∃ g, (insertBefore ctx pivot n).perform f = .ok (.ok (), g)) ↔
      e.linked = false ∧ ep.linked = true ∧ f.PlacedByHand ctx ep.parent n ∧
        ∃ xs ys, f.children ep.parent = .ok (xs ++ pivot :: ys) ∧
          WellOrdered ctx f (xs ++ n :: pivot :: ys)) ∧
    ((∃ g, (insertAfter ctx pivot n).perform f = .ok (.ok (), g)) ↔
      e.linked = false ∧ ep.linked = true ∧ f.PlacedByHand ctx ep.parent n ∧
        ∃ xs ys, f.children ep.parent = .ok (xs ++ pivot :: ys) ∧
          WellOrdered ctx f (xs ++ pivot :: n :: ys)) := by
  obtain ⟨k, hsound, hled⟩ := h.isSound hs
  have hep := element_eq_some.1 hpivot
  have he := element_eq_some.1 hn
  obtain ⟨node, -, hnode⟩ := schemaNode_ok hsound.laid he
  constructor
  · apply hsound.beside_ok_iff hep he hnode (fun xs ys => xs ++ n :: pivot :: ys)
    · intro hop
      rw [insertBefore, (requireUnlinked_checks he).bind_ok_iff] at hop
      exact ((requireLinked_checks hep).bind_ok_iff.1 hop.2).1
    · exact fun xs ys hk => hsound.insertBefore_ok_iff hled hs hep hk he hnode
  · apply hsound.beside_ok_iff hep he hnode (fun xs ys => xs ++ pivot :: n :: ys)
    · intro hop
      rw [insertAfter, (requireUnlinked_checks he).bind_ok_iff] at hop
      exact ((requireLinked_checks hep).bind_ok_iff.1 hop.2).1
    · exact fun xs ys hk => hsound.insertAfter_ok_iff hled hs hep hk he hnode

/-- A remark may stand behind the key of an entry, but not in front of it. -/
theorem Reachable.placed_iff_wellOrdered_of_remark : ∃ f, Reachable (.ofEntries true) f ∧
    (∃ e, f.element 1 = .ok e) ∧ (∃ e, f.element 2 = .ok e) ∧
      f.children (some 0) = .ok [1] ∧ WellOrdered (.ofEntries true) f [1, 2] ∧
        ¬WellOrdered (.ofEntries true) f [2, 1] := by
  have hlist := ((Reachable.empty : Reachable (.ofEntries true) .empty).step
    (.createList 0 [.uint 7]) rfl).step (.insertChild none 0) rfl
  have h := hlist.step (.createTerm 2 (.string "first")) rfl
  obtain ⟨f, ep, e, h, hpivot, hn, hparent, hloose, hlinked, hhand, hchildren, hafter, why,
      hbefore⟩ : ∃ f ep e, Reachable (.ofEntries true) f ∧ f.element 1 = .ok ep ∧
        f.element 2 = .ok e ∧ ep.parent = some 0 ∧ e.linked = false ∧ ep.linked = true ∧
        f.PlacedByHand (.ofEntries true) (some 0) 2 ∧ f.children (some 0) = .ok [1] ∧
        (∃ g, (insertAfter (.ofEntries true) 1 2).perform f = .ok (.ok (), g)) ∧
        ∃ why, (insertBefore (.ofEntries true) 1 2).perform f = .ok (.error why, f) :=
    ⟨_, _, _, h, rfl, rfl, rfl, rfl, rfl,
      ⟨_, rfl, rfl, SchemaNode.sortKind?_eq_none.1 rfl, rfl⟩, rfl, ⟨_, rfl⟩, _, rfl⟩
  obtain ⟨hbeforeIff, hafterIff⟩ := h.placed_iff_wellOrdered Schema.entries_built hpivot hn
  rw [hparent] at hbeforeIff hafterIff
  refine ⟨f, h, ⟨ep, hpivot⟩, ⟨e, hn⟩, hchildren, ?_, fun hordered => ?_⟩
  · obtain ⟨-, -, -, xs, ys, hsplit, hordered⟩ := hafterIff.1 hafter
    have hxs : [1] = xs ++ 1 :: ys := Except.ok.inj (hchildren.symm.trans hsplit)
    obtain ⟨rfl, rfl⟩ : xs = [] ∧ ys = [] := by
      cases xs <;> simp_all
    exact hordered
  · obtain ⟨g, hg⟩ := hbeforeIff.2 ⟨hloose, hlinked, hhand, [], [], hchildren, hordered⟩
    cases hbefore.symm.trans hg

end InstanceTree
