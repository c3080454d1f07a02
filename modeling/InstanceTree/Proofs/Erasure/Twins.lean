import InstanceTree.Proofs.Erasure.Blind
import InstanceTree.Proofs.Operations.Removal

namespace InstanceTree

open Edit Forest

/-- Contexts of one schema, of which the first sets no limit to indexes and the second has no
indexes at all. -/
structure Context.Twins (ctx ctx' : Context) : Prop where
  schema_eq : ctx'.schema = ctx.schema
  unlimited : ctx.options.indexLimit = none
  plain : ctx'.indexes = false

section OneSchema

namespace Forest

variable {ctx ctx' : Context} (h : ctx'.schema = ctx.schema)

include h

theorem schemaNode_congr : schemaNode ctx' = schemaNode ctx := by
  funext f n
  rw [schemaNode, schemaNode, h]

theorem requireParent_congr (p : Option NodeId) (n : NodeId) :
    requireParent ctx' p n = requireParent ctx p n := by
  rw [requireParent, requireParent, schemaNode_congr h, h]

theorem requirePlace_congr (prev next : Option NodeId) (n : NodeId) :
    requirePlace ctx' prev next n = requirePlace ctx prev next n := by
  rw [requirePlace, requirePlace, schemaNode_congr h]

theorem insertBefore_congr (pivot n : NodeId) :
    insertBefore ctx' pivot n = insertBefore ctx pivot n := by
  simp only [insertBefore, requireParent_congr h, requirePlace_congr h]

theorem insertAfter_congr (pivot n : NodeId) :
    insertAfter ctx' pivot n = insertAfter ctx pivot n := by
  simp only [insertAfter, requireParent_congr h, requirePlace_congr h]

theorem createTerm_congr (t : SchemaId) (v : Value) : createTerm ctx' t v = createTerm ctx t v := by
  rw [createTerm, createTerm, h]

theorem createContainer_congr (t : SchemaId) : createContainer ctx' t = createContainer ctx t := by
  rw [createContainer, createContainer, h]

theorem requireKeyTypes_congr (keys : List SchemaId) (values : List Value) :
    requireKeyTypes ctx' keys values = requireKeyTypes ctx keys values := by
  induction keys generalizing values with
  | nil => rfl
  | cons key keys ih =>
    cases values with
    | nil => rfl
    | cons v values => simp only [requireKeyTypes, h, ih]

theorem createList_congr (t : SchemaId) (values : List Value) :
    createList ctx' t values = createList ctx t values := by
  simp only [createList, h, requireKeyTypes_congr h]

theorem exportBelow_congr (f : Forest) (depth : Nat) (p : Option NodeId) :
    exportBelow ctx' f depth p = exportBelow ctx f depth p := by
  induction depth generalizing p with
  | zero => rfl
  | succ depth ih => simp only [exportBelow, schemaNode_congr h, ih]

theorem toJson_congr (f : Forest) (p : Option NodeId) : toJson ctx' f p = toJson ctx f p :=
  exportBelow_congr h f f.steps p

end Forest

end OneSchema

variable {ctx ctx' : Context} {f : Forest} {k : Layout} {p : Option NodeId} {n leader : NodeId}
  {node : SchemaNode} {kind : SortKind} {e : Element} {as gx gy bs xs ys : List NodeId}

theorem Forest.anchorAt_bare (f : Forest) (n : NodeId) : f.bare.anchorAt n = none := by
  rw [anchorAt, bare, get?_anchored]
  cases f.get? n <;> rfl

namespace Sound

/-- Without its anchors a sound forest is sound where there are no indexes. -/
theorem bare (h : Sound ctx f k) (twins : ctx.Twins ctx') : Sound ctx' f.bare k := by
  refine ⟨twins.schema_eq ▸ h.laid.anchored _, twins.schema_eq ▸ h.keyed.anchored _, ?_, ?_, ?_⟩
  · intro p t node hnode hsorted
    rw [Forest.bare, group_anchored, rowOrder_anchored]
    exact h.ascending p t node (twins.schema_eq ▸ hnode) hsorted
  · intro p t node kind _ _
    exact led_of_plain twins.plain fun n _ => anchorAt_bare f n
  · intro n x hx
    rw [anchorAt_bare] at hx
    cases hx

theorem bare_eq_self (h : Sound ctx f k) (hplain : ctx.indexes = false) : f.bare = f := by
  apply anchored_self
  intro n e he
  have hnone : f.anchorAt n = none := by
    cases hx : f.anchorAt n with
    | none => rfl
    | some x =>
      obtain ⟨p, t, node, hnode, hsorted, hn⟩ := h.anchored.only n x hx
      obtain ⟨kind, hkind⟩ := Option.isSome_iff_exists.1 hsorted
      rw [← hx]
      exact (h.anchored.led p t node kind hnode hkind).plain_eq hplain hn
  rw [← hnone, anchorAt, he]
  rfl

end Sound

theorem Joins.bare (h : Joins ctx f k p node kind n e as gx gy bs) (twins : ctx.Twins ctx') :
    Joins ctx' f.bare k p node kind n (e.anchored none) as gx gy bs where
  sound := h.sound.bare twins
  built := twins.schema_eq ▸ h.built
  node_eq := twins.schema_eq ▸ h.node_eq
  kind_eq := h.kind_eq
  together := by rw [Forest.bare, isOf_anchored]; exact h.together
  lives := by rw [Forest.bare, get?_anchored, h.lives]; rfl
  loose := h.loose
  parent_eq := by rw [Forest.bare, kind?_anchored]; exact h.parent_eq
  ahead := by rw [Forest.bare, rowOrder_anchored]; exact h.ahead
  behind := by rw [Forest.bare, rowOrder_anchored]; exact h.behind

namespace Forest

/-- Index and scan lead to the same place. -/
theorem insertIntoGroup_mirrors (h : Joins ctx f k p node kind n e as gx gy bs)
    (twins : ctx.Twins ctx') (hleader : (gx ++ gy).head? = some leader) :
    Mirrors (fun _ => none) (insertIntoGroup ctx leader n) (insertIntoGroup ctx' leader n) f := by
  have hplain := (h.bare twins).insertIntoGroup_plain twins.plain hleader
  rcases h.insertIntoGroup_eq hleader with ⟨limit, hlimit, -⟩ | ⟨a, hindexed, -⟩
  · cases twins.unlimited.symm.trans hlimit
  · rw [Mirrors, ← Forest.bare, hindexed, hplain, map_ok, Prod.map_apply, anchored_anchored,
      Forest.bare, anchored_placed]
    rfl

theorem tryEnsureAnchor_mirrors (hplain : ctx'.indexes = false) {f : Forest} {n : NodeId}
    (hfirst : f.startsRun n = .ok true) :
    Mirrors (fun _ => none) (tryCatch (ensureAnchor ctx n) fun _ => pure () : Edit Unit)
      (tryCatch (ensureAnchor ctx' n) fun _ => pure ()) f := by
  obtain ⟨e, he, -⟩ := bind_eq_ok.1 hfirst
  rw [element_eq_some] at he
  have hbare : (f.anchored fun _ => none).get? n = some (e.anchored none) := by
    rw [get?_anchored, he]
    rfl
  have hfirst' := (startsRun_anchored (a := fun _ => none) f n).trans hfirst
  rw [Mirrors, tryEnsureAnchor_perform hbare (anchorAt_bare f n) hfirst', hplain,
    if_neg Bool.false_ne_true, anchored_anchorAt]
  cases hx : f.anchorAt n with
  | none =>
    rw [tryEnsureAnchor_perform he hx hfirst, map_ok, Prod.map_apply, anchored_anchored]
    rfl
  | some x =>
    rw [perform_tryCatch, ensureAnchor_self he hx]
    rfl

theorem startGroup_mirrors (h : Joins ctx f k p node kind n e (k p) [] [] []) (hp : f.Alive p)
    (hplain : ctx'.indexes = false) :
    Mirrors (fun _ => none) (startGroup ctx p n) (startGroup ctx' p n) f := by
  apply (Mirrors.change (spliceLast_anchored f p n)).bind
  intro _ g hg
  rw [perform_change, bind_eq_ok] at hg
  obtain ⟨g', hsplice, heq⟩ := hg
  cases heq
  exact tryEnsureAnchor_mirrors hplain (startsRun_spliceLast h hp hsplice)

theorem insertChild_mirrors (h : Sound ctx f k) (hs : ctx.schema.Built) (twins : ctx.Twins ctx')
    (p : Option NodeId) (n : NodeId) :
    Mirrors (fun _ => none) (insertChild ctx p n) (insertChild ctx' p n) f := by
  rw [insertChild, insertChild, requireParent_congr twins.schema_eq,
    schemaNode_congr twins.schema_eq]
  apply (requireUnlinked_blind n f).bind
  intro _ g hg
  obtain ⟨rfl, hpass⟩ := requireUnlinked_guards n f _ _ hg
  obtain ⟨e, he, hloose⟩ := hpass rfl
  apply (requireParent_blind ctx p n g).bind
  intro _ g' hg'
  obtain ⟨rfl, hpass⟩ := requireParent_guards h.laid p he _ _ hg'
  obtain ⟨hp, node, hnode, hparent⟩ := hpass rfl
  apply Mirrors.bind_look (schemaNode_anchored _ ctx n)
  intro node' hnode'
  cases hnode.symm.trans (schemaNode_eq_ok he hnode')
  apply Mirrors.guard
  intro _
  apply Mirrors.bind_look (schemaOf_anchored _ n)
  intro t ht
  cases (schemaOf_of_get? he).symm.trans ht
  apply Mirrors.bind_look (runStart_anchored _ p e.schema)
  intro first hfirst
  cases (h.laid.runStart_eq hp e.schema).symm.trans hfirst
  cases hkind : node.sortKind? with
  | none => exact appendInstance_blind p e.schema n _
  | some kind =>
    rw [if_neg (by simp)]
    cases hleader : (Forest.group _ k p e.schema).head? with
    | none =>
      have hnone := List.filter_eq_nil_iff.1 (List.head?_eq_none_iff.1 hleader)
      have hjoins := joins_of_first h hs he hloose hnode hparent hkind (by simpa using hnone)
      exact startGroup_mirrors hjoins hp twins.plain
    | some leader =>
      obtain ⟨as, gx, gy, bs, hjoins⟩ := h.exists_joins hs he hloose hnode hkind hparent
      exact insertIntoGroup_mirrors hjoins twins (hjoins.group_eq ▸ hleader)

theorem appendSibling_mirrors (h : Sound ctx f k) (hs : ctx.schema.Built)
    (twins : ctx.Twins ctx') (sibling n : NodeId) :
    Mirrors (fun _ => none) (appendSibling ctx sibling n) (appendSibling ctx' sibling n) f := by
  apply (requireLinked_blind sibling f).bind
  intro _ g hg
  obtain ⟨rfl, -⟩ := requireLinked_guards sibling f _ _ hg
  exact .bind_element fun e _ => insertChild_mirrors h hs twins e.parent n

theorem detach_bare (h : Sound ctx f k) (hs : ctx.schema.Built) (twins : ctx.Twins ctx')
    (hk : k p = xs ++ n :: ys) (he : f.get? n = some e)
    (hnode : ctx.schema.nodes[e.schema]? = some node) (hkey : ctx.schema.NoKey e.schema) :
    f.bare.detach ctx' n = Forest.bare <$> f.detach ctx n := by
  have hbare : f.bare.get? n = some (e.anchored none) := by rw [bare, get?_anchored, he]; rfl
  obtain ⟨g, hg, -, hgbare⟩ := h.detach_spec hs hk he hnode hkey
  obtain ⟨g', hg', hsound', hgbare'⟩ := (h.bare twins).detach_spec (twins.schema_eq ▸ hs) hk hbare
    (twins.schema_eq ▸ hnode) (twins.schema_eq ▸ hkey)
  rw [hg, hg', map_ok, hgbare, ← hsound'.bare_eq_self twins.plain, hgbare']
  apply congrArg Except.ok
  have hremoved := anchored_removed (f := f) (a := fun _ => none) (t := e.schema) (p := p) (n := n)
    xs.getLast? ys.head?
  exact (congrArg Forest.bare hremoved).trans (bare_anchored ..)

theorem unlink_mirrors (h : Sound ctx f k) (hs : ctx.schema.Built) (twins : ctx.Twins ctx')
    (n : NodeId) : Mirrors (fun _ => none) (unlink ctx n) (unlink ctx' n) f := by
  rw [unlink, unlink, schemaNode_congr twins.schema_eq]
  apply Mirrors.bind_element
  intro e he
  rw [element_eq_some] at he
  dsimp only [Element.anchored]
  cases hlinked : e.linked with
  | false => exact .guard (c := True) fun hc => absurd trivial hc
  | true =>
    obtain ⟨xs, ys, hk⟩ := List.append_of_mem (h.laid.placed n e he hlinked)
    apply Mirrors.bind_look (schemaNode_anchored f ctx n)
    intro node hnode
    have hnode := schemaNode_eq_ok he hnode
    apply Mirrors.guard
    intro hkey
    apply Mirrors.change
    have hn : n ∈ k e.parent := by simp [hk]
    exact detach_bare h hs twins hk he hnode (noKey_of_place h.laid hs hn he hnode hkey)

theorem free_mirrors (h : Sound ctx f k) (hs : ctx.schema.Built) (twins : ctx.Twins ctx')
    (n : NodeId) : Mirrors (fun _ => none) (free ctx n) (free ctx' n) f := by
  have hdrops : ∀ m, Drops ((fun _ => none : NodeId → Option Anchor) m) := fun _ => drops_none
  apply Mirrors.bind_element
  intro e _
  dsimp only [Element.anchored]
  cases hlinked : e.linked with
  | false => exact release_mirrors n hdrops h.tidy
  | true =>
    apply (unlink_mirrors h hs twins n).bind
    intro _ g hg
    obtain ⟨p, e', xs, ys, hremoving⟩ := unlink_atomic h hs n _ _ hg
    exact release_mirrors n hdrops hremoving.sound.tidy

end Forest

end InstanceTree
