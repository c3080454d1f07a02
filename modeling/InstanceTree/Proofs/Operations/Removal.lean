import InstanceTree.Proofs.Forest.Releasing
import InstanceTree.Proofs.Group.Removal
import InstanceTree.Proofs.Operations.Placement

namespace InstanceTree

open Edit Forest

namespace Forest

/-- The sound forest `g` is `f` with `n` taken out between `xs` and `ys` below `p`, but for
anchors. -/
structure Removing (ctx : Context) (f : Forest) (k : Layout) (p : Option NodeId) (n : NodeId)
    (e : Element) (xs ys : List NodeId) (g : Forest) : Prop where
  split : k p = xs ++ n :: ys
  lives : f.get? n = some e
  free : ctx.schema.NoKey e.schema
  sound : Sound ctx g (Function.update k p (xs ++ ys))
  bare_eq : g.bare = (f.removed e.schema p xs.getLast? n ys.head?).bare

variable {ctx : Context} {f : Forest} {k : Layout} {n : NodeId} {p : Option NodeId}
  {xs ys : List NodeId} {e : Element}

theorem noKey_of_place (h : Laid ctx.schema f k) (hs : ctx.schema.Built) (hn : n ∈ k p)
    (he : f.get? n = some e) {node : SchemaNode} (hnode : ctx.schema.nodes[e.schema]? = some node)
    (hkey : ¬(node.isKey = true ∧ p.isSome = true)) : ctx.schema.NoKey e.schema := by
  cases hisKey : node.isKey with
  | false => exact hs.noKey_of_isKey hnode hisKey
  | true =>
    intro t' node' hnode' hmem
    obtain ⟨-, hparent, -⟩ := hs.key_of_get hnode' hmem hnode
    obtain ⟨m', hm', hbelow⟩ := h.below p n e hn he
    cases hnode.symm.trans hm'
    cases p with
    | none => cases hparent.symm.trans hbelow
    | some i => exact hkey ⟨hisKey, rfl⟩

theorem Removing.kind?_eq {g : Forest} (h : Removing ctx f k p n e xs ys g) :
    g.kind? = f.kind? :=
  (kind?_of_bare h.bare_eq).trans (kind?_rewired _ _ _ (unlinkage_keepsContent ..))

theorem Removing.payload_eq {g : Forest} (h : Removing ctx f k p n e xs ys g) (i : NodeId) :
    g.payload i = f.payload i :=
  (payload_eq_of_bare h.bare_eq i).trans (payload_rewired _ _ _ _ (unlinkage_keepsContent ..))

theorem Removing.keyLed {g : Forest} (h : Removing ctx f k p n e xs ys g)
    (hf : KeyLed ctx.schema f k) : KeyLed ctx.schema g (Function.update k p (xs ++ ys)) :=
  (hf.remove h.split (by simp [kind?, h.lives]) h.free).of_kind h.kind?_eq

theorem Removing.loose {g : Forest} (h : Removing ctx f k p n e xs ys g)
    (hf : Laid ctx.schema f k) (q : Option NodeId) : n ∉ Function.update k p (xs ++ ys) q := by
  intro hq
  by_cases hqp : q = p
  · subst hqp
    rw [Function.update_self] at hq
    have hnd := hf.nodup q
    rw [h.split, List.nodup_middle, List.nodup_cons] at hnd
    exact hnd.1 hq
  · rw [Function.update_of_ne hqp] at hq
    exact hqp (hf.unique_parent hq (by simp [h.split]))

theorem unlink_atomic (h : Sound ctx f k) (hs : ctx.schema.Built) (n : NodeId) :
    Atomic (unlink ctx n) f fun g => ∃ p e xs ys, Removing ctx f k p n e xs ys g := by
  apply Ensures.bind_look
  intro e he
  rw [element_eq_some] at he
  cases hlinked : e.linked with
  | false => exact Ensures.guard (c := True) (fun _ => rfl) (fun hc => absurd trivial hc)
  | true =>
    obtain ⟨xs, ys, hk⟩ := List.append_of_mem (h.laid.placed n e he hlinked)
    apply Ensures.bind_look
    intro node hnode
    have hnode := schemaNode_eq_ok he hnode
    refine Ensures.guard (fun _ => rfl) fun hkey => ?_
    apply Ensures.change
    intro g hg
    have hn : n ∈ k e.parent := by simp [hk]
    have hfree := noKey_of_place h.laid hs hn he hnode hkey
    have hspec := h.detach_spec hs hk he hnode hfree
    obtain ⟨hsound, hbare⟩ := hspec.of_eq hg
    exact ⟨_, e, xs, ys, hk, he, hfree, hsound, hbare⟩

section Without

variable {gone : List NodeId} {m : NodeId}

theorem kind?_without_eq_some {t : SchemaId} :
    (f.without gone).kind? m = some t ↔ m ∉ gone ∧ f.kind? m = some t := by
  rw [kind?, kind?, get?_without]
  split <;> simp_all

theorem valueAt_without (hm : m ∉ gone) : (f.without gone).valueAt m = f.valueAt m := by
  rw [valueAt, get?_without, if_neg hm, valueAt]

theorem anchorAt_without_eq_some {x : Anchor} :
    (f.without gone).anchorAt m = some x ↔ m ∉ gone ∧ f.anchorAt m = some x := by
  rw [anchorAt, anchorAt, get?_without]
  split <;> simp_all

theorem anchorAt_without (hm : m ∉ gone) : (f.without gone).anchorAt m = f.anchorAt m := by
  rw [anchorAt, get?_without, if_neg hm, anchorAt]

variable (h : Laid ctx.schema f k) (hbelow : Below k [n] gone) (hloose : ∀ q, n ∉ k q)

include h hbelow hloose

theorem row_without (node : SchemaNode) (hm : m ∉ gone) :
    (f.without gone).row (k.without gone) node m = f.row k node m := by
  have hstays : (some m).any (· ∈ gone) = false := by simpa using hm
  apply row_congr (valueAt_without hm)
  intro key _
  rw [keyValue, keyValue, h.group_without hbelow hloose hstays]
  cases hhead : (f.group k (some m) key).head? with
  | none => rfl
  | some c =>
    have hc := (mem_group.1 (List.mem_of_head? hhead)).1
    exact valueAt_without (h.not_mem_gone hbelow hloose hstays hc)

theorem carries_without : Carries ctx f k (f.without gone) (k.without gone) where
  groups p t node _ _ := by
    by_cases hp : p.any (· ∈ gone) = false
    · refine .inr ⟨h.group_without hbelow hloose hp t, fun m hm => ?_⟩
      have hmg := h.not_mem_gone hbelow hloose hp (mem_group.1 hm).1
      exact ⟨row_without h hbelow hloose node hmg, anchorAt_without hmg⟩
    · rw [group, Layout.without, if_pos (by simpa using hp), List.filter_nil]
      exact .inl rfl
  anchors m x hx := (anchorAt_without_eq_some.1 hx).2
  stays m x p t hx hmp := by
    have hm := (anchorAt_without_eq_some.1 hx).1
    have hp : p.any (· ∈ gone) = false := by
      cases p with
      | none => rfl
      | some q =>
        simp only [Option.any_some, decide_eq_false_iff_not]
        exact fun hq => hm (hbelow.closed q hq m (mem_group.1 hmp).1)
    rwa [h.group_without hbelow hloose hp]

end Without

/-- The sound forest `g` is `f` without `n`, which stood nowhere, and without all below it. -/
structure Releasing (ctx : Context) (f : Forest) (k : Layout) (n : NodeId) (gone : List NodeId)
    (g : Forest) : Prop where
  loose : ∀ q, n ∉ k q
  eq : g = f.without gone
  live : f.Live gone
  preorder : k.Preorder [n] gone.reverse
  sound : Sound ctx g (k.without gone)

theorem Releasing.below {g : Forest} {gone : List NodeId} (h : Releasing ctx f k n gone g) :
    Below k [n] gone :=
  .of_preorder_reverse h.preorder

theorem Releasing.keyLed {g : Forest} {gone : List NodeId} (h : Releasing ctx f k n gone g)
    (hlaid : Laid ctx.schema f k) (hf : KeyLed ctx.schema f k) :
    KeyLed ctx.schema g (k.without gone) :=
  h.eq ▸ hf.without hlaid h.below h.loose

end Forest

namespace Sound

variable {ctx : Context} {f g : Forest} {k : Layout} {n : NodeId}

theorem release (h : Sound ctx f k) (hloose : ∀ q, n ∉ k q) (hg : f.release n = .ok g) :
    ∃ gone, Releasing ctx f k n gone g := by
  obtain ⟨gone, rfl, hlive, horder⟩ := h.laid.release_eq hg
  have hbelow := Below.of_preorder_reverse horder
  have hkeyed : Keyed ctx.schema (f.without gone) (k.without gone) := by
    intro m t node hm hnode key hkey
    obtain ⟨hmg, hm⟩ := kind?_without_eq_some.1 hm
    rw [h.laid.group_without hbelow hloose (by simpa using hmg)]
    exact h.keyed m t node hm hnode key hkey
  have hsound := h.carry (carries_without h.laid hbelow hloose)
    (h.laid.release hlive hbelow hloose) hkeyed
  exact ⟨gone, hloose, rfl, hlive, horder, hsound⟩

end Sound

namespace Forest

variable {ctx : Context} {f : Forest} {k : Layout}

/-- An element is freed where it stands nowhere, after it has been taken out if it stood
somewhere. -/
theorem free_atomic (h : Sound ctx f k) (hs : ctx.schema.Built) (n : NodeId) :
    Atomic (free ctx n) f fun g => ∃ f' k' gone, Sound ctx f' k' ∧ Releasing ctx f' k' n gone g ∧
      (f' = f ∧ k' = k ∨ ∃ p e xs ys, k' = Function.update k p (xs ++ ys) ∧
        Removing ctx f k p n e xs ys f') := by
  apply Ensures.bind_look
  intro e he
  rw [element_eq_some] at he
  cases hlinked : e.linked with
  | false =>
    apply Ensures.change
    intro g hg
    obtain ⟨gone, hgone⟩ := h.release (fun q => h.laid.not_mem_of_loose he hlinked) hg
    exact ⟨f, k, gone, h, hgone, .inl ⟨rfl, rfl⟩⟩
  | true =>
    refine Ensures.bind (unlink_atomic h hs n) ?_ fun why g hg => hg
    intro _ f' hf'
    obtain ⟨p, e', xs, ys, hrem⟩ := hf'
    apply Ensures.change
    intro g hg
    obtain ⟨gone, hgone⟩ := hrem.sound.release (hrem.loose h.laid) hg
    exact ⟨f', _, gone, hrem.sound, hgone, .inr ⟨p, e', xs, ys, rfl, hrem⟩⟩

theorem free_keepsKeys (h : Sound ctx f k) (hled : KeyLed ctx.schema f k)
    (hs : ctx.schema.Built) (n : NodeId) :
    Atomic (free ctx n) f fun g => ∃ k', Sound ctx g k' ∧ KeyLed ctx.schema g k' := by
  refine (free_atomic h hs n).mono fun g hg => ?_
  obtain ⟨f', k', gone, hsound, hreleasing, hwhence⟩ := hg
  refine ⟨_, hreleasing.sound, hreleasing.keyLed hsound.laid ?_⟩
  rcases hwhence with ⟨rfl, rfl⟩ | ⟨p, e, xs, ys, rfl, hremoving⟩
  · exact hled
  · exact hremoving.keyLed hled

end Forest

end InstanceTree
