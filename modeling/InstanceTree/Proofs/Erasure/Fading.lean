import InstanceTree.Proofs.Erasure.Twins
import InstanceTree.Proofs.Group.Remains

namespace InstanceTree

open Edit Forest

/-- The forest `g` is `f` with no more left of its anchors. -/
structure Forest.Fades (ctx : Context) (f g : Forest) : Prop where
  bare_eq : g.bare = f.bare
  erodes : Erodes ctx f.anchorAt g.anchorAt

section Fades

variable {ctx : Context} {f g : Forest} {k : Layout} {a b : NodeId → Option Anchor}

theorem Forest.fades_anchored (f : Forest) (h : Erodes ctx a b) :
    Fades ctx (f.anchored a) (f.anchored b) := by
  refine ⟨by rw [bare_anchored, bare_anchored], fun m => ?_⟩
  cases hm : f.get? m with
  | none =>
    have hnone : (f.anchored b).anchorAt m = none := by simp [anchorAt, hm]
    rw [hnone]
    exact .gone _
  | some e =>
    rw [anchorAt_anchored hm, anchorAt_anchored hm]
    exact h m

namespace Forest.Fades

theorem exists_anchors (h : Fades ctx f g) :
    ∃ a, g = f.anchored a ∧ Erodes ctx f.anchorAt a := by
  refine ⟨g.anchorAt, ?_, h.erodes⟩
  calc g = g.bare.anchored g.anchorAt := by rw [bare, anchored_anchored, anchored_anchorAt]
    _ = f.anchored g.anchorAt := by rw [h.bare_eq, bare, anchored_anchored]

theorem follows_of_mirrors {α : Type} {op : Edit α} (h : Fades ctx f g)
    (hfull : Mirrors f.anchorAt op op f)
    (hrest : ∀ a, Erodes ctx f.anchorAt a → Mirrors a op op f) :
    Follows op f g fun _ f' g' => Fades ctx f' g' := by
  obtain ⟨a, rfl, ha⟩ := h.exists_anchors
  have hg : op.perform (f.anchored a) = _ := hrest a ha
  have hf : op.perform (f.anchored f.anchorAt) = _ := hfull
  rw [anchored_anchorAt] at hf
  cases hr : op.perform f with
  | error why =>
    rw [hr] at hg
    exact .inr ⟨why, hr, hg⟩
  | ok out =>
    obtain ⟨r, f'⟩ := out
    rw [hr, map_ok, Prod.map_apply] at hf hg
    have hself : f' = f'.anchored f.anchorAt := (Prod.mk.inj (Except.ok.inj hf)).2
    refine .intro hr hg ?_
    rw [hself, anchored_anchored]
    exact fades_anchored f' ha

/-- An edit that does not care about anchors does the same with what is left of them. -/
theorem follows {α : Type} {op : Edit α} (h : Fades ctx f g) (hop : ∀ a, Blind a op) :
    Follows op f g fun _ f' g' => Fades ctx f' g' :=
  h.follows_of_mirrors (hop _ f) fun a _ => hop a f

/-- So does an edit that would do the same without any anchors, if it leaves them alone. -/
theorem follows_of_anchorAt {α : Type} {op : Edit α} (h : Fades ctx f g)
    (hop : Blind (fun _ => none) op) (hf : Ensures op f fun _ f' => f'.anchorAt = f.anchorAt)
    (hg : Ensures op g fun _ g' => g'.anchorAt = g.anchorAt) :
    Follows op f g fun _ f' g' => Fades ctx f' g' := by
  have hbare : op.perform f.bare = _ := hop f
  have hbare' : op.perform g.bare = _ := hop g
  rw [h.bare_eq, hbare] at hbare'
  cases hr : op.perform f with
  | error why =>
    cases hr' : op.perform g with
    | error why' =>
      rw [hr, hr'] at hbare'
      cases hbare'
      exact .inr ⟨why, hr, hr'⟩
    | ok out =>
      rw [hr, hr'] at hbare'
      cases hbare'
  | ok out =>
    obtain ⟨r, f'⟩ := out
    cases hr' : op.perform g with
    | error why =>
      rw [hr, hr'] at hbare'
      cases hbare'
    | ok out' =>
      obtain ⟨r', g'⟩ := out'
      rw [hr, hr', map_ok, map_ok, Prod.map_apply, Prod.map_apply] at hbare'
      obtain ⟨rfl, heq⟩ := Prod.mk.inj (Except.ok.inj hbare')
      refine .intro hr hr' ⟨heq.symm, ?_⟩
      rw [hf _ _ hr, hg _ _ hr']
      exact h.erodes

theorem bind_guard {op : Edit Unit} {β : Type} {next : Unit → Edit β} {P : Prop}
    {R : Except Refusal β → Forest → Forest → Prop} (h : Fades ctx f g) (hop : ∀ a, Blind a op)
    (hguards : Guards op f P) (hrefuse : ∀ why, R (.error why) f g)
    (hpass : P → Follows (next ()) f g R) : Follows (op >>= next) f g R := by
  obtain ⟨a, rfl, ha⟩ := h.exists_anchors
  have hsame : Follows op f (f.anchored a) fun r f' g' =>
      f' = f ∧ g' = f.anchored a ∧ (r = .ok () → P) := by
    have hg : op.perform (f.anchored a) = _ := hop a f
    cases hr : op.perform f with
    | error why =>
      rw [hr] at hg
      exact .inr ⟨why, hr, hg⟩
    | ok out =>
      obtain ⟨r, f'⟩ := out
      obtain ⟨rfl, hP⟩ := hguards r f' hr
      rw [hr] at hg
      exact .intro hr hg ⟨rfl, rfl, hP⟩
  refine hsame.bind ?_ ?_
  · rintro _ _ _ - ⟨rfl, rfl, hP⟩
    exact hpass (hP rfl)
  · rintro why _ _ ⟨rfl, rfl, -⟩
    exact hrefuse why

theorem bind_element {β : Type} {n : NodeId} {next : Element → Edit β}
    {R : Except Refusal β → Forest → Forest → Prop} (h : Fades ctx f g)
    (hnext : ∀ (e : Element) x, next (e.anchored x) = next e)
    (hrest : ∀ e, f.element n = .ok e → Follows (next e) f g R) :
    Follows (Edit.look (element · n) >>= next) f g R := by
  obtain ⟨a, rfl, -⟩ := h.exists_anchors
  cases he : f.element n with
  | error why =>
    refine .inr ⟨why, ?_, ?_⟩
    · rw [perform_bind, perform_look, he]
      rfl
    · rw [perform_bind, perform_look, element_anchored, he]
      rfl
  | ok e =>
    have hrest := hrest e he
    have hlook : (f.anchored a).element n = .ok (e.anchored (a n)) := by
      rw [element_anchored, he, map_ok]
    unfold Follows at hrest ⊢
    rwa [perform_bind_ok (perform_look_ok he), perform_bind_ok (perform_look_ok hlook), hnext]

end Forest.Fades

namespace Sound

theorem fades_refl (h : Sound ctx f k) : Fades ctx f f := by
  refine ⟨rfl, fun m => ?_⟩
  cases hx : f.anchorAt m with
  | none => exact .gone _
  | some x =>
    obtain ⟨p, t, node, hnode, hsorted, hm⟩ := h.anchored.only m x hx
    obtain ⟨kind, hkind⟩ := Option.isSome_iff_exists.1 hsorted
    have hled := h.anchored.led p t node kind hnode hkind
    rw [← hx]
    exact hled.remains hled hm

theorem eq_of_fades (h : Sound ctx f k) (hplain : ctx.indexes = false) (hg : Fades ctx f g) :
    g = f := by
  obtain ⟨a, rfl, ha⟩ := hg.exists_anchors
  have hbare := h.bare_eq_self hplain
  have hnone : a = fun _ => none := by
    funext m
    have hm := ha m
    rw [← hbare, anchorAt_bare] at hm
    exact hm.none_eq
  rw [hnone]
  exact hbare

end Sound

end Fades

namespace Forest

/-- A group has its index at its first member, and no other member has an anchor. -/
structure Materialized (f : Forest) (g : List NodeId) (leader : NodeId) : Prop where
  leads : g.head? = some leader
  state : f.anchorState leader = .ok (.materialized g.length)
  index : ∃ i, f.index? leader = .ok (some i) ∧ i.members = .ok g
  others : ∀ m ∈ g, m ≠ leader → f.anchor? m = .ok none

/-- If `n` has siblings below `p` in `f` with which it is sorted, these make up an indexed group in
`g`. -/
def Reindexes (ctx : Context) (f : Forest) (p : Option NodeId) (n : NodeId) (g : Forest) : Prop :=
  ∀ l t node, f.children p = .ok l → f.kind? n = some t → ctx.schema.nodes[t]? = some node →
    node.sortKind?.isSome → l.any (f.isOf t) = true →
      ∃ l' leader, g.children p = .ok l' ∧ g.Materialized (l'.filter (g.isOf t)) leader

end Forest

section Group

variable {ctx : Context} {f : Forest} {k : Layout} {p : Option NodeId} {node : SchemaNode}
  {kind : SortKind} {n leader : NodeId} {e : Element} {t : SchemaId} {as gx gy bs g : List NodeId}
  {a : NodeId → Option Anchor}

theorem Led.exists_index (h : Led ctx kind g a) (hindexes : ctx.indexes = true)
    (hlen : 2 ≤ g.length) :
    ∃ leader i, g.head? = some leader ∧ a leader = some ⟨some i⟩ ∧ i.Has ctx kind g := by
  obtain ⟨leader, rest, rfl⟩ := List.exists_cons_of_length_pos (Nat.lt_of_lt_of_le Nat.two_pos hlen)
  obtain ⟨⟨index⟩, hx, hindex⟩ := h.leader_eq hindexes rfl
  cases index with
  | none =>
    have hone : (leader :: rest).length = 1 := hindex
    omega
  | some i => exact ⟨leader, i, rfl, hx, (indexes_some.1 hindex).2⟩

theorem Led.materialized (hindexes : ctx.indexes = true) (hlen : 2 ≤ g.length)
    (hlive : ∀ m ∈ g, ∃ e, f.get? m = some e) (h : Led ctx kind g a) :
    ∃ leader, (f.anchored a).Materialized g leader := by
  obtain ⟨leader, i, hleader, hx, hhas⟩ := h.exists_index hindexes hlen
  obtain ⟨el, hel⟩ := hlive leader (List.mem_of_head? hleader)
  refine ⟨leader, hleader, ?_, ⟨i, ?_, hhas.members_eq⟩, ?_⟩
  · simp only [anchorState, anchor?_anchored hel, ok_bind, hx]
    exact congrArg (Except.ok ∘ AnchorState.materialized) hhas.count_eq
  · rw [index?_anchored hel, hx]
    rfl
  · intro m hm hml
    obtain ⟨em, hem⟩ := hlive m hm
    rw [anchor?_anchored hem, h.follower_eq hleader hm hml]

theorem Led.allows (h : Led ctx kind g a) (hindexes : ctx.indexes = true) (hlen : 2 ≤ g.length) :
    ctx.Allows g.length := by
  obtain ⟨_, _, _, _, hhas⟩ := h.exists_index hindexes hlen
  exact hhas.allowed

theorem two_le_length_of_joined (hne : gx ++ gy ≠ []) : 2 ≤ (gx ++ n :: gy).length := by
  have hpos := List.length_pos_iff.2 hne
  simp only [List.length_append, List.length_cons] at hpos ⊢
  omega

theorem Joins.materialized (h : Joins ctx f k p node kind n e as gx gy bs)
    (hindexes : ctx.indexes = true) (hne : gx ++ gy ≠ []) (hled : Led ctx kind (gx ++ n :: gy) a) :
    Reindexes ctx f p n
      ((f.placed e.schema p (as ++ gx).getLast? n (gy ++ bs).head?).anchored a) := by
  intro _ t _ _ ht _ _ _
  cases h.kind?_eq.symm.trans ht
  obtain ⟨c, hc⟩ := h.chain hne
  have hlaid := h.laid hc (.inl hne)
  have hgroup := h.group_placed_eq
  have hmem : ∀ m ∈ gx ++ n :: gy, m ∈ Function.update k p ((as ++ gx) ++ n :: (gy ++ bs)) p := by
    intro m hm
    rw [Function.update_self]
    simp only [List.mem_append, List.mem_cons] at hm ⊢
    tauto
  generalize f.placed e.schema p (as ++ gx).getLast? n (gy ++ bs).head? = f' at *
  generalize Function.update k p ((as ++ gx) ++ n :: (gy ++ bs)) = k' at *
  have hlive : ∀ m ∈ gx ++ n :: gy, ∃ em, f'.get? m = some em := by
    intro m hm
    obtain ⟨em, hem, -⟩ := hlaid.exists_of_mem (hmem m hm)
    exact ⟨em, hem⟩
  obtain ⟨leader, hmaterialized⟩ :=
    hled.materialized hindexes (two_le_length_of_joined hne) hlive
  have hlaid' := hlaid.anchored a
  refine ⟨k' p, leader, hlaid'.children_eq (hlaid'.alive_of_mem (hmem n (by simp))), ?_⟩
  rwa [isOf_anchored, show (k' p).filter (f'.isOf e.schema) = gx ++ n :: gy from hgroup]

/-- A new member takes the same place whatever is left of the anchor of its group, or is refused
with the same reason. -/
theorem Joins.insertIntoGroup_follows (h : Joins ctx f k p node kind n e as gx gy bs)
    (hindexes : ctx.indexes = true) (hleader : (gx ++ gy).head? = some leader)
    (ha : Erodes ctx f.anchorAt a) :
    Follows (insertIntoGroup ctx leader n) f (f.anchored a) fun r f' g' => Fades ctx f' g' ∧
      (r = .ok () → Reindexes ctx f p n g') := by
  have hn : a n = none := by
    have hrest := ha n
    rw [h.anchorAt_eq] at hrest
    exact hrest.none_eq
  have hne := List.ne_nil_of_mem (List.mem_of_head? hleader)
  -- Whether there is room depends on the number of members only.
  have hroom : ∀ {c limit}, Led ctx kind (gx ++ n :: gy) c →
      ctx.options.indexLimit = some limit → ¬limit ≤ (gx ++ gy).length := by
    intro c limit hled hlimit hle
    have hallowed := hled.allows hindexes (two_le_length_of_joined hne) limit hlimit
    simp only [List.length_append, List.length_cons] at hallowed hle
    omega
  have hfull := h.insertIntoGroup_indexed hindexes hleader h.led.fading h.anchorAt_eq
  have hrest := h.insertIntoGroup_indexed hindexes hleader (h.led.fading_of_erodes ha) hn
  rw [anchored_anchorAt] at hfull
  rcases hfull with ⟨limit, hlimit, hle, hf⟩ | ⟨b, hf, hled, hsame⟩
  · rcases hrest with ⟨-, -, -, hg⟩ | ⟨b', -, hled', -⟩
    · exact .intro hf hg ⟨fades_anchored f (ha.update (ha leader).ensured leader), nofun⟩
    · exact absurd hle (hroom hled' hlimit)
  · rcases hrest with ⟨limit, hlimit, hle, -⟩ | ⟨b', hg, hled', hsame'⟩
    · exact absurd hle (hroom hled hlimit)
    · refine .intro hf hg ⟨fades_anchored _ fun m => ?_, fun _ => ?_⟩
      · by_cases hm : m ∈ gx ++ n :: gy
        · exact hled.remains hled' hm
        · rw [hsame m hm, hsame' m hm]
          exact ha m
      · exact h.materialized hindexes hne hled'

theorem Leaves.detach_fades (h : Leaves ctx f k p node kind n e as gx gy bs)
    (ha : Erodes ctx f.anchorAt a) :
    ∃ f' g', f.detach ctx n = .ok f' ∧ (f.anchored a).detach ctx n = .ok g' ∧
      Fades ctx f' g' := by
  obtain ⟨b, hfull, -, hshed⟩ := h.detach_eq h.led.fading
  obtain ⟨b', hrest, hn, hshed'⟩ := h.detach_eq (h.led.fading_of_erodes ha)
  rw [anchored_anchorAt] at hfull
  refine ⟨_, _, hfull, hrest, fades_anchored _ (hshed.erodes ha hshed' fun m hm hm' => ?_)⟩
  have hmn : m = n := by
    simp only [List.mem_append, List.mem_cons] at hm hm'
    tauto
  rw [hmn, hn]

end Group

namespace Forest

variable {ctx : Context} {f g : Forest} {k : Layout} {p : Option NodeId} {n : NodeId} {e : Element}
  {xs ys : List NodeId}

theorem ensureAnchor_follows (hindexes : ctx.indexes = true) (h : Fades ctx f g)
    (hfirst : f.startsRun n = .ok true) :
    Follows (ensureAnchor ctx n) f g fun _ f' g' => Fades ctx f' g' := by
  obtain ⟨a, rfl, ha⟩ := h.exists_anchors
  obtain ⟨e, he, -⟩ := bind_eq_ok.1 hfirst
  rw [element_eq_some] at he
  have hf := ensureAnchor_anchored (a := f.anchorAt) hindexes he
  rw [anchored_anchorAt] at hf
  exact .intro (hf hfirst)
    (ensureAnchor_anchored hindexes he ((startsRun_anchored f n).trans hfirst))
    (fades_anchored f (ha.update (ha n).ensured n))

theorem startGroup_follows {node : SchemaNode} {kind : SortKind}
    (h : Joins ctx f k p node kind n e (k p) [] [] []) (hp : f.Alive p)
    (hindexes : ctx.indexes = true) (hfades : Fades ctx f g) :
    Follows (startGroup ctx p n) f g fun _ f' g' => Fades ctx f' g' := by
  refine (hfades.follows fun a => Blind.change fun f => spliceLast_anchored f p n).bind ?_
    fun _ _ _ hfades => hfades
  intro _ f₁ g₁ hf₁ hfades
  rw [perform_change, bind_eq_ok] at hf₁
  obtain ⟨f₂, hsplice, heq⟩ := hf₁
  cases heq
  refine (ensureAnchor_follows hindexes hfades (startsRun_spliceLast h hp hsplice)).tryCatch
    (fun _ _ _ hfades => hfades) ?_
  exact fun _ _ _ _ hfades => .pure hfades

/-- An element is linked in the same place whatever is left of the anchors, or is refused with the
same reason, and where it comes to others with which it is sorted, nothing is missing
afterwards. -/
theorem insertChild_follows (h : Sound ctx f k) (hs : ctx.schema.Built)
    (hindexes : ctx.indexes = true) (hfades : Fades ctx f g) (p : Option NodeId) (n : NodeId) :
    Follows (insertChild ctx p n) f g fun r f' g' => Fades ctx f' g' ∧
      (r = .ok () → Reindexes ctx f p n g') := by
  refine hfades.bind_guard (fun a => requireUnlinked_blind n) (requireUnlinked_guards n f)
    (fun _ => ⟨hfades, nofun⟩) ?_
  rintro ⟨e, he, hloose⟩
  refine hfades.bind_guard (fun a => requireParent_blind ctx p n) (requireParent_guards h.laid p he)
    (fun _ => ⟨hfades, nofun⟩) ?_
  rintro ⟨hp, node, hnode, hparent⟩
  obtain ⟨a, rfl, ha⟩ := hfades.exists_anchors
  refine Follows.bind_look (schemaNode_anchored f ctx n) fun node' hnode' => ?_
  cases hnode.symm.trans (schemaNode_eq_ok he hnode')
  refine Follows.guard (fun _ => ⟨hfades, nofun⟩) fun _ => ?_
  refine Follows.bind_look (schemaOf_anchored f n) fun t ht => ?_
  cases (schemaOf_of_get? he).symm.trans ht
  refine Follows.bind_look (runStart_anchored f p e.schema) fun first hfirst => ?_
  cases (h.laid.runStart_eq hp e.schema).symm.trans hfirst
  have hkind? : f.kind? n = some e.schema := by simp [kind?, he]
  cases hkind : node.sortKind? with
  | none =>
    refine (hfades.follows fun a => appendInstance_blind p e.schema n).mono
      fun _ _ _ hfades => ⟨hfades, fun _ _ t node' _ ht hnode' hsorted _ => ?_⟩
    cases hkind?.symm.trans ht
    cases hnode.symm.trans hnode'
    simp [hkind] at hsorted
  | some kind =>
    rw [if_neg (by simp)]
    cases hleader : (f.group k p e.schema).head? with
    | none =>
      have hnone : ∀ m ∈ k p, f.isOf e.schema m = false := by
        simpa using List.filter_eq_nil_iff.1 (List.head?_eq_none_iff.1 hleader)
      have hjoins := joins_of_first h hs he hloose hnode hparent hkind hnone
      refine (startGroup_follows hjoins hp hindexes hfades).mono
        fun _ _ _ hfades => ⟨hfades, fun _ l t _ hl ht _ _ hany => ?_⟩
      cases hkind?.symm.trans ht
      cases (h.laid.children_eq hp).symm.trans hl
      obtain ⟨m, hm, hof⟩ := List.any_eq_true.1 hany
      have hmem : m ∈ f.group k p e.schema := List.mem_filter.2 ⟨hm, hof⟩
      rw [List.head?_eq_none_iff.1 hleader] at hmem
      cases hmem
    | some leader =>
      obtain ⟨as, gx, gy, bs, hjoins⟩ := h.exists_joins hs he hloose hnode hkind hparent
      exact hjoins.insertIntoGroup_follows hindexes (hjoins.group_eq ▸ hleader) ha

theorem appendSibling_follows (h : Sound ctx f k) (hs : ctx.schema.Built)
    (hindexes : ctx.indexes = true) (hfades : Fades ctx f g) (sibling n : NodeId) :
    Follows (appendSibling ctx sibling n) f g fun _ f' g' => Fades ctx f' g' := by
  refine hfades.bind_guard (fun a => requireLinked_blind sibling) (requireLinked_guards sibling f)
    (fun _ => hfades) ?_
  rintro ⟨e, he, -⟩
  refine hfades.bind_element (fun _ _ => rfl) fun e _ => ?_
  exact (insertChild_follows h hs hindexes hfades e.parent n).mono fun _ _ _ hr => hr.1

theorem detach_fades (h : Sound ctx f k) (hs : ctx.schema.Built) (hk : k p = xs ++ n :: ys)
    (he : f.get? n = some e) {node : SchemaNode} (hnode : ctx.schema.nodes[e.schema]? = some node)
    (hfades : Fades ctx f g) :
    ∃ f' g', f.detach ctx n = .ok f' ∧ g.detach ctx n = .ok g' ∧ Fades ctx f' g' := by
  obtain ⟨a, rfl, ha⟩ := hfades.exists_anchors
  cases hkind : node.sortKind? with
  | none =>
    have hfull := h.detach_unsorted hs hk he hnode hkind (h.tidy.anchorAt n)
    rw [anchored_anchorAt] at hfull
    exact ⟨_, _, hfull, h.detach_unsorted hs hk he hnode hkind (ha n).drops,
      fades_anchored _ (ha.update (.gone none) n)⟩
  | some kind =>
    obtain ⟨as, gx, gy, bs, rfl, rfl, hleaves⟩ := h.exists_leaves hs hk he hnode hkind
    exact hleaves.detach_fades ha

theorem unlink_follows (h : Sound ctx f k) (hs : ctx.schema.Built) (hfades : Fades ctx f g)
    (n : NodeId) : Follows (unlink ctx n) f g fun _ f' g' => Fades ctx f' g' := by
  refine hfades.bind_element (fun _ _ => rfl) fun e he => ?_
  rw [element_eq_some] at he
  cases hlinked : e.linked with
  | false => exact .guard (c := True) (fun _ => hfades) fun hc => absurd trivial hc
  | true =>
    obtain ⟨xs, ys, hk⟩ := List.append_of_mem (h.laid.placed n e he hlinked)
    obtain ⟨a, rfl, -⟩ := hfades.exists_anchors
    refine Follows.bind_look (schemaNode_anchored f ctx n) fun node hnode => ?_
    refine Follows.guard (fun _ => hfades) fun _ => ?_
    obtain ⟨f', g', hf, hg, hfades'⟩ := detach_fades h hs hk he (schemaNode_eq_ok he hnode) hfades
    exact Follows.change hf hg hfades'

/-- What is left of an index can be taken apart like the index. -/
theorem release_follows (h : Sound ctx f k) (hfades : Fades ctx f g) (n : NodeId) :
    Follows (change (release · n)) f g fun _ f' g' => Fades ctx f' g' :=
  hfades.follows_of_mirrors (release_mirrors n h.tidy.anchorAt h.tidy)
    fun _ ha => release_mirrors n (fun m => (ha m).drops) h.tidy

theorem free_follows (h : Sound ctx f k) (hs : ctx.schema.Built) (hfades : Fades ctx f g)
    (n : NodeId) : Follows (free ctx n) f g fun _ f' g' => Fades ctx f' g' := by
  refine hfades.bind_element (fun _ _ => rfl) fun e he => ?_
  cases hlinked : e.linked with
  | false => exact release_follows h hfades n
  | true =>
    refine (unlink_follows h hs hfades n).bind ?_ fun _ _ _ hfades => hfades
    intro _ f' g' hf' hfades
    obtain ⟨p, e', xs, ys, hremoving⟩ := unlink_atomic h hs n _ _ hf'
    exact release_follows hremoving.sound hfades n

theorem createTerm_follows (h : Laid ctx.schema f k) (hfades : Fades ctx f g) (t : SchemaId)
    (v : Value) : Follows (createTerm ctx t v) f g fun _ f' g' => Fades ctx f' g' := by
  obtain ⟨a, rfl, -⟩ := hfades.exists_anchors
  exact hfades.follows_of_anchorAt (createTerm_blind ctx t v) (createTerm_anchorAt h t v)
    (createTerm_anchorAt (h.anchored a) t v)

theorem createContainer_follows (h : Laid ctx.schema f k) (hfades : Fades ctx f g)
    (t : SchemaId) : Follows (createContainer ctx t) f g fun _ f' g' => Fades ctx f' g' := by
  obtain ⟨a, rfl, -⟩ := hfades.exists_anchors
  exact hfades.follows_of_anchorAt (createContainer_blind ctx t) (createContainer_anchorAt h t)
    (createContainer_anchorAt (h.anchored a) t)

theorem createList_follows (h : Laid ctx.schema f k) (hs : ctx.schema.Built)
    (hfades : Fades ctx f g) (t : SchemaId) (values : List Value) :
    Follows (createList ctx t values) f g fun _ f' g' => Fades ctx f' g' := by
  obtain ⟨a, rfl, -⟩ := hfades.exists_anchors
  exact hfades.follows_of_anchorAt (createList_blind ctx t values)
    (createList_anchorAt h hs t values) (createList_anchorAt (h.anchored a) hs t values)

end Forest

end InstanceTree
