import InstanceTree.Proofs.Erasure.Fading
import InstanceTree.Proofs.Safety

namespace InstanceTree

open Edit Forest

variable {ctx : Context} {f g : Forest}

theorem Forest.stepwise_follows (hs : ctx.schema.Built) (hindexes : ctx.indexes = true) :
    Stepwise ctx ctx fun op _ => Keeps (IsSound ctx) op ∧ ∀ f g, IsSound ctx f → Fades ctx f g →
      Follows op f g fun _ f' g' => Fades ctx f' g' where
  schema_eq := rfl
  pure a := ⟨Keeps.pure a, fun _ _ _ h => .pure h⟩
  refuse why := ⟨Keeps.refuse why, fun _ _ _ h => .refuse h⟩
  fixed x := ⟨Keeps.look _, fun _ _ _ h => h.follows fun _ => Blind.look fun _ => rfl⟩
  kind i :=
    ⟨Keeps.look _, fun _ _ _ h => h.follows fun _ => Blind.look fun f => schemaOf_anchored f i⟩
  bind := by
    intro α β op op' next next' hop hnext
    refine ⟨hop.1.bind fun a => (hnext a).1, fun f g hf h => ?_⟩
    refine (hop.2 f g hf h).bind (fun a f' g' hr hfades => ?_) fun _ _ _ hfades => hfades
    exact (hnext a).2 f' g' (hop.1 f hf _ _ hr) hfades
  tryCatch := by
    intro α op op' handle handle' hop hhandle
    refine ⟨hop.1.tryCatch fun why => (hhandle why).1, fun f g hf h => ?_⟩
    refine (hop.2 f g hf h).tryCatch (fun _ _ _ hfades => hfades) fun why f' g' hr hfades => ?_
    exact (hhandle why).2 f' g' (hop.1 f hf _ _ hr) hfades
  createTerm t v := by
    refine ⟨createTerm_keeps ctx hs t v, ?_⟩
    rintro f g ⟨k, hf, -⟩ h
    exact createTerm_follows hf.laid h t v
  createContainer t := by
    refine ⟨createContainer_keeps ctx hs t, ?_⟩
    rintro f g ⟨k, hf, -⟩ h
    exact createContainer_follows hf.laid h t
  createList t values := by
    refine ⟨createList_keeps ctx hs t values, ?_⟩
    rintro f g ⟨k, hf, -⟩ h
    exact createList_follows hf.laid hs h t values
  insertChild p n := by
    refine ⟨(stepwise_keeps hs).insertChild p n, ?_⟩
    rintro f g ⟨k, hf, -⟩ h
    exact (insertChild_follows hf hs hindexes h p n).mono fun _ _ _ hr => hr.1
  insertBefore pivot n :=
    ⟨(stepwise_keeps hs).insertBefore pivot n,
      fun _ _ _ h => h.follows fun _ => insertBefore_blind ctx n pivot⟩
  insertAfter pivot n :=
    ⟨(stepwise_keeps hs).insertAfter pivot n,
      fun _ _ _ h => h.follows fun _ => insertAfter_blind ctx n pivot⟩
  appendSibling sibling n := by
    refine ⟨(stepwise_keeps hs).appendSibling sibling n, ?_⟩
    rintro f g ⟨k, hf, -⟩ h
    exact appendSibling_follows hf hs hindexes h sibling n
  unlink n := by
    refine ⟨(stepwise_keeps hs).unlink n, ?_⟩
    rintro f g ⟨k, hf, -⟩ h
    exact unlink_follows hf hs h n
  free n := by
    refine ⟨(stepwise_keeps hs).free n, ?_⟩
    rintro f g ⟨k, hf, -⟩ h
    exact free_follows hf hs h n
  addMetadata n name value :=
    ⟨addMetadata_keeps ctx n name value,
      fun _ _ _ h => h.follows fun _ => addMetadata_blind n name value⟩
  removeMetadata n name :=
    ⟨removeMetadata_keeps ctx n name,
      fun _ _ _ h => h.follows fun _ => removeMetadata_blind n name⟩

theorem Operation.perform_follows (hs : ctx.schema.Built) (hf : IsSound ctx f)
    (h : Fades ctx f g) (op : Operation) :
    Follows (op.perform ctx) f g fun _ f' g' => Fades ctx f' g' := by
  cases hindexes : ctx.indexes with
  | true => exact (perform_stepwise (stepwise_follows hs hindexes) op).2 f g hf h
  | false =>
    obtain ⟨k, hsound, -⟩ := id hf
    cases hsound.eq_of_fades hindexes h
    cases hr : (op.perform ctx).perform f with
    | error why => exact .inr ⟨why, hr, hr⟩
    | ok out =>
      obtain ⟨k', hsound', -⟩ := perform_keeps hs op f hf _ _ hr
      exact .intro hr hr hsound'.fades_refl

/-- The first of the instances of a sorted schema node below the same parent. -/
def Forest.Leads (ctx : Context) (f : Forest) (n : NodeId) : Prop :=
  ∃ p l t node, f.children p = .ok l ∧ ctx.schema.nodes[t]? = some node ∧
    node.sortKind?.isSome ∧ (l.filter (f.isOf t)).head? = some n

section Anchored

variable (f : Forest) (a : NodeId → Option Anchor)

theorem Forest.leads_anchored (n : NodeId) : (f.anchored a).Leads ctx n ↔ f.Leads ctx n := by
  simp only [Leads, children_anchored, isOf_anchored]

theorem Forest.alive_anchored (link : Option NodeId) :
    (f.anchored a).Alive link ↔ f.Alive link := by
  simp [Alive]

theorem Operation.refers_anchored (op : Operation) :
    op.Refers ctx (f.anchored a) ↔ op.Refers ctx f := by
  cases op <;> simp only [Refers, alive_anchored]

theorem Forest.reindexes_anchored (p : Option NodeId) (n : NodeId) (g : Forest) :
    Reindexes ctx (f.anchored a) p n g ↔ Reindexes ctx f p n g := by
  simp only [Reindexes, children_anchored, kind?_anchored, isOf_anchored]

end Anchored

namespace Sound

variable {k : Layout} {n : NodeId}

theorem of_leads (h : Sound ctx f k) (hn : f.Leads ctx n) : ∃ e, f.get? n = some e ∧
    (ctx.indexes = true → ∃ x, f.anchorAt n = some x) ∧ f.startsRun n = .ok true := by
  obtain ⟨p, l, t, node, hl, hnode, hsorted, hlead⟩ := hn
  obtain ⟨kind, hkind⟩ := Option.isSome_iff_exists.1 hsorted
  obtain ⟨hp, rfl⟩ := h.laid.eq_of_children hl
  obtain ⟨as, bs, htogether⟩ := (h.laid.contiguous p t).together
  obtain ⟨rest, hg⟩ := List.head?_eq_some_iff.1 hlead
  rw [hg] at htogether
  have hof := htogether.within n (by simp)
  rw [isOf, decide_eq_true_eq] at hof
  obtain ⟨e, he, rfl⟩ := get?_of_kind? hof
  refine ⟨e, he, fun hindexes => ?_, ?_⟩
  · have hhead : (f.group k p e.schema).head? = some n := hlead
    obtain ⟨x, hx, -⟩ := (h.anchored.led p _ node kind hnode hkind).leader_eq hindexes hhead
    exact ⟨x, hx⟩
  · exact h.laid.startsRun_eq (by simpa using htogether.eq) he htogether.before

end Sound

namespace Forest.Fades

variable {k : Layout} {n : NodeId}

theorem drop (h : Fades ctx f g) (hn : g.Alive (some n)) :
    ∃ g', g.clearAnchor n = .ok g' ∧ Fades ctx f g' := by
  obtain ⟨a, rfl, ha⟩ := h.exists_anchors
  obtain ⟨e, he⟩ := (alive_anchored f a _).1 hn n rfl
  have hrest := fades_anchored f (ha.update (.gone (f.anchorAt n)) n)
  rw [Function.update_eq_self, anchored_anchorAt] at hrest
  exact ⟨_, clearAnchor_anchored he (ha n).drops, hrest⟩

theorem create (hf : Sound ctx f k) (h : Fades ctx f g) (hn : g.Leads ctx n) :
    ∃ r g', (ensureAnchor ctx n).perform g = .ok (r, g') ∧ Fades ctx f g' := by
  obtain ⟨a, rfl, ha⟩ := h.exists_anchors
  obtain ⟨e, he, hled, hfirst⟩ := hf.of_leads ((leads_anchored f a n).1 hn)
  cases hindexes : ctx.indexes with
  | true =>
    obtain ⟨x, hx⟩ := hled hindexes
    have hrest := fades_anchored f (ha.update (ha n).ensured n)
    rw [show Function.update f.anchorAt n _ = f.anchorAt from ensured_eq_self hx,
      anchored_anchorAt] at hrest
    have hfirst' := (startsRun_anchored (a := a) f n).trans hfirst
    exact ⟨_, _, ensureAnchor_anchored hindexes he hfirst', hrest⟩
  | false =>
    have hnone : f.anchorAt n = none := by
      rw [← hf.bare_eq_self hindexes, anchorAt_bare]
    rw [hf.eq_of_fades hindexes h]
    exact ⟨_, f, ensureAnchor_plain hindexes he hnone hfirst, hf.fades_refl⟩

theorem reindexes (hs : ctx.schema.Built) (hf : Sound ctx f k) (hindexes : ctx.indexes = true)
    (h : Fades ctx f g) {p : Option NodeId} (hop : (Operation.insertChild p n).Refers ctx g)
    {out : Outcome} {g' : Forest}
    (hg : ((Operation.insertChild p n).perform ctx).perform g = .ok (.ok out, g')) :
    Reindexes ctx g p n g' := by
  obtain ⟨a, rfl, -⟩ := h.exists_anchors
  rw [reindexes_anchored]
  obtain ⟨hp, hn⟩ := ((Operation.insertChild p n).refers_anchored f a).1 hop
  obtain ⟨e, he⟩ := hn n rfl
  obtain ⟨⟨r, f'⟩, hr⟩ := insertChild_ends hf hs hp he
  obtain ⟨g₁, hg₁, -, hreindexes⟩ := (insertChild_follows hf hs hindexes h p n).exists_of_ok hr
  cases r with
  | ok =>
    cases (perform_bind_ok hg₁).symm.trans hg
    exact hreindexes rfl
  | error why => cases (perform_bind_error hg₁).symm.trans hg

end Forest.Fades

/-- Operations have led to `f`, and the same ones have led to `g` while at times an anchor was
dropped, or one was created for the leader of a group. -/
inductive Shadows (ctx : Context) : Forest → Forest → Prop
  | empty : Shadows ctx .empty .empty
  | step {f g f' g' : Forest} {r r' : Except Refusal Outcome} (op : Operation) : Shadows ctx f g →
      (op.perform ctx).perform f = .ok (r, f') → (op.perform ctx).perform g = .ok (r', g') →
        Shadows ctx f' g'
  | drop {f g g' : Forest} (n : NodeId) : Shadows ctx f g → g.Alive (some n) →
      g.clearAnchor n = .ok g' → Shadows ctx f g'
  | create {f g g' : Forest} {r : Except Refusal Unit} (leader : NodeId) : Shadows ctx f g →
      g.Leads ctx leader → (ensureAnchor ctx leader).perform g = .ok (r, g') → Shadows ctx f g'

theorem Shadows.reachable (h : Shadows ctx f g) : Reachable ctx f := by
  induction h with
  | empty => exact .empty
  | step op _ hf _ ih => exact ih.step op hf
  | drop _ _ _ _ ih => exact ih
  | create _ _ _ _ ih => exact ih

/-- Whatever has been dropped and created, the two forests differ by what is left of the anchors. -/
theorem Shadows.fades (h : Shadows ctx f g) (hs : ctx.schema.Built) : Fades ctx f g := by
  induction h with
  | empty => exact (sound_empty ctx).1.fades_refl
  | step op h hf hg ih =>
    obtain ⟨g', hg', hrest⟩ := (op.perform_follows hs (h.reachable.isSound hs) ih).exists_of_ok hf
    cases hg.symm.trans hg'
    exact hrest
  | drop n _ hn hg ih =>
    obtain ⟨g', hg', hrest⟩ := ih.drop hn
    cases hg.symm.trans hg'
    exact hrest
  | create n h hn hg ih =>
    obtain ⟨k, hsound⟩ := h.reachable.sound hs
    obtain ⟨r, g', hg', hrest⟩ := ih.create hsound hn
    cases hg.symm.trans hg'
    exact hrest

/-- Nothing but anchors tells `g` from `f`, and what is asked of the one and of the other makes no
difference, though in `g` anchors may be dropped and created. An operation for which there are not
enough handles meets the same fault in both. -/
structure Indistinct (ctx : Context) (f g : Forest) : Prop where
  bare_eq : g.bare = f.bare
  perform : ∀ op : Operation, op.Refers ctx g →
    (∃ r f' g', (op.perform ctx).perform f = .ok (r, f') ∧
      (op.perform ctx).perform g = .ok (r, g') ∧ g'.bare = f'.bare) ∨
    ((op.perform ctx).perform f = .error .storeFull ∧
      (op.perform ctx).perform g = .error .storeFull ∧ handleCount < f.size + op.demand ctx f)
  drop : ∀ n, g.Alive (some n) → ∃ g', g.clearAnchor n = .ok g' ∧ g'.bare = f.bare
  create : ∀ n, g.Leads ctx n → ∃ r g', (ensureAnchor ctx n).perform g = .ok (r, g') ∧
    g'.bare = f.bare
  -- An insertion makes up for what is missing.
  reindex : ctx.indexes = true → ∀ p n out g', (Operation.insertChild p n).Refers ctx g →
    ((Operation.insertChild p n).perform ctx).perform g = .ok (.ok out, g') → Reindexes ctx g p n g'

/-- An index is a cache that may be lost at any time: as long as there are handles operations meet no
fault, they give the same results and lead to the same forests, and indexes come back. -/
theorem Shadows.indistinct (h : Shadows ctx f g) (hs : ctx.schema.Built) : Indistinct ctx f g := by
  have hf := h.reachable.isSound hs
  obtain ⟨k, hsound⟩ := h.reachable.sound hs
  have hfades := h.fades hs
  refine ⟨hfades.bare_eq, ?_, ?_, ?_, ?_⟩
  · intro op hop
    have hop' : op.Refers ctx f := by
      obtain ⟨a, rfl, -⟩ := hfades.exists_anchors
      exact (op.refers_anchored f a).1 hop
    have hfollows := op.perform_follows hs hf hfades
    rcases op.perform_ends hf hs hop' with ⟨⟨r, f'⟩, hr⟩ | ⟨hfull, hsize⟩
    · obtain ⟨g', hg', hrest⟩ := hfollows.exists_of_ok hr
      exact .inl ⟨r, f', g', hr, hg', hrest.bare_eq⟩
    · exact .inr ⟨hfull, hfollows.error_of_error hfull, hsize⟩
  · intro n hn
    obtain ⟨g', hg', hrest⟩ := hfades.drop hn
    exact ⟨g', hg', hrest.bare_eq⟩
  · intro n hn
    obtain ⟨r, g', hg', hrest⟩ := hfades.create hsound hn
    exact ⟨r, g', hg', hrest.bare_eq⟩
  · intro hindexes p n out g' hop hg
    exact hfades.reindexes hs hsound hindexes hop hg

/-- The index of two numbers is dropped, and it is back with a third number. -/
theorem Shadows.indistinct_of_dropped_index : ∃ f g g', Shadows (.ofNumbers true) f g ∧
    f.anchorState 1 = .ok (.materialized 2) ∧ g.anchorState 1 = .ok .absent ∧
      Indistinct (.ofNumbers true) f g ∧
      ((Operation.insertChild none 2).perform (.ofNumbers true)).perform g =
        .ok (.ok .done, g') ∧ Reindexes (.ofNumbers true) g none 2 g' := by
  have hfirst := ((Shadows.empty : Shadows (.ofNumbers true) .empty .empty).step
    (.createTerm 0 (.uint 5)) rfl rfl).step (.insertChild none 0) rfl rfl
  have hsecond := (hfirst.step (.createTerm 0 (.uint 3)) rfl rfl).step (.insertChild none 1) rfl rfl
  have hthird := hsecond.step (.createTerm 0 (.uint 4)) rfl rfl
  have halive : ∀ {f : Forest} {n : NodeId}, (f.get? n).isSome → f.Alive (some n) :=
    fun hn => alive_some.2 (Option.isSome_iff_exists.1 hn)
  obtain ⟨f, g, g', h, hf, hg, hn, hinsert⟩ : ∃ f g g', Shadows (.ofNumbers true) f g ∧
      f.anchorState 1 = .ok (.materialized 2) ∧ g.anchorState 1 = .ok .absent ∧
        (g.get? 2).isSome ∧ ((Operation.insertChild none 2).perform (.ofNumbers true)).perform g =
          .ok (.ok .done, g') :=
    ⟨_, _, _, hthird.drop 1 (halive rfl) rfl, rfl, rfl, rfl, rfl⟩
  have hindistinct := h.indistinct Schema.numbers_built
  exact ⟨f, g, g', h, hf, hg, hindistinct, hinsert,
    hindistinct.reindex rfl none 2 .done g' ⟨nofun, halive hn⟩ hinsert⟩

/-- A run is also one in which no anchor happens to be dropped. -/
theorem Reachable.shadows (h : Reachable ctx f) : Shadows ctx f f := by
  induction h with
  | empty => exact .empty
  | step op _ hr ih => exact ih.step op hr hr

/-- Whether an anchor has been dropped or not, to create an element is a fault when every handle is
given to one. -/
theorem Shadows.createTerm_faults : ∃ f g g', Shadows (.ofNumbers true) f g ∧
    g.clearAnchor 0 = .ok g' ∧ Shadows (.ofNumbers true) f g' ∧
    (Operation.createTerm 0 (.uint 5)).Refers (.ofNumbers true) g' ∧
    ((Operation.createTerm 0 (.uint 5)).perform (.ofNumbers true)).perform g' =
      .error .storeFull := by
  obtain ⟨f, h, hvacant, hsize⟩ := Reachable.exists_of_size (Nat.le_refl handleCount)
  obtain ⟨k, hsound⟩ := h.sound Schema.numbers_built
  have hfirst : 0 < f.slots.size := hsize ▸ Nat.two_pow_pos 32
  obtain ⟨e, he⟩ := (hsound.laid.mem_vacant_or_get? hfirst).resolve_left (by simp [hvacant])
  obtain ⟨g', hg', hfades⟩ := hsound.fades_refl.drop (alive_some.2 ⟨e, he⟩)
  have hfull := (h.createTerm_cases hvacant).resolve_left fun hroom =>
    absurd hsize (Nat.ne_of_lt hroom.1)
  have hfollows := (Operation.createTerm 0 (.uint 5)).perform_follows Schema.numbers_built
    (h.isSound Schema.numbers_built) hfades
  exact ⟨f, f, g', h.shadows, hg', h.shadows.drop 0 (alive_some.2 ⟨e, he⟩) hg', Nat.zero_lt_one,
    hfollows.error_of_error hfull⟩

end InstanceTree
