import InstanceTree.Document.Import
import InstanceTree.Proofs.Operations.Completion

namespace InstanceTree

open Edit Forest

/-- The forest `g` has grown out of `f` below `p`: elements of `f` are what they were, and only
below `p` they may have other children than before. -/
structure Extends (f : Forest) (p : Option NodeId) (g : Forest) : Prop where
  payload : ∀ i, (f.kind? i).isSome → g.payload i = f.payload i
  layout : ∀ q, f.Alive q → q ≠ p → g.layout q = f.layout q

theorem Forest.alive_iff {f : Forest} {p : Option NodeId} :
    f.Alive p ↔ ∀ i, p = some i → (f.kind? i).isSome := by
  constructor
  · intro h i hi
    obtain ⟨e, he⟩ := h i hi
    simp [kind?, he]
  · intro h i hi
    obtain ⟨t, ht⟩ := Option.isSome_iff_exists.1 (h i hi)
    obtain ⟨e, he, -⟩ := get?_of_kind? ht
    exact ⟨e, he⟩

theorem Forest.Alive.isSome_eq {f : Forest} {p : Option NodeId} (hp : f.Alive p) :
    p.isSome = (p.bind f.kind?).isSome := by
  cases p with
  | none => rfl
  | some i => exact (alive_iff.1 hp i rfl).symm

theorem Forest.alive_none (f : Forest) : f.Alive none := nofun

namespace Extends

variable {f g h : Forest} {p : Option NodeId}

theorem refl (f : Forest) (p : Option NodeId) : Extends f p f :=
  ⟨fun _ _ => rfl, fun _ _ _ => rfl⟩

theorem kind (hfg : Extends f p g) (i : NodeId) (hi : (f.kind? i).isSome) :
    g.kind? i = f.kind? i :=
  kind?_eq_of_payload (hfg.payload i hi)

theorem value (hfg : Extends f p g) (i : NodeId) (hi : (f.kind? i).isSome) :
    g.valueAt i = f.valueAt i :=
  valueAt_eq_of_payload (hfg.payload i hi)

theorem alive (hfg : Extends f p g) {q : Option NodeId} (hq : f.Alive q) : g.Alive q := by
  rw [alive_iff] at hq ⊢
  intro i hi
  rw [hfg.kind i (hq i hi)]
  exact hq i hi

theorem isSome (hfg : Extends f p g) {i : NodeId} (hi : (f.kind? i).isSome) :
    (g.kind? i).isSome := by
  rwa [hfg.kind i hi]

theorem trans (hfg : Extends f p g) (hgh : Extends g p h) : Extends f p h where
  payload i hi := (hgh.payload i (hfg.isSome hi)).trans (hfg.payload i hi)
  layout q hq hne := (hgh.layout q (hfg.alive hq) hne).trans (hfg.layout q hq hne)

theorem nested (hfg : Extends f p g) {n : NodeId} (hn : f.kind? n = none)
    (hgh : Extends g (some n) h) : Extends f p h where
  payload i hi := (hgh.payload i (hfg.isSome hi)).trans (hfg.payload i hi)
  layout q hq hne := by
    refine (hgh.layout q (hfg.alive hq) ?_).trans (hfg.layout q hq hne)
    intro heq
    subst heq
    have hsome := alive_iff.1 hq n rfl
    simp [hn] at hsome

end Extends

/-- A forest has grown by a new element `n` of `t` with its keys, which stands nowhere yet. -/
structure Born (ctx : Context) (f : Forest) (t : SchemaId) (values : List Value) (n : NodeId)
    (g : Forest) : Prop where
  isSound : IsSound ctx g
  grown : ∃ cs node, ctx.schema.nodes[t]? = some node ∧
    Grown ctx.schema f f.layout g g.layout n t cs node.keys values

namespace Born

variable {ctx : Context} {f g : Forest} {t : SchemaId} {n : NodeId} {values : List Value}

theorem kind_none (h : Born ctx f t values n g) : f.kind? n = none := by
  obtain ⟨cs, node, -, hgrown⟩ := h.grown
  exact hgrown.list_new

theorem kind_eq (h : Born ctx f t values n g) : g.kind? n = some t := by
  obtain ⟨cs, node, -, hgrown⟩ := h.grown
  exact hgrown.list_kind

theorem ne_of_alive (h : Born ctx f t values n g) {p : Option NodeId} (hp : f.Alive p) :
    p ≠ some n := by
  intro heq
  have hsome := alive_iff.1 hp n heq
  simp [h.kind_none] at hsome

theorem children_eq (h : Born ctx f t values n g) {p : Option NodeId} (hp : f.Alive p) :
    g.layout p = f.layout p := by
  obtain ⟨cs, node, -, hgrown⟩ := h.grown
  rw [hgrown.layout, Function.update_of_ne (h.ne_of_alive hp)]

theorem growth (h : Born ctx f t values n g) (p : Option NodeId) : Extends f p g := by
  obtain ⟨cs, node, -, hgrown⟩ := h.grown
  exact ⟨hgrown.payload_old, fun q hq _ => h.children_eq hq⟩

theorem loose (h : Born ctx f t values n g) (hf : Laid ctx.schema f f.layout)
    (hs : ctx.schema.Built) (q : Option NodeId) : n ∉ g.layout q := by
  obtain ⟨cs, node, -, hgrown⟩ := h.grown
  intro hn
  by_cases hq : q = some n
  · subst hq
    exact hgrown.laid.not_mem_self hs hn
  · rw [hgrown.layout, Function.update_of_ne hq] at hn
    simpa [hgrown.list_new] using hf.isSome_of_mem hn

end Born

namespace Forest

variable {ctx : Context} {f g : Forest} {p : Option NodeId} {n : NodeId}

theorem Placing.growth {e : Element} {xs ys : List NodeId}
    (h : Placing ctx f f.layout p n e xs ys g) : Extends f p g where
  payload i _ := h.payload_eq i
  layout q _ hq := by rw [← h.sound.laid.eq_layout, Function.update_of_ne hq]

theorem Placing.layout_eq {e : Element} {xs ys : List NodeId}
    (h : Placing ctx f f.layout p n e xs ys g) : g.layout p = xs ++ n :: ys := by
  rw [← h.sound.laid.eq_layout, Function.update_self]

theorem Placing.isSound {e : Element} {xs ys : List NodeId}
    (h : Placing ctx f f.layout p n e xs ys g) (hf : IsSound ctx f) : IsSound ctx g :=
  ⟨_, h.sound, h.keyLed (isSound_iff.1 hf).2⟩

section Born

variable (h : IsSound ctx f) (hs : ctx.schema.Built)

include h hs

theorem born_of_grown {k : Layout} {t : SchemaId} {node : SchemaNode} {cs : List NodeId}
    {vs : List Value} (hnode : ctx.schema.nodes[t]? = some node)
    (hgrown : Grown ctx.schema f f.layout g k n t cs node.keys vs) : Born ctx f t vs n g := by
  obtain ⟨hsound, hled⟩ := isSound_iff.1 h
  refine ⟨.grown hgrown hsound hled hs hnode, cs, node, hnode, ?_⟩
  rw [← hgrown.laid.eq_layout]
  exact hgrown

theorem createTerm_born {t : SchemaId} {node : SchemaNode}
    (hnode : ctx.schema.nodes[t]? = some node) (v : Value) :
    Fits 1 (createTerm ctx t v) f fun r g => match r with
      | .ok n => Born ctx f t [] n g ∧ g.valueAt n = some v ∧ node.valueType? = some v.type
      | .error _ => node.valueType? ≠ some v.type := by
  have hlaid := (isSound_iff.1 h).1.laid
  refine (createTerm_fits hlaid.length_vacant_le hnode v).mono fun r g hr => ?_
  cases r with
  | error _ => exact hr.1
  | ok n =>
    obtain ⟨htype, hstored⟩ := hr
    exact ⟨born_of_grown h hs hnode (.of_term hlaid hnode htype hstored),
      (hlaid.allocate_gains hstored).valueAt_new, htype⟩

theorem createContainer_born {t : SchemaId} {node : SchemaNode}
    (hnode : ctx.schema.nodes[t]? = some node) :
    Fits 1 (createContainer ctx t) f fun r g => match r with
      | .ok n => Born ctx f t [] n g ∧ node.kind = .container
      | .error _ => node.kind ≠ .container := by
  have hlaid := (isSound_iff.1 h).1.laid
  refine (createContainer_fits hlaid.length_vacant_le hnode).mono fun r g hr => ?_
  cases r with
  | error _ => exact hr.1
  | ok n =>
    obtain ⟨hkind, hstored⟩ := hr
    exact ⟨born_of_grown h hs hnode (.of_container hlaid hnode hkind hstored), hkind⟩

theorem createList_born {t : SchemaId} {node : SchemaNode}
    (hnode : ctx.schema.nodes[t]? = some node) (values : List Value) :
    Fits (1 + values.length) (createList ctx t values) f fun r g => match r with
      | .ok n => Born ctx f t values n g ∧ node.kind = .list node.keys ∧
        node.keys.length = values.length
      | .error _ => ¬(node.kind = .list node.keys ∧ node.keys.length = values.length ∧
        KeyTypes ctx.schema node.keys values) := by
  refine (createList_fits (isSound_iff.1 h).1.laid hs hnode values).mono fun r g hr => ?_
  cases r with
  | error _ => exact hr.2
  | ok n =>
    obtain ⟨hkind, hlen, k', cs, hgrown⟩ := hr
    exact ⟨born_of_grown h hs hnode hgrown, hkind, hlen⟩

/-- A new element is linked, or it is freed again after the insertion has been refused. -/
theorem linkNew_lands (hp : f.Alive p) {t : SchemaId} (hn : f.kind? n = some t) :
    Lands (linkNew ctx p n) f fun r g => match r with
      | .ok _ => ∃ e node xs ys, ctx.schema.nodes[e.schema]? = some node ∧
        Placing ctx f f.layout p n e xs ys g ∧ Settles f f.layout node e.schema n xs ys
      | .error _ => ∃ why, (insertChild ctx p n).perform f = .ok (.error why, f) := by
  obtain ⟨hsound, hled⟩ := isSound_iff.1 h
  obtain ⟨e, he, -⟩ := get?_of_kind? hn
  obtain ⟨⟨r, g⟩, hr⟩ := insertChild_ends hsound hs hp he
  have hatomic := insertChild_atomic hsound hs p n r g hr
  refine Lands.tryCatch (P := fun r' g' => r' = r ∧ g' = g) (Lands.intro hr ⟨rfl, rfl⟩) ?_ ?_
  · rintro _ _ ⟨rfl, rfl⟩
    exact hatomic
  · rintro why _ ⟨rfl, rfl⟩
    cases hatomic
    obtain ⟨⟨r', g'⟩, hr'⟩ := free_ends hsound hs he
    refine Lands.bind (P := fun _ _ => True) (Lands.intro hr' trivial) ?_ ?_
    · exact fun _ _ _ => Lands.refuse ⟨why, hr⟩
    · exact fun _ _ _ => ⟨why, hr⟩

end Born

end Forest

end InstanceTree
