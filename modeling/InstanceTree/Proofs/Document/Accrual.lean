import InstanceTree.Proofs.Document.Extension

namespace InstanceTree

open Edit Forest

/-- A way down leads from `p` to `i`: it is a child of `p` or stands below one. -/
def Layout.Leads (k : Layout) (p : Option NodeId) (i : NodeId) : Prop :=
  ∃ r ∈ k p, Relation.ReflTransGen (fun a b => b ∈ k (some a)) r i

namespace Layout.Leads

variable {k k' : Layout} {p : Option NodeId} {n i : NodeId}

theorem of_mem (h : i ∈ k p) : k.Leads p i :=
  ⟨i, h, .refl⟩

theorem mono (h : k.Leads p i) (hk : ∀ q, k q ⊆ k' q) : k'.Leads p i := by
  obtain ⟨r, hr, hpath⟩ := h
  exact ⟨r, hk p hr, Relation.ReflTransGen.mono (fun a _ hb => hk (some a) hb) _ _ hpath⟩

theorem trans (h : k.Leads p n) (h' : k.Leads (some n) i) : k.Leads p i := by
  obtain ⟨r, hr, hpath⟩ := h
  obtain ⟨c, hc, hpath'⟩ := h'
  exact ⟨r, hr, (hpath.tail hc).trans hpath'⟩

end Layout.Leads

def Forest.lives (f : Forest) (i : NodeId) : Bool :=
  (f.kind? i).isSome

theorem Forest.alive_iff_lives {f : Forest} {i : NodeId} :
    f.Alive (some i) ↔ f.lives i = true := by
  rw [alive_iff]
  constructor
  · intro h
    exact h i rfl
  · intro h j hj
    cases hj
    exact h

theorem Forest.lives_without (f : Forest) (gone : List NodeId) (i : NodeId) :
    (f.without gone).lives i = (!decide (i ∈ gone) && f.lives i) := by
  rw [lives, kind?, get?_without, lives, kind?]
  by_cases hi : i ∈ gone <;> simp [hi]

namespace Laid

variable {s : Schema} {f : Forest} {k : Layout} {p : Option NodeId}

theorem filter_lives (h : Laid s f k) (p : Option NodeId) : (k p).filter f.lives = k p :=
  List.filter_eq_self.2 fun _ hi => h.isSome_of_mem hi

theorem eq_nil_of_dead (h : Laid s f k) (hp : ¬f.Alive p) : k p = [] :=
  List.eq_nil_iff_forall_not_mem.2 fun _ hi => hp (h.alive_of_mem hi)

end Laid

/-- The forest `g` has grown out of `f` below `p` and nowhere else: whatever stood somewhere stands
there still, in the same order, and a way down leads from `p` to all that is new. -/
structure Accrues (f : Forest) (p : Option NodeId) (g : Forest) : Prop extends Extends f p g where
  standing : ∀ q, (g.layout q).filter f.lives = f.layout q
  reached : ∀ i, f.lives i = false → g.lives i = true → g.layout.Leads p i

namespace Accrues

variable {s : Schema} {f g h : Forest} {p : Option NodeId}

theorem refl (hf : Laid s f f.layout) (p : Option NodeId) : Accrues f p f where
  toExtends := .refl f p
  standing := hf.filter_lives
  reached := by
    intro i hnew hi
    rw [hnew] at hi
    cases hi

theorem lives (hfg : Accrues f p g) {i : NodeId} (hi : f.lives i = true) : g.lives i = true :=
  hfg.isSome hi

theorem mem_iff (hfg : Accrues f p g) {i : NodeId} (hi : f.lives i = true) (q : Option NodeId) :
    i ∈ g.layout q ↔ i ∈ f.layout q := by
  rw [← hfg.standing q, List.mem_filter, and_iff_left hi]

theorem subset (hfg : Accrues f p g) (q : Option NodeId) : f.layout q ⊆ g.layout q := by
  intro i hi
  rw [← hfg.standing q] at hi
  exact List.mem_of_mem_filter hi

theorem standing_trans (hfg : Accrues f p g) {q : Option NodeId} (hgh : Accrues g q h)
    (r : Option NodeId) : (h.layout r).filter f.lives = f.layout r := by
  have hlives : ∀ i, (f.lives i && g.lives i) = f.lives i := by
    intro i
    cases hi : f.lives i with
    | true => exact hfg.lives hi
    | false => rfl
  rw [← hfg.standing r, ← hgh.standing r, List.filter_filter]
  exact List.filter_congr fun i _ => (hlives i).symm

theorem trans (hfg : Accrues f p g) (hgh : Accrues g p h) : Accrues f p h where
  toExtends := hfg.toExtends.trans hgh.toExtends
  standing := hfg.standing_trans hgh
  reached := by
    intro i hnew hi
    cases hg : g.lives i with
    | true => exact (hfg.reached i hnew hg).mono hgh.subset
    | false => exact hgh.reached i hg hi

theorem nested (hfg : Accrues f p g) {n : NodeId} (hn : f.kind? n = none)
    (hlives : g.lives n = true) (hgh : Accrues g (some n) h) : Accrues f p h where
  toExtends := hfg.toExtends.nested hn hgh.toExtends
  standing := hfg.standing_trans hgh
  reached := by
    intro i hnew hi
    cases hg : g.lives i with
    | true => exact (hfg.reached i hnew hg).mono hgh.subset
    | false =>
      have hwhole := hfg.reached n (by simp [Forest.lives, hn]) hlives
      exact (hwhole.mono hgh.subset).trans (hgh.reached i hg hi)

end Accrues

namespace Born

variable {ctx : Context} {f g g' : Forest} {p : Option NodeId} {t : SchemaId} {n : NodeId}
  {values : List Value}

section Keys

variable (h : Born ctx f t values n g) (hf : Laid ctx.schema f f.layout)

include h

theorem lives_eq_false : f.lives n = false := by
  simp [lives, h.kind_none]

theorem new_cases {i : NodeId} (hnew : f.lives i = false) (hi : g.lives i = true) :
    i = n ∨ i ∈ g.layout (some n) := by
  obtain ⟨cs, node, -, hgrown⟩ := h.grown
  rw [hgrown.children_eq]
  exact hgrown.new i (by simpa [lives] using hnew) hi

include hf

theorem standing (q : Option NodeId) : (g.layout q).filter f.lives = f.layout q := by
  obtain ⟨cs, node, -, hgrown⟩ := h.grown
  by_cases hq : q = some n
  · subst hq
    have hdead : ¬f.Alive (some n) := fun hp => h.ne_of_alive hp rfl
    rw [hf.eq_nil_of_dead hdead, hgrown.children_eq, List.filter_eq_nil_iff]
    intro i hi
    simp [lives, hgrown.keys_new i hi]
  · rw [hgrown.layout, Function.update_of_ne hq]
    exact hf.filter_lives q

theorem new_below {i j : NodeId} (hi : f.lives i = false) (hj : j ∈ g.layout (some i)) :
    f.lives j = false := by
  have hdead : ¬f.Alive (some i) := by
    rw [alive_iff_lives, hi]
    exact Bool.false_ne_true
  have hnone := h.standing hf (some i)
  rw [hf.eq_nil_of_dead hdead, List.filter_eq_nil_iff] at hnone
  simpa using hnone j hj

theorem new_of_path {i : NodeId}
    (hpath : Relation.ReflTransGen (fun a b => b ∈ g.layout (some a)) n i) :
    f.lives i = false := by
  induction hpath with
  | refl => exact h.lives_eq_false
  | tail _ hc ih => exact h.new_below hf ih hc

end Keys

theorem accrues_of_placing (h : Born ctx f t values n g) (hf : Laid ctx.schema f f.layout)
    (hp : f.Alive p) {e : Element} {xs ys : List NodeId}
    (hplacing : Placing ctx g g.layout p n e xs ys g') : Accrues f p g' where
  toExtends := (h.growth p).trans hplacing.growth
  standing := by
    intro q
    have hstanding := h.standing hf q
    by_cases hq : q = p
    · subst hq
      have hn : ¬f.lives n = true := by simp [h.lives_eq_false]
      rw [hplacing.split, List.filter_append] at hstanding
      rw [hplacing.layout_eq, List.filter_append, List.filter_cons_of_neg hn]
      exact hstanding
    · rwa [← hplacing.sound.laid.eq_layout, Function.update_of_ne hq]
  reached := by
    intro i hnew hi
    have hlinked : g'.layout.Leads p n := .of_mem (by simp [hplacing.layout_eq])
    have hi' : g.lives i = true := by rwa [lives, hplacing.kind?_eq] at hi
    rcases h.new_cases hnew hi' with rfl | hkey
    · exact hlinked
    · refine hlinked.trans (.of_mem ?_)
      rwa [← hplacing.sound.laid.eq_layout, Function.update_of_ne (h.ne_of_alive hp).symm]

section Releasing

variable {gone : List NodeId} (h : Born ctx f t values n g) (hf : Laid ctx.schema f f.layout)
  (hreleasing : Releasing ctx g g.layout n gone g')

include h hreleasing

theorem released {i : NodeId} (hi : g'.lives i = true) : f.lives i = true := by
  rw [hreleasing.eq, lives_without, Bool.and_eq_true, Bool.not_eq_true', decide_eq_false_iff_not]
    at hi
  obtain ⟨hkept, hi⟩ := hi
  by_contra hnew
  rw [Bool.not_eq_true] at hnew
  have hn : n ∈ gone := hreleasing.below.within n (by simp)
  rcases h.new_cases hnew hi with rfl | hkey
  · exact hkept hn
  · exact hkept (hreleasing.below.closed n hn i hkey)

include hf

theorem not_mem_gone {i : NodeId} (hi : f.lives i = true) : i ∉ gone := by
  intro hmem
  obtain ⟨r, hr, hpath⟩ := hreleasing.preorder.mem_iff.1 (List.mem_reverse.2 hmem)
  cases List.mem_singleton.1 hr
  rw [h.new_of_path hf hpath] at hi
  cases hi

/-- If a new element is freed again, then nothing is left of it. -/
theorem accrues_of_releasing (p : Option NodeId) : Accrues f p g' := by
  have hlayout : g.layout.without gone = g'.layout := hreleasing.sound.laid.eq_layout
  have hstays : ∀ q, f.Alive q → q.any (· ∈ gone) = false := by
    intro q hq
    cases q with
    | none => rfl
    | some i => simpa using h.not_mem_gone hf hreleasing (alive_iff_lives.1 hq)
  refine ⟨⟨?payload, ?layout⟩, ?standing, ?reached⟩
  case payload =>
    intro i hi
    rw [← (h.growth p).payload i hi, hreleasing.eq, payload, get?_without,
      if_neg (h.not_mem_gone hf hreleasing hi), payload]
  case layout =>
    intro q hq _
    rw [← hlayout, Laid.without_eq (hstays q hq), h.children_eq hq]
  case standing =>
    intro q
    by_cases hq : f.Alive q
    · rw [← hlayout, Laid.without_eq (hstays q hq), h.standing hf]
    · have hstanding := h.standing hf q
      rw [hf.eq_nil_of_dead hq] at hstanding ⊢
      rw [← hlayout, Layout.without]
      split
      · rfl
      · exact hstanding
  case reached =>
    intro i hnew hi
    rw [h.released hreleasing hi] at hnew
    cases hnew

end Releasing

end Born

namespace Forest

variable {ctx : Context} {f g : Forest} {p : Option NodeId} {t : SchemaId} {n : NodeId}
  {values : List Value}

theorem linkNew_refused (h : IsSound ctx f) (hs : ctx.schema.Built) (hn : f.kind? n = some t)
    (hloose : ∀ q, n ∉ f.layout q) :
    Ensures (linkNew ctx p n) f fun r g => ∀ why, r = .error why →
      ∃ gone, Releasing ctx f f.layout n gone g := by
  obtain ⟨hsound, -⟩ := isSound_iff.1 h
  obtain ⟨e, he, -⟩ := get?_of_kind? hn
  obtain ⟨node, -, hnode⟩ := schemaNode_ok hsound.laid he
  have hunlinked : e.linked ≠ true := fun hlinked =>
    hloose e.parent (hsound.laid.placed n e he hlinked)
  have hfree := (free_lands hsound hs he hnode).ensures.and (free_atomic hsound hs n)
  refine Ensures.tryCatch (insertChild_atomic hsound hs p n) (by rintro _ _ _ _ ⟨⟩) ?_
  rintro why _ rfl
  refine Ensures.bind hfree ?_ ?_
  · intro _ g hg
    obtain ⟨-, f', k', gone, -, hreleasing, hwhence⟩ := hg
    refine Ensures.refuse fun _ _ => ?_
    rcases hwhence with ⟨rfl, rfl⟩ | ⟨q, e', xs, ys, -, hremoving⟩
    · exact ⟨gone, hreleasing⟩
    · exact absurd (hremoving.split ▸ by simp) (hloose q)
  · intro why' g hg
    cases hg.1.2 fun hkey => hunlinked hkey.1

/-- A new element is linked, or nothing is left of it. -/
theorem linkNew_accrues (hborn : Born ctx f t values n g) (hf : Laid ctx.schema f f.layout)
    (hs : ctx.schema.Built) (hp : f.Alive p) :
    Lands (linkNew ctx p n) g fun r g' => IsSound ctx g' ∧ Accrues f p g' ∧
      (r = .ok () → g'.kind? n = some t) := by
  have halive := (hborn.growth p).alive hp
  have hlink := linkNew_lands hborn.isSound hs halive hborn.kind_eq
  have hrefused := linkNew_refused (p := p) hborn.isSound hs hborn.kind_eq (hborn.loose hf hs)
  refine (hlink.and_ensures hrefused).mono fun r g' hr => ?_
  obtain ⟨hlinked, hfreed⟩ := hr
  cases r with
  | ok _ =>
    obtain ⟨e, node, xs, ys, -, hplacing, -⟩ := hlinked
    have haccrues := hborn.accrues_of_placing hf hp hplacing
    have hkind := (congrFun hplacing.kind?_eq n).trans hborn.kind_eq
    exact ⟨hplacing.isSound hborn.isSound, haccrues, fun _ => hkind⟩
  | error why =>
    obtain ⟨gone, hreleasing⟩ := hfreed why rfl
    obtain ⟨hsound, hled⟩ := isSound_iff.1 hborn.isSound
    exact ⟨⟨_, hreleasing.sound, hreleasing.keyLed hsound.laid hled⟩,
      hborn.accrues_of_releasing hf hreleasing p, nofun⟩

end Forest

end InstanceTree
