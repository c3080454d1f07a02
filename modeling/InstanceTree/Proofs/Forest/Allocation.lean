import InstanceTree.Proofs.Forest.Layout

namespace InstanceTree

open Forest

namespace Forest

variable {f g : Forest} {n : NodeId} {t : SchemaId} {content : Content}

theorem allocate_eq_ok (h : f.allocate t content = .ok (g, n)) :
    (f.vacant = [] ∧ f.slots.size < handleCount ∧ n = f.slots.size ∧
      g = { f with slots := f.slots.push (some { schema := t, content }) }) ∨
    ∃ rest, f.vacant = n :: rest ∧
      g = { f with slots := f.slots.setIfInBounds n (some { schema := t, content }),
                   vacant := rest } := by
  unfold allocate at h
  split at h
  · next hvacant =>
    by_cases hroom : f.slots.size < handleCount
    · rw [slotFor, if_pos hroom] at h
      cases h
      exact .inl ⟨hvacant, hroom, rfl, rfl⟩
    · rw [slotFor, if_neg hroom] at h
      cases h
  · next id rest hvacant =>
    cases h
    exact .inr ⟨rest, hvacant, rfl⟩

theorem allocate_of_vacant {rest : List NodeId} (h : f.vacant = n :: rest) (t : SchemaId)
    (content : Content) : f.allocate t content =
      .ok ({ f with slots := f.slots.setIfInBounds n (some { schema := t, content }),
                    vacant := rest }, n) := by
  simp only [allocate, h]

theorem allocate_cases (f : Forest) (t : SchemaId) (content : Content) :
    (∃ g n, f.allocate t content = .ok (g, n)) ∨
      (f.allocate t content = .error .storeFull ∧ handleCount ≤ f.size) := by
  cases hvacant : f.vacant with
  | cons id rest => exact .inl ⟨_, _, allocate_of_vacant hvacant t content⟩
  | nil =>
    by_cases hroom : f.slots.size < handleCount
    · refine .inl ⟨{ f with slots := f.slots.push (some { schema := t, content }) },
        f.slots.size, ?_⟩
      simp only [allocate, hvacant, slotFor, if_pos hroom]
      rfl
    · right
      constructor
      · simp only [allocate, hvacant, slotFor, if_neg hroom]
        rfl
      · simpa [size, hvacant] using hroom

theorem size_allocate (h : f.allocate t content = .ok (g, n))
    (hf : f.vacant.length ≤ f.slots.size) :
    g.size = f.size + 1 ∧ g.vacant.length ≤ g.slots.size := by
  rcases allocate_eq_ok h with ⟨hvacant, -, -, rfl⟩ | ⟨rest, hvacant, rfl⟩
  · simp [size, hvacant]
  · rw [hvacant, List.length_cons] at hf
    simp only [size, hvacant, Array.size_setIfInBounds, List.length_cons]
    omega

/-- From `f` to `g` elements are stored in the slots `ids`, one after the other. What else happens
neither frees nor takes a slot. -/
inductive Draws : Forest → List NodeId → Forest → Prop
  | refl {f : Forest} : Draws f [] f
  | store {f f' g : Forest} {n : NodeId} {ids : List NodeId} {t : SchemaId} {content : Content} :
      f.allocate t content = .ok (f', n) → Draws f' ids g → Draws f (n :: ids) g
  | other {f f' g : Forest} {ids : List NodeId} : f'.vacant = f.vacant →
      f'.slots.size = f.slots.size → Draws f' ids g → Draws f ids g

theorem Draws.trans {f g h : Forest} {ids more : List NodeId} (hfg : Draws f ids g)
    (hgh : Draws g more h) : Draws f (ids ++ more) h := by
  induction hfg with
  | refl => exact hgh
  | store hstore _ ih => exact .store hstore (ih hgh)
  | other hvacant hsize _ ih => exact .other hvacant hsize (ih hgh)

theorem Draws.congr {f g h : Forest} {ids : List NodeId} (hfg : Draws f ids g)
    (hvacant : h.vacant = g.vacant) (hsize : h.slots.size = g.slots.size) : Draws f ids h := by
  rw [← List.append_nil ids]
  exact hfg.trans (.other hvacant hsize .refl)

/-- As long as there are free slots they are reused, from the front on, and no new ones are made. -/
theorem Draws.reuses {f g : Forest} {ids xs ys : List NodeId} (h : Draws f ids g)
    (hvacant : f.vacant = xs ++ ys) :
    ids.take xs.length = xs.take ids.length ∧
      (ids.length ≤ xs.length → g.slots.size = f.slots.size) := by
  induction h generalizing xs with
  | refl => exact ⟨by simp, fun _ => rfl⟩
  | @store f f' g n ids t content hstore hrest ih =>
    cases xs with
    | nil => exact ⟨rfl, fun hlen => absurd hlen (by simp)⟩
    | cons x xs =>
      cases (allocate_of_vacant hvacant t content).symm.trans hstore
      obtain ⟨hids, hsize⟩ := ih rfl
      refine ⟨congrArg (n :: ·) hids, fun hlen => ?_⟩
      simpa using hsize (by simpa using hlen)
  | other hvacant' hsize' _ ih =>
    obtain ⟨hids, hsize⟩ := ih (hvacant'.trans hvacant)
    exact ⟨hids, fun hlen => (hsize hlen).trans hsize'⟩

theorem Draws.size_eq {f g : Forest} {ids : List NodeId} (h : Draws f ids g)
    (hf : f.vacant.length ≤ f.slots.size) : g.size = f.size + ids.length := by
  induction h with
  | refl => rfl
  | store hstore _ ih =>
    obtain ⟨hsize, hf'⟩ := size_allocate hstore hf
    rw [ih hf', hsize, List.length_cons]
    omega
  | other hvacant hsize _ ih => rw [ih (by rwa [hvacant, hsize]), size, size, hvacant, hsize]

end Forest

/-- The forest `g` is `f` with one more element `e`, in the slot `n`. -/
structure Forest.Gains (f g : Forest) (n : NodeId) (e : Element) : Prop where
  fresh : f.get? n = none
  new : g.get? n = some e
  old : ∀ i, i ≠ n → g.get? i = f.get? i
  top : g.top = f.top

namespace Forest.Gains

variable {f g : Forest} {n i : NodeId} {e e' : Element} {p : Option NodeId}

theorem ne_of_isSome (h : f.Gains g n e) (hi : (f.kind? i).isSome) : i ≠ n := by
  intro heq
  subst heq
  simp [kind?, h.fresh] at hi

theorem kind?_new (h : f.Gains g n e) : g.kind? n = some e.schema := by
  rw [kind?, h.new]
  rfl

theorem kind?_old (h : f.Gains g n e) (hi : i ≠ n) : g.kind? i = f.kind? i := by
  rw [kind?, h.old i hi, kind?]

theorem kind?_fresh (h : f.Gains g n e) : f.kind? n = none := by
  rw [kind?, h.fresh]
  rfl

theorem get?_of_get? (h : f.Gains g n e) (he' : f.get? i = some e') : g.get? i = some e' := by
  rw [h.old i (h.ne_of_isSome (by simp [kind?, he'])), he']

theorem get?_cases (h : f.Gains g n e) (he' : g.get? i = some e') :
    (i = n ∧ e' = e) ∨ f.get? i = some e' := by
  by_cases hi : i = n
  · subst hi
    exact .inl ⟨rfl, Option.some.inj (he'.symm.trans h.new)⟩
  · exact .inr ((h.old i hi).symm.trans he')

theorem chain?_of_ne (h : f.Gains g n e) (hp : p ≠ some n) : g.chain? p = f.chain? p := by
  cases p with
  | none => rw [chain?, h.top, chain?]
  | some i =>
    have hi : i ≠ n := fun heq => hp (congrArg some heq)
    rw [chain?, h.old i hi, chain?]

theorem chain?_new (h : f.Gains g n e) : g.chain? (some n) = e.children? := by
  rw [chain?, h.new]
  rfl

end Forest.Gains

namespace Laid

variable {s : Schema} {f : Forest} {k : Layout}

variable {g : Forest} {n : NodeId} {t : SchemaId} {content : Content}

theorem get?_allocate (h : Laid s f k) (hg : f.allocate t content = .ok (g, n)) :
    f.get? n = none ∧ ∀ i, g.get? i =
      if i = n then some { schema := t, content } else f.get? i := by
  rcases allocate_eq_ok hg with ⟨-, -, rfl, rfl⟩ | ⟨rest, hv, rfl⟩
  · refine ⟨by simp [get?], fun i => ?_⟩
    simp only [get?, Array.getElem?_push]
    split <;> rfl
  · have hempty := h.vacant_empty n (by simp [hv])
    have hlt := (Array.getElem?_eq_some_iff.1 hempty).1
    refine ⟨by simp [get?, hempty], fun i => ?_⟩
    simp only [get?]
    by_cases hi : i = n
    · subst hi
      simp [hlt]
    · rw [if_neg hi, Array.getElem?_setIfInBounds_ne (Ne.symm hi)]

theorem vacant_allocate (h : Laid s f k) (hg : f.allocate t content = .ok (g, n)) :
    g.vacant = f.vacant.tail ∧ ∀ i, g.slots[i]? = some none ↔ i ∈ f.vacant.tail := by
  have hempty : ∀ i : NodeId, f.slots[i]? = some none ↔ i ∈ f.vacant :=
    fun i => ⟨h.empty_vacant i, h.vacant_empty i⟩
  have hnd := h.vacant_nodup
  rcases allocate_eq_ok hg with ⟨hv, -, rfl, rfl⟩ | ⟨rest, hv, rfl⟩
  · refine ⟨by rw [hv]; rfl, fun i => ?_⟩
    rw [hv, List.tail_nil, Array.getElem?_push]
    split
    · simp
    · rw [hempty, hv]
  · rw [hv, List.nodup_cons] at hnd
    refine ⟨by rw [hv]; rfl, fun i => ?_⟩
    rw [hv, List.tail_cons]
    by_cases hi : n = i
    · subst hi
      simp [Array.getElem?_setIfInBounds, hnd.1]
    · rw [Array.getElem?_setIfInBounds_ne hi, hempty, hv, List.mem_cons, or_iff_right (Ne.symm hi)]

theorem allocate_gains (h : Laid s f k) (hg : f.allocate t content = .ok (g, n)) :
    f.Gains g n { schema := t, content } where
  fresh := (h.get?_allocate hg).1
  new := by rw [(h.get?_allocate hg).2, if_pos rfl]
  old i hi := by rw [(h.get?_allocate hg).2, if_neg hi]
  top := by rcases allocate_eq_ok hg with ⟨-, -, -, rfl⟩ | ⟨_, -, rfl⟩ <;> rfl

section Gains

variable {i : NodeId} {e : Element} {p : Option NodeId}

theorem ne_new_of_mem (h : Laid s f k) (hg : f.Gains g n e) (hi : i ∈ k p) : i ≠ n :=
  hg.ne_of_isSome (h.isSome_of_mem hi)

theorem nil_below_new (h : Laid s f k) (hg : f.Gains g n e) : k (some n) = [] :=
  h.childless _ (by simp [chain?, hg.fresh])

theorem isOf_gains (h : Laid s f k) (hg : f.Gains g n e) (t : SchemaId) :
    ∀ i ∈ k p, g.isOf t i = f.isOf t i := by
  intro i hi
  rw [isOf, hg.kind?_old (h.ne_new_of_mem hg hi), isOf]

theorem group_gains (h : Laid s f k) (hg : f.Gains g n e) (p : Option NodeId) (t : SchemaId) :
    g.group k p t = f.group k p t :=
  List.filter_congr (h.isOf_gains hg t)

theorem chain?_gains (h : Laid s f k) (hg : f.Gains g n e)
    (hempty : ∀ c, e.content = .inner c → c = {}) {c : Children} (hc : g.chain? p = some c) :
    f.chain? p = some c ∨ (k p = [] ∧ c = {}) := by
  by_cases hp : p = some n
  · subst hp
    refine .inr ⟨h.nil_below_new hg, ?_⟩
    rw [hg.chain?_new, Element.children?] at hc
    split at hc
    · cases hc
    · next c' hc' =>
      cases hc
      exact hempty c hc'
  · exact .inl ((hg.chain?_of_ne hp).symm.trans hc)

end Gains

theorem allocate (h : Laid s f k) (hstore : f.allocate t content = .ok (g, n))
    {node : SchemaNode} (hnode : s.nodes[t]? = some node) (haccepts : node.Accepts content)
    (hempty : ∀ c, content = .inner c → c = {}) : Laid s g k := by
  have hg := h.allocate_gains hstore
  obtain ⟨hvacant, hfree⟩ := h.vacant_allocate hstore
  constructor
  case slots_le =>
    rcases allocate_eq_ok hstore with ⟨-, hroom, -, rfl⟩ | ⟨_, -, rfl⟩
    · simpa [Nat.succ_le_iff] using hroom
    · simpa using h.slots_le
  case vacant_nodup =>
    rw [hvacant]
    exact h.vacant_nodup.tail
  case vacant_empty =>
    rw [hvacant]
    exact fun i => (hfree i).2
  case empty_vacant =>
    rw [hvacant]
    exact fun i => (hfree i).1
  case typed =>
    intro i e he
    rcases hg.get?_cases he with ⟨-, rfl⟩ | he
    · exact ⟨node, hnode, haccepts⟩
    · exact h.typed i e he
  case nodup => exact h.nodup
  case links =>
    intro p xs i ys hk
    obtain ⟨e, he, hlinks⟩ := h.links p xs i ys hk
    exact ⟨e, hg.get?_of_get? he, hlinks⟩
  case placed =>
    intro i e he hlinked
    rcases hg.get?_cases he with ⟨-, rfl⟩ | he
    · cases hlinked
    · exact h.placed i e he hlinked
  case loose =>
    intro i e he hloose
    rcases hg.get?_cases he with ⟨-, rfl⟩ | he
    · exact ⟨rfl, rfl, rfl⟩
    · exact h.loose i e he hloose
  case childless =>
    intro p hp
    by_cases hnew : p = some n
    · rw [hnew]
      exact h.nil_below_new hg
    · exact h.childless p ((hg.chain?_of_ne hnew).symm.trans hp)
  case first =>
    intro p c hc
    rcases h.chain?_gains hg hempty hc with hc | ⟨hnil, rfl⟩
    · exact h.first p c hc
    · rw [hnil]
      rfl
  case last =>
    intro p c hc
    rcases h.chain?_gains hg hempty hc with hc | ⟨hnil, rfl⟩
    · exact h.last p c hc
    · rw [hnil]
      rfl
  case runs =>
    intro p c t' hc
    rw [h.group_gains hg]
    rcases h.chain?_gains hg hempty hc with hc | ⟨hnil, rfl⟩
    · exact h.runs p c t' hc
    · rw [group, hnil]
      rfl
  case contiguous =>
    intro p t'
    exact (h.contiguous p t').congr fun i hi => (h.isOf_gains hg t' i hi)
  case below =>
    intro p i e hi he
    obtain ⟨e', he', -⟩ := h.exists_of_mem hi
    cases he.symm.trans (hg.get?_of_get? he')
    obtain ⟨node', hnode', hparent⟩ := h.below p i e hi he'
    refine ⟨node', hnode', hparent.trans ?_⟩
    cases p with
    | none => rfl
    | some q =>
      obtain ⟨e₁, he₁⟩ := h.alive_of_mem hi q rfl
      exact (hg.kind?_old (hg.ne_of_isSome (by simp [kind?, he₁]))).symm

end Laid

end InstanceTree
