import InstanceTree.Proofs.Forest.Layout

namespace InstanceTree

namespace Forest

/-- The forest with a change to the links of elements and to the chain below `p`. -/
def rewired (f : Forest) (p : Option NodeId) (relink : NodeId → Element → Element)
    (note : Children → Children) : Forest :=
  f.retouch (fun i e => touchChain p note i (relink i e)) (topChain p note)

structure KeepsContent (relink : NodeId → Element → Element) : Prop where
  schema : ∀ i e, (relink i e).schema = e.schema
  content : ∀ i e, (relink i e).content = e.content
  metadata : ∀ i e, (relink i e).metadata = e.metadata
  anchor : ∀ i e, (relink i e).anchor = e.anchor

section Rewired

variable (f : Forest) (p : Option NodeId) {relink : NodeId → Element → Element}
  (note : Children → Children)

theorem get?_rewired (i : NodeId) :
    (f.rewired p relink note).get? i = (f.get? i).map fun e => touchChain p note i (relink i e) :=
  get?_retouch ..

theorem kind?_rewired (h : KeepsContent relink) : (f.rewired p relink note).kind? = f.kind? :=
  funext fun i => kind?_retouch (fun i e => by simp [h.schema]) i

theorem isOf_rewired (h : KeepsContent relink) (t : SchemaId) :
    (f.rewired p relink note).isOf t = f.isOf t :=
  isOf_retouch (fun i e => by simp [h.schema]) t

theorem chain?_rewired (h : KeepsContent relink) (q : Option NodeId) :
    (f.rewired p relink note).chain? q =
      if p = q then (f.chain? q).map note else f.chain? q := by
  cases q with
  | none => cases p <;> simp [chain?, rewired, topChain]
  | some i =>
    simp only [chain?, get?_rewired]
    cases f.get? i with
    | none => simp
    | some e =>
      simp only [Option.map_some, Option.bind_some, touchChain_children?]
      simp [Element.children?, h.content]

end Rewired

end Forest

open Forest

/-- What makes a change to links and to the chain below `p` right, if it concerns only the
children of `p` and `n`: afterwards `l` are the children of `p`. -/
structure Rewires (s : Schema) (f : Forest) (k : Layout) (p : Option NodeId) (n : NodeId)
    (l : List NodeId) (relink : NodeId → Element → Element) (note : Children → Children) :
    Prop where
  keeps : KeepsContent relink
  nodup : l.Nodup
  nearby : ∀ m ∈ l, m ∈ k p ∨ m = n
  stood : ∀ q, n ∈ k q → q = p
  fixed : ∀ m e, f.get? m = some e → m ∉ k p → m ≠ n → relink m e = e
  links : ∀ xs m ys, l = xs ++ m :: ys → ∃ e, f.get? m = some e ∧ (relink m e).linked = true ∧
    (relink m e).parent = p ∧ (relink m e).prev = xs.getLast? ∧ (relink m e).next = ys.head?
  gone : ∀ m e, f.get? m = some e → m ∈ k p ∨ m = n → m ∉ l → (relink m e).linked = false ∧
    (relink m e).parent = none ∧ (relink m e).prev = none ∧ (relink m e).next = none
  chain : ∃ c, f.chain? p = some c ∧ (note c).first = l.head? ∧ (note c).last = l.getLast? ∧
    ∀ t, (note c).runs.get? t = runOf (l.filter (f.isOf t))
  contiguous : ∀ t, Contiguous (f.isOf t) l
  below : ∀ m e, m ∈ l → f.get? m = some e → ∃ node, s.nodes[e.schema]? = some node ∧
    node.parent = p.bind f.kind?

section Rewire

variable {s : Schema} {f : Forest} {k : Layout} {p q : Option NodeId} {n m : NodeId}
  {l : List NodeId} {relink : NodeId → Element → Element} {note : Children → Children}
  {e : Element} {c : Children}

namespace Rewires

theorem relink_cases (hr : Rewires s f k p n l relink note) (he : f.get? m = some e) :
    (m ∈ l ∧ (relink m e).linked = true ∧ (relink m e).parent = p) ∨
      ((relink m e).linked = false ∧ (relink m e).parent = none ∧ (relink m e).prev = none ∧
        (relink m e).next = none) ∨
      (m ∉ k p ∧ relink m e = e) := by
  by_cases hml : m ∈ l
  · obtain ⟨xs, ys, hsplit⟩ := List.append_of_mem hml
    obtain ⟨e', he', hlinked, hparent, -⟩ := hr.links xs m ys hsplit
    cases he.symm.trans he'
    exact .inl ⟨hml, hlinked, hparent⟩
  · by_cases hmp : m ∈ k p ∨ m = n
    · exact .inr (.inl (hr.gone m e he hmp hml))
    · rw [not_or] at hmp
      exact .inr (.inr ⟨hmp.1, hr.fixed m e he hmp.1 hmp.2⟩)

theorem relink_of_mem (hr : Rewires s f k p n l relink note) (h : Laid s f k) (hm : m ∈ k q)
    (hqp : q ≠ p) (he : f.get? m = some e) : relink m e = e := by
  apply hr.fixed m e he
  · exact fun hmp => hqp (h.unique_parent hm hmp)
  · intro heq
    subst heq
    exact hqp (hr.stood q hm)

theorem chain?_cases (hr : Rewires s f k p n l relink note)
    (hc : (f.rewired p relink note).chain? q = some c) :
    (q = p ∧ c.first = l.head? ∧ c.last = l.getLast? ∧
        ∀ t, c.runs.get? t = runOf (l.filter (f.isOf t))) ∨
      (q ≠ p ∧ f.chain? q = some c) := by
  rw [chain?_rewired f p note hr.keeps] at hc
  by_cases hqp : q = p
  · subst hqp
    obtain ⟨c', hc', hchain⟩ := hr.chain
    rw [if_pos rfl, hc'] at hc
    cases hc
    exact .inl ⟨rfl, hchain⟩
  · rw [if_neg (Ne.symm hqp)] at hc
    exact .inr ⟨hqp, hc⟩

end Rewires

/-- Those in front of a place keep their links, but for the last one's link to what follows. -/
theorem Laid.links_in_front (h : Laid s f k) {xs xs' old c : List NodeId} (new : List NodeId)
    (hk : k p = xs ++ old) (hsplit : xs = xs' ++ m :: c)
    (hrelink : ∀ e, relink m e = if xs.getLast? = some m then { e with next := new.head? } else e) :
    ∃ e, f.get? m = some e ∧ (relink m e).linked = true ∧ (relink m e).parent = p ∧
      (relink m e).prev = xs'.getLast? ∧ (relink m e).next = (c ++ new).head? := by
  subst hsplit
  obtain ⟨e, he, hlinked, hparent, hprev, hnext⟩ := h.links p xs' m (c ++ old) (by simp [hk])
  refine ⟨e, he, ?_⟩
  rw [hrelink]
  cases c with
  | nil =>
    rw [if_pos List.getLast?_concat]
    exact ⟨hlinked, hparent, hprev, rfl⟩
  | cons a c =>
    have hother : (xs' ++ m :: a :: c).getLast? ≠ some m := by
      rw [List.getLast?_append_cons, List.getLast?_cons_cons]
      intro hlast
      have hnd := h.nodup p
      rw [hk, List.append_assoc, List.cons_append] at hnd
      have hm := (List.nodup_cons.1 (List.nodup_append.1 hnd).2.1).1
      exact hm (List.mem_append_left _ (List.mem_of_getLast? hlast))
    rw [if_neg hother]
    exact ⟨hlinked, hparent, hprev, hnext⟩

/-- Those behind a place keep their links, but for the first one's link to what precedes. -/
theorem Laid.links_behind (h : Laid s f k) {ys ys' old c : List NodeId} (new : List NodeId)
    (hk : k p = old ++ ys) (hsplit : ys = c ++ m :: ys')
    (hrelink : ∀ e, relink m e = if ys.head? = some m then { e with prev := new.getLast? } else e) :
    ∃ e, f.get? m = some e ∧ (relink m e).linked = true ∧ (relink m e).parent = p ∧
      (relink m e).prev = (new ++ c).getLast? ∧ (relink m e).next = ys'.head? := by
  subst hsplit
  obtain ⟨e, he, hlinked, hparent, hprev, hnext⟩ := h.links p (old ++ c) m ys' (by simp [hk])
  refine ⟨e, he, ?_⟩
  rw [hrelink]
  cases c with
  | nil =>
    rw [List.nil_append, if_pos List.head?_cons, List.append_nil]
    exact ⟨hlinked, hparent, rfl, hnext⟩
  | cons a c =>
    have hother : (a :: c ++ m :: ys').head? ≠ some m := by
      intro hhead
      have hnd := h.nodup p
      rw [hk, Option.some.inj hhead] at hnd
      have hm := (List.nodup_cons.1 (List.nodup_append.1 hnd).2.1).1
      exact hm (by simp)
    rw [if_neg hother]
    rw [List.getLast?_append_cons] at hprev ⊢
    exact ⟨hlinked, hparent, hprev, hnext⟩

/-- A right change leads to the new layout; all other chains stay as they are. -/
theorem Laid.rewire (h : Laid s f k) (hr : Rewires s f k p n l relink note) :
    Laid s (f.rewired p relink note) (Function.update k p l) := by
  constructor
  case slots_le => exact Nat.le_trans (Nat.le_of_eq (slots_size_retouch ..)) h.slots_le
  case vacant_nodup => exact h.vacant_nodup
  case vacant_empty => exact fun i hi => empty_retouch _ _ _ _ (h.vacant_empty i hi)
  case empty_vacant => exact fun i hi => h.empty_vacant i (empty_of_retouch _ _ _ _ hi)
  case typed =>
    intro m e' he'
    obtain ⟨e, he, rfl⟩ := (get?_retouch_eq_some ..).1 he'
    obtain ⟨node, hnode, haccepts⟩ := h.typed m e he
    refine ⟨node, by simpa [hr.keeps.schema] using hnode, SchemaNode.accepts_touchChain ?_⟩
    rwa [hr.keeps.content]
  case nodup =>
    rw [Function.forall_update_iff k fun _ l => l.Nodup]
    exact ⟨hr.nodup, fun q _ => h.nodup q⟩
  case links =>
    intro q xs m ys hq
    by_cases hqp : q = p
    · subst hqp
      rw [Function.update_self] at hq
      obtain ⟨e, he, hlinks⟩ := hr.links xs m ys hq
      exact ⟨_, (get?_retouch_eq_some ..).2 ⟨e, he, rfl⟩, by simpa using hlinks⟩
    · rw [Function.update_of_ne hqp] at hq
      obtain ⟨e, he, hlinks⟩ := h.links q xs m ys hq
      refine ⟨_, (get?_retouch_eq_some ..).2 ⟨e, he, rfl⟩, ?_⟩
      rw [hr.relink_of_mem h (by simp [hq]) hqp he]
      simpa using hlinks
  case placed =>
    intro m e' he' hlinked
    obtain ⟨e, he, rfl⟩ := (get?_retouch_eq_some ..).1 he'
    rw [touchChain_linked] at hlinked
    rw [touchChain_parent]
    rcases hr.relink_cases he with ⟨hml, -, hparent⟩ | ⟨hloose, -⟩ | ⟨hmp, hfix⟩
    · rwa [hparent, Function.update_self]
    · rw [hloose] at hlinked
      cases hlinked
    · rw [hfix] at hlinked ⊢
      have hm := h.placed m e he hlinked
      have hne : e.parent ≠ p := fun heq => hmp (heq ▸ hm)
      rwa [Function.update_of_ne hne]
  case loose =>
    intro m e' he' hm
    obtain ⟨e, he, rfl⟩ := (get?_retouch_eq_some ..).1 he'
    rw [touchChain_linked] at hm
    rw [touchChain_parent, touchChain_prev, touchChain_next]
    rcases hr.relink_cases he with ⟨-, hlinked, -⟩ | ⟨-, hloose⟩ | ⟨-, hfix⟩
    · rw [hlinked] at hm
      cases hm
    · exact hloose
    · rw [hfix] at hm ⊢
      exact h.loose m e he hm
  case childless =>
    intro q hq
    obtain ⟨c, hc, -⟩ := hr.chain
    rw [chain?_rewired f p note hr.keeps] at hq
    have hqp : q ≠ p := by
      intro heq
      subst heq
      simp [hc] at hq
    rw [if_neg (Ne.symm hqp)] at hq
    rw [Function.update_of_ne hqp]
    exact h.childless q hq
  case first =>
    intro q c hc
    rcases hr.chain?_cases hc with ⟨rfl, hfirst, -⟩ | ⟨hqp, hc⟩
    · rwa [Function.update_self]
    · rw [Function.update_of_ne hqp]
      exact h.first q c hc
  case last =>
    intro q c hc
    rcases hr.chain?_cases hc with ⟨rfl, -, hlast, -⟩ | ⟨hqp, hc⟩
    · rwa [Function.update_self]
    · rw [Function.update_of_ne hqp]
      exact h.last q c hc
  case runs =>
    intro q c t hc
    rw [group, isOf_rewired f p note hr.keeps]
    rcases hr.chain?_cases hc with ⟨rfl, -, -, hruns⟩ | ⟨hqp, hc⟩
    · rw [Function.update_self]
      exact hruns t
    · rw [Function.update_of_ne hqp]
      exact h.runs q c t hc
  case contiguous =>
    simp only [isOf_rewired f p note hr.keeps]
    rw [Function.forall_update_iff k fun _ l => ∀ t, Contiguous (f.isOf t) l]
    exact ⟨hr.contiguous, fun q _ => h.contiguous q⟩
  case below =>
    intro q m e' hm he'
    obtain ⟨e, he, rfl⟩ := (get?_retouch_eq_some ..).1 he'
    rw [touchChain_schema, hr.keeps.schema, kind?_rewired f p note hr.keeps]
    by_cases hqp : q = p
    · subst hqp
      rw [Function.update_self] at hm
      exact hr.below m e hm he
    · rw [Function.update_of_ne hqp] at hm
      exact h.below q m e hm he

end Rewire

end InstanceTree
