import InstanceTree.Proofs.Forest.Rewiring

namespace InstanceTree

namespace Forest

/-- The links after `n` has been put between `prev` and `next` below `p`. -/
def linkage (p prev : Option NodeId) (n : NodeId) (next : Option NodeId) (i : NodeId)
    (e : Element) : Element :=
  if i = n then { e with parent := p, prev := prev, next := next, linked := true }
  else if prev = some i then { e with next := some n }
  else if next = some i then { e with prev := some n }
  else e

def entering (f : Forest) (t : SchemaId) (prev : Option NodeId) (n : NodeId)
    (next : Option NodeId) (c : Children) : Children :=
  c.enter n t prev next (!prev.any (f.isOf t)) (!next.any (f.isOf t))

/-- The forest with `n`, an instance of `t`, put between `prev` and `next` below `p`. -/
def placed (f : Forest) (t : SchemaId) (p prev : Option NodeId) (n : NodeId)
    (next : Option NodeId) : Forest :=
  f.rewired p (linkage p prev n next) (f.entering t prev n next)

theorem linkage_keepsContent (p prev : Option NodeId) (n : NodeId) (next : Option NodeId) :
    KeepsContent (linkage p prev n next) := by
  constructor
  all_goals
    intro i e
    unfold linkage
    repeat' split
    all_goals rfl

variable {f : Forest} {n : NodeId} {e : Element} {t : SchemaId} {p prev next : Option NodeId}

theorem enroll_linkage (he : f.get? n = some e) (ht : e.schema = t) (hprev : f.Alive prev)
    (hnext : f.Alive next) {c : Children} (hc : f.chain? p = some c) :
    (f.retouch (linkage p prev n next) id).enroll n = .ok (f.placed t p prev n next) := by
  subst ht
  have hn : (f.retouch (linkage p prev n next) id).get? n =
      some { e with parent := p, prev := prev, next := next, linked := true } := by
    simp [he, linkage]
  have hkeeps := linkage_keepsContent p prev n next
  have hc' := (chain?_retouch hkeeps.content p).trans hc
  rw [enroll_eq hn (alive_retouch hprev) (alive_retouch hnext) hc' rfl]
  simp only [isOf_retouch hkeeps.schema, retouch_retouch]
  rfl

end Forest

namespace Laid

open Forest

variable {s : Schema} {f : Forest} {k : Layout} {p : Option NodeId} {n pivot : NodeId} {e : Element}
  {xs ys : List NodeId}

theorem apart (h : Laid s f k) (hk : k p = xs ++ ys) (he : f.get? n = some e)
    (hloose : e.linked = false) : xs.getLast? ≠ some n ∧ ys.head? ≠ some n ∧
      ∀ i, xs.getLast? = some i → ys.head? ≠ some i := by
  have hnk : n ∉ k p := h.not_mem_of_loose he hloose
  have hnd := h.nodup p
  rw [hk] at hnk hnd
  refine ⟨?_, ?_, ?_⟩
  · exact fun hn => hnk (List.mem_append_left _ (List.mem_of_getLast? hn))
  · exact fun hn => hnk (List.mem_append_right _ (List.mem_of_head? hn))
  · intro i hx hy
    exact (List.nodup_append.1 hnd).2.2 i (List.mem_of_getLast? hx) i (List.mem_of_head? hy) rfl

theorem spliceAfter_eq (h : Laid s f k) (hk : k p = xs ++ ys) (hpivot : xs.getLast? = some pivot)
    (he : f.get? n = some e) (hloose : e.linked = false) :
    f.spliceAfter pivot n = .ok (f.placed e.schema p xs.getLast? n ys.head?) := by
  obtain ⟨hxn, hyn, hxy⟩ := h.apart hk he hloose
  have hprev := h.alive_last hk
  have hnext := h.alive_head hk
  have hyp := hxy pivot hpivot
  rw [hpivot] at hxn hprev ⊢
  have hnp : n ≠ pivot := fun hn => hxn (by rw [hn])
  obtain ⟨ys', rfl⟩ := List.getLast?_eq_some_iff.1 hpivot
  have hk' : k p = ys' ++ pivot :: ys := by simpa using hk
  obtain ⟨ep, hep, -, hparent, -, hpn⟩ := h.links p ys' pivot ys hk'
  obtain ⟨c, hc⟩ := h.chain_of_mem (p := p) (n := pivot) (by simp [hk'])
  simp only [spliceAfter, element_of_get? hep, ok_bind, hpn, hparent]
  rw [updateLinked_eq hnext, ok_bind, update_eq (e := ep), ok_bind, update_eq (e := e), ok_bind,
    ← enroll_linkage he rfl hprev hnext hc, retouch_retouch, retouch_retouch]
  · refine congrArg (enroll · n) (retouch_congr (fun i e' _ => ?_) rfl)
    simp only [touch, touchLinked, linkage]
    by_cases hin : i = n
    · subst hin
      simp [hnp, hyn]
    · by_cases hip : i = pivot
      · subst hip
        simp [hin, hyp]
      · simp [hin, hip, Ne.symm hip]
  · simp [he, touch, touchLinked, hnp, hyn]
  · simp [hep, touchLinked, hyp]

theorem spliceBefore_eq (h : Laid s f k) (hk : k p = xs ++ ys) (hpivot : ys.head? = some pivot)
    (he : f.get? n = some e) (hloose : e.linked = false) :
    f.spliceBefore pivot n = .ok (f.placed e.schema p xs.getLast? n ys.head?) := by
  obtain ⟨hxn, hyn, hxy⟩ := h.apart hk he hloose
  have hprev := h.alive_last hk
  have hnext := h.alive_head hk
  have hxp : xs.getLast? ≠ some pivot := fun hx => hxy pivot hx hpivot
  rw [hpivot] at hyn hnext ⊢
  have hnp : n ≠ pivot := fun hn => hyn (by rw [hn])
  obtain ⟨ys', rfl⟩ := List.head?_eq_some_iff.1 hpivot
  obtain ⟨ep, hep, -, hparent, hpp, -⟩ := h.links p xs pivot ys' hk
  obtain ⟨c, hc⟩ := h.chain_of_mem (p := p) (n := pivot) (by simp [hk])
  simp only [spliceBefore, element_of_get? hep, ok_bind, hpp, hparent]
  rw [updateLinked_eq hprev, ok_bind, update_eq (e := ep), ok_bind, update_eq (e := e), ok_bind,
    ← enroll_linkage he rfl hprev hnext hc, retouch_retouch, retouch_retouch]
  · refine congrArg (enroll · n) (retouch_congr (fun i e' _ => ?_) rfl)
    simp only [touch, touchLinked, linkage]
    by_cases hin : i = n
    · subst hin
      simp [hnp, hxn]
    · by_cases hip : i = pivot
      · subst hip
        simp [hin, hxp]
      · simp [hin, hip, Ne.symm hip]
  · simp [he, touch, touchLinked, hnp, hxn]
  · simp [hep, touchLinked, hxp]

theorem spliceLast_eq (h : Laid s f k) (hp : f.Alive p) {c : Children} (hc : f.chain? p = some c)
    (he : f.get? n = some e) (hloose : e.linked = false) :
    f.spliceLast p n = .ok (f.placed e.schema p (k p).getLast? n none) := by
  simp only [spliceLast, h.lastChild_eq hp, ok_bind]
  cases hl : (k p).getLast? with
  | some last =>
    have hend : k p = k p ++ [] := (List.append_nil _).symm
    have hafter := h.spliceAfter_eq hend hl he hloose
    rwa [hl] at hafter
  | none =>
    obtain ⟨-, hprev, hnext⟩ := h.loose n e he hloose
    have halive : f.Alive none := nofun
    simp only [update_eq he, ok_bind]
    rw [← enroll_linkage he rfl halive halive hc]
    refine congrArg (enroll · n) (retouch_congr (fun i e' he' => ?_) rfl)
    by_cases hin : i = n
    · subst hin
      cases he.symm.trans he'
      simp [touch, linkage, hprev, hnext]
    · simp [touch, linkage, hin]

theorem runs_entering (h : Laid s f k) (hk : k p = xs ++ ys) {c : Children}
    (hc : f.chain? p = some c) {t : SchemaId} (hn : f.isOf t n = true)
    (hbeside : Beside (f.isOf t) xs ys) (t' : SchemaId) :
    (f.entering t xs.getLast? n ys.head? c).runs.get? t' =
      runOf ((xs ++ n :: ys).filter (f.isOf t')) := by
  have hgroup := h.runs p c t' hc
  have hcontig := hk ▸ h.contiguous p t
  rw [group, hk, List.filter_append] at hgroup
  rw [List.filter_append, List.filter_cons]
  by_cases ht : t = t'
  · subst ht
    have hx : xs.getLast?.any (f.isOf t) = false ↔ xs.filter (f.isOf t) = [] :=
      ⟨fun hx => List.filter_eq_nil_iff.2 fun a ha => by simp [hcontig.before hbeside hx a ha],
        fun hx => any_getLast?_eq_false fun a ha => by
          simpa using List.filter_eq_nil_iff.1 hx a ha⟩
    have hy : ys.head?.any (f.isOf t) = false ↔ ys.filter (f.isOf t) = [] :=
      ⟨fun hy => List.filter_eq_nil_iff.2 fun a ha => by simp [hcontig.after hbeside hy a ha],
        fun hy => any_head?_eq_false fun a ha => by
          simpa using List.filter_eq_nil_iff.1 hy a ha⟩
    simp only [entering, Children.enter, Runs.get?_set_same, hgroup, hn, if_true, runOf_insert,
      Bool.not_eq_true', hx, hy]
  · have hn' : f.isOf t' n = false := by
      simp only [isOf, decide_eq_true_eq] at hn
      simp [isOf, hn, ht]
    simp only [entering, Children.enter, Runs.get?_set_other _ _ ht, hgroup, hn']
    rfl

theorem links_linkage (h : Laid s f k) (hk : k p = xs ++ ys) (he : f.get? n = some e)
    (hloose : e.linked = false) {xs' ys' : List NodeId} {m : NodeId}
    (hsplit : xs ++ n :: ys = xs' ++ m :: ys') :
    ∃ e', f.get? m = some e' ∧ (linkage p xs.getLast? n ys.head? m e').linked = true ∧
      (linkage p xs.getLast? n ys.head? m e').parent = p ∧
      (linkage p xs.getLast? n ys.head? m e').prev = xs'.getLast? ∧
      (linkage p xs.getLast? n ys.head? m e').next = ys'.head? := by
  have hnk : n ∉ xs ++ ys := hk ▸ h.not_mem_of_loose he hloose
  have hdis := (List.nodup_append.1 (hk ▸ h.nodup p)).2.2
  have hmid : ∀ {m}, m = n → (linkage p xs.getLast? n ys.head? m e).linked = true ∧
      (linkage p xs.getLast? n ys.head? m e).parent = p ∧
      (linkage p xs.getLast? n ys.head? m e).prev = xs.getLast? ∧
      (linkage p xs.getLast? n ys.head? m e).next = ys.head? := by
    intro m hm
    simp [linkage, hm]
  rcases List.append_eq_append_iff.1 hsplit with ⟨c, hc, hc'⟩ | ⟨c, hc, hc'⟩
  · cases c with
    | nil =>
      obtain ⟨rfl, rfl⟩ := List.cons.inj hc'
      rw [hc, List.append_nil]
      exact ⟨e, he, hmid rfl⟩
    | cons a c =>
      -- `m` stands behind the new element
      obtain ⟨rfl, hys⟩ : n = a ∧ ys = c ++ m :: ys' := List.cons.inj hc'
      have hm : m ∈ ys := by simp [hys]
      have hmn : m ≠ n := fun heq => hnk (List.mem_append_right _ (heq ▸ hm))
      have hmx : xs.getLast? ≠ some m := fun hx => hdis m (List.mem_of_getLast? hx) m hm rfl
      have hxs : xs' = (xs ++ [n]) ++ c := by simp [hc]
      rw [hxs]
      exact h.links_behind (xs ++ [n]) hk hys fun e' => by simp [linkage, hmn, hmx]
  · cases c with
    | nil =>
      obtain ⟨rfl, rfl⟩ := List.cons.inj hc'
      rw [List.append_nil] at hc
      rw [← hc]
      exact ⟨e, he, hmid rfl⟩
    | cons a c =>
      -- `m` stands in front of the new element
      obtain ⟨rfl, hys'⟩ : m = a ∧ ys' = c ++ n :: ys := List.cons.inj hc'
      have hm : m ∈ xs := by simp [hc]
      have hmn : m ≠ n := fun heq => hnk (List.mem_append_left _ (heq ▸ hm))
      have hmy : ys.head? ≠ some m := fun hy => hdis m hm m (List.mem_of_head? hy) rfl
      rw [hys']
      exact h.links_in_front (n :: ys) hk hc fun e' => by simp [linkage, hmn, hmy]

/-- An element that stood nowhere may take a place beside others of its kind. -/
theorem place (h : Laid s f k) (hk : k p = xs ++ ys) (he : f.get? n = some e)
    (hloose : e.linked = false) {c : Children} (hc : f.chain? p = some c)
    (hbelow : ∃ node, s.nodes[e.schema]? = some node ∧ node.parent = p.bind f.kind?)
    (hbeside : Beside (f.isOf e.schema) xs ys)
    (houtside : ∀ t, t ≠ e.schema → Outside (f.isOf t) xs ys) :
    Laid s (f.placed e.schema p xs.getLast? n ys.head?)
      (Function.update k p (xs ++ n :: ys)) := by
  have hnk : ∀ q, n ∉ k q := fun q => h.not_mem_of_loose he hloose
  have hn : f.isOf e.schema n = true := by simp [isOf_of_get? he]
  have hmem : ∀ m, m ∈ xs ++ n :: ys ↔ m ∈ k p ∨ m = n := by
    intro m
    simp only [hk, List.mem_append, List.mem_cons]
    tauto
  have hfirst := h.first p c hc
  have hlast := h.last p c hc
  rw [hk] at hfirst hlast
  apply h.rewire
  constructor
  case keeps => exact linkage_keepsContent ..
  case nodup =>
    have hnd := h.nodup p
    have hnp := hnk p
    rw [hk] at hnd hnp
    exact List.nodup_middle.2 (List.nodup_cons.2 ⟨hnp, hnd⟩)
  case nearby => exact fun m => (hmem m).1
  case stood => exact fun q hq => absurd hq (hnk q)
  case fixed =>
    intro m e' _ hm hmn
    have hmx : xs.getLast? ≠ some m := fun hx => hm (by simp [hk, List.mem_of_getLast? hx])
    have hmy : ys.head? ≠ some m := fun hy => hm (by simp [hk, List.mem_of_head? hy])
    simp [linkage, hmn, hmx, hmy]
  case links => exact fun xs' m ys' hsplit => h.links_linkage hk he hloose hsplit
  case gone => exact fun m e' _ hm hml => absurd ((hmem m).2 hm) hml
  case chain =>
    refine ⟨c, hc, ?_, ?_, fun t => h.runs_entering hk hc hn hbeside t⟩
    · cases xs <;> simp [entering, Children.enter, hfirst, List.getLast?_cons]
    · cases ys <;> simp [entering, Children.enter, hlast, List.getLast?_cons,
        List.getLast?_append]
  case contiguous =>
    intro t
    have hcontig := hk ▸ h.contiguous p t
    by_cases ht : t = e.schema
    · subst ht
      exact hcontig.insert_beside hn hbeside
    · exact hcontig.insert_outside (by simp [isOf_of_get? he, Ne.symm ht]) (houtside t ht)
  case below =>
    intro m e' hm he'
    rcases (hmem m).1 hm with hm | rfl
    · exact h.below p m e' hm he'
    · cases he.symm.trans he'
      exact hbelow

end Laid

end InstanceTree
