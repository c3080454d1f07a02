import InstanceTree.Proofs.Forest.Rewiring

namespace InstanceTree

namespace Forest

def unlinkage (prev : Option NodeId) (n : NodeId) (next : Option NodeId) (i : NodeId)
    (e : Element) : Element :=
  if i = n then { e with parent := none, prev := none, next := none, linked := false }
  else if prev = some i then { e with next := next }
  else if next = some i then { e with prev := prev }
  else e

theorem unlinkage_keepsContent (prev : Option NodeId) (n : NodeId) (next : Option NodeId) :
    KeepsContent (unlinkage prev n next) := by
  constructor
  all_goals
    intro i e
    unfold unlinkage
    repeat' split
    all_goals rfl

def removed (f : Forest) (t : SchemaId) (p prev : Option NodeId) (n : NodeId)
    (next : Option NodeId) : Forest :=
  f.rewired p (unlinkage prev n next) (·.leave n t prev next)

end Forest

namespace Laid

open Forest

variable {s : Schema} {f : Forest} {k : Layout} {p : Option NodeId} {n : NodeId} {e : Element}
  {xs ys : List NodeId}

theorem takeOut_eq (h : Laid s f k) (hs : s.Built) (hk : k p = xs ++ n :: ys)
    (he : f.get? n = some e) :
    f.takeOut n = .ok (f.removed e.schema p xs.getLast? n ys.head?) := by
  obtain ⟨-, hparent, hprev, hnext⟩ := h.links_of_get? hk he
  have hn : n ∈ k p := by simp [hk]
  obtain ⟨c, hc⟩ := h.chain_of_mem hn
  have hpn : p ≠ some n := by
    intro heq
    subst heq
    exact h.not_mem_self hs hn
  have halive : ∀ i, i ∈ k p → ∃ e, f.get? i = some e := fun i hi => by
    obtain ⟨e, he, -⟩ := h.exists_of_mem hi
    exact ⟨e, he⟩
  have hx : f.Alive xs.getLast? := fun i hi =>
    halive i (by simp [hk, List.mem_of_getLast? hi])
  have hy : f.Alive ys.head? := fun i hi => halive i (by simp [hk, List.mem_of_head? hi])
  have hnd := h.nodup p
  rw [hk, List.nodup_middle, List.nodup_cons] at hnd
  have hxn : xs.getLast? ≠ some n := fun hl => hnd.1 (by simp [List.mem_of_getLast? hl])
  have hyn : ys.head? ≠ some n := fun hl => hnd.1 (by simp [List.mem_of_head? hl])
  have hxy : ∀ i, xs.getLast? = some i → ys.head? ≠ some i := fun i hl hr =>
    (List.nodup_append.1 hnd.2).2.2 i (List.mem_of_getLast? hl) i (List.mem_of_head? hr) rfl
  simp only [takeOut, element_of_get? he, ok_bind, hparent, hprev, hnext]
  rw [updateLinked_eq hx, ok_bind, updateLinked_eq (alive_retouch hy), ok_bind,
    updateChildren_eq (c := c), ok_bind, update_eq (e := e), retouch_retouch, retouch_retouch,
    retouch_retouch]
  · refine congrArg Except.ok (retouch_congr (fun i e' _ => ?_) rfl)
    simp only [touch, touchLinked, touchChain, unlinkage]
    by_cases hin : i = n
    · subst hin
      simp [hxn, hyn, hpn]
    · by_cases hxi : xs.getLast? = some i
      · simp [hin, hxi, hxy i hxi]
      · simp [hin, hxi]
  · simp [he, touchLinked, touchChain, hxn, hyn, hpn]
  · rw [retouch_retouch]
    refine (chain?_retouch (fun i e => ?_) p).trans hc
    simp only [touchLinked]
    split <;> split <;> rfl

theorem links_unlinkage (h : Laid s f k) (hk : k p = xs ++ n :: ys) {xs' ys' : List NodeId}
    {m : NodeId} (hsplit : xs ++ ys = xs' ++ m :: ys') :
    ∃ e', f.get? m = some e' ∧ (unlinkage xs.getLast? n ys.head? m e').linked = true ∧
      (unlinkage xs.getLast? n ys.head? m e').parent = p ∧
      (unlinkage xs.getLast? n ys.head? m e').prev = xs'.getLast? ∧
      (unlinkage xs.getLast? n ys.head? m e').next = ys'.head? := by
  have hnd := h.nodup p
  rw [hk, List.nodup_middle, List.nodup_cons] at hnd
  obtain ⟨hn, hnd⟩ := hnd
  have hdis := (List.nodup_append.1 hnd).2.2
  have hmn : m ≠ n := by
    intro heq
    subst heq
    exact hn (by simp [hsplit])
  have hbehind : ∀ c, xs' = xs ++ c → ys = c ++ m :: ys' →
      ∃ e', f.get? m = some e' ∧ (unlinkage xs.getLast? n ys.head? m e').linked = true ∧
        (unlinkage xs.getLast? n ys.head? m e').parent = p ∧
        (unlinkage xs.getLast? n ys.head? m e').prev = xs'.getLast? ∧
        (unlinkage xs.getLast? n ys.head? m e').next = ys'.head? := by
    intro c hc hys
    have hm : m ∈ ys := by simp [hys]
    have hmx : xs.getLast? ≠ some m := fun hx => hdis m (List.mem_of_getLast? hx) m hm rfl
    rw [hc]
    have hk' : k p = (xs ++ [n]) ++ ys := by simp [hk]
    exact h.links_behind xs hk' hys fun e' => by simp [unlinkage, hmn, hmx]
  rcases List.append_eq_append_iff.1 hsplit with ⟨c, hc, hys⟩ | ⟨c, hc, hc'⟩
  · exact hbehind c hc hys
  · cases c with
    | nil => exact hbehind [] (by simpa using hc.symm) (by simpa using hc'.symm)
    | cons a c =>
      -- `m` stands in front of the element that leaves
      obtain ⟨rfl, hys'⟩ : m = a ∧ ys' = c ++ ys := List.cons.inj hc'
      have hm : m ∈ xs := by simp [hc]
      have hmy : ys.head? ≠ some m := fun hy => hdis m hm m (List.mem_of_head? hy) rfl
      rw [hys']
      exact h.links_in_front ys hk hc fun e' => by simp [unlinkage, hmn, hmy]

theorem runs_leaving (h : Laid s f k) (hk : k p = xs ++ n :: ys) {c : Children}
    (hc : f.chain? p = some c) {t : SchemaId} (hn : f.isOf t n = true) (t' : SchemaId) :
    (c.leave n t xs.getLast? ys.head?).runs.get? t' = runOf ((xs ++ ys).filter (f.isOf t')) := by
  have hgroup : ∀ t', c.runs.get? t' = runOf ((xs ++ n :: ys).filter (f.isOf t')) := fun t' =>
    hk ▸ h.runs p c t' hc
  have hsplit : (xs ++ n :: ys).filter (f.isOf t) =
      xs.filter (f.isOf t) ++ n :: ys.filter (f.isOf t) := by
    rw [List.filter_append, List.filter_cons, if_pos hn]
  by_cases ht : t = t'
  · subst ht
    obtain ⟨as, bs, hx, hy⟩ := (hk ▸ h.contiguous p t).around hn
    have hnd := h.nodup p
    rw [hk] at hnd
    have hnd' := hnd.filter (f.isOf t)
    rw [hsplit, List.nodup_middle, List.nodup_cons] at hnd'
    simp only [Children.leave, Children.runsWithout, hgroup t, hsplit, List.filter_append]
    generalize xs.filter (f.isOf t) = gx at hx hnd'
    generalize ys.filter (f.isOf t) = gy at hy hnd'
    obtain ⟨run, hrun, hfirst, hlast, hrest⟩ := runOf_remove hnd'.1
    rw [hrun, hrest as bs, ← hx, ← hy]
    simp only [hfirst, hlast]
    split
    · rw [Runs.get?_erase_same]
    · rw [Runs.get?_set_same]
  · have hn' : f.isOf t' n = false := by
      simp only [isOf, decide_eq_true_eq] at hn
      simp [isOf, hn, ht]
    have hother : c.runs.get? t' = runOf ((xs ++ ys).filter (f.isOf t')) := by
      rw [hgroup t']
      simp [hn']
    simp only [Children.leave, Children.runsWithout]
    split
    · exact hother
    · split
      · rw [Runs.get?_erase_other _ ht, hother]
      · rw [Runs.get?_set_other _ _ ht, hother]

/-- An element may leave its place. -/
theorem remove (h : Laid s f k) (hk : k p = xs ++ n :: ys) (he : f.get? n = some e) :
    Laid s (f.removed e.schema p xs.getLast? n ys.head?)
      (Function.update k p (xs ++ ys)) := by
  have hn : f.isOf e.schema n = true := by simp [isOf_of_get? he]
  have hnp : n ∈ k p := by simp [hk]
  obtain ⟨c, hc⟩ := h.chain_of_mem hnp
  have hnd := h.nodup p
  rw [hk, List.nodup_middle, List.nodup_cons] at hnd
  have hstay : ∀ m ∈ xs ++ ys, m ∈ k p := by
    intro m hm
    simp only [hk, List.mem_append, List.mem_cons] at hm ⊢
    tauto
  have hfirst := h.first p c hc
  have hlast := h.last p c hc
  rw [hk] at hfirst hlast
  apply h.rewire (n := n)
  constructor
  case keeps => exact unlinkage_keepsContent ..
  case nodup => exact hnd.2
  case nearby => exact fun m hm => .inl (hstay m hm)
  case stood => exact fun q hq => h.unique_parent hq hnp
  case fixed =>
    intro m e' _ hm hmn
    have hmx : xs.getLast? ≠ some m := fun hx => hm (by simp [hk, List.mem_of_getLast? hx])
    have hmy : ys.head? ≠ some m := fun hy => hm (by simp [hk, List.mem_of_head? hy])
    simp [unlinkage, hmn, hmx, hmy]
  case links => exact fun xs' m ys' hsplit => h.links_unlinkage hk hsplit
  case gone =>
    intro m e' _ hm hml
    have hmn : m = n := by
      simp only [hk, List.mem_append, List.mem_cons] at hm hml
      tauto
    subst hmn
    simp [unlinkage]
  case chain =>
    refine ⟨c, hc, ?_, ?_, fun t => h.runs_leaving hk hc hn t⟩
    · cases xs <;> simp [Children.leave, hfirst, List.getLast?_cons]
    · cases ys <;> simp [Children.leave, hlast, List.getLast?_cons, List.getLast?_append]
  case contiguous =>
    intro t
    have hcontig := hk ▸ h.contiguous p t
    exact hcontig.remove (hk ▸ h.nodup p)
  case below => exact fun m e' hm he' => h.below p m e' (hstay m hm) he'

end Laid

end InstanceTree
