import InstanceTree.Proofs.RedBlack.Deficit
import InstanceTree.Proofs.RedBlack.Insertion
import InstanceTree.Proofs.RedBlack.Traversal

namespace InstanceTree.RedBlack

open Arena

variable {α : Type}

/-- A tree `t` at the end of a way fits into it, unless a black node between them has been taken
away and a repair has to make up for it. -/
def Path.Gap (p : Path) (black : Bool) (t : Shape) : Prop :=
  if black then p.Balanced true 1 ∧ ∃ c, t.Balanced c 0 else p.Balanced true 0 ∧ t.Balanced true 0

theorem Path.Gap.of_fill {p : Path} {s : Side} {b : Bool} {i k : Nat} {t : Shape}
    (h : (p.fill (.join s b i .leaf t)).Balanced true k) : p.Gap b t := by
  obtain ⟨c, h, hj, hp⟩ := Path.Balanced.of_fill h
  cases b with
  | false =>
    obtain ⟨rfl, hleaf, ht⟩ := hj.of_red_join
    cases hleaf
    exact ⟨hp.to_black, ht⟩
  | true =>
    obtain ⟨rfl, c, c', k, rfl, hleaf, ht⟩ := hj.of_black_join
    cases hleaf
    exact ⟨hp, c', ht⟩

theorem Path.Gap.rename {p q : Path} {s : Side} {b c : Bool} {i : Nat} (j : Nat) {other t : Shape}
    (h : Path.Gap (q ++ ⟨s, b, i, other⟩ :: p) c t) :
    Path.Gap (q ++ ⟨s, b, j, other⟩ :: p) c t := by
  cases c with
  | false => exact ⟨h.1.rename j, h.2⟩
  | true => exact ⟨h.1.rename j, h.2⟩

theorem Path.inorder_fill_erase {p : Path} {s : Side} {b : Bool} {n : Nat} {c : Shape}
    (hnd : (p.fill (.join s b n .leaf c)).inorder.Nodup) :
    (p.fill (.join s b n .leaf c)).inorder.erase n = (p.fill c).inorder := by
  have hsplit : ∃ xs ys, (p.fill (.join s b n .leaf c)).inorder = xs ++ n :: ys ∧
      (p.fill c).inorder = xs ++ ys := by
    rw [inorder_fill, inorder_fill]
    cases s with
    | left =>
      refine ⟨(p.beyond .left).reverse, c.inorder ++ p.beyond .right, ?_, ?_⟩ <;>
        simp [Shape.join, Shape.inorder]
    | right =>
      refine ⟨(p.beyond .left).reverse ++ c.inorder, p.beyond .right, ?_, rfl⟩
      simp [Shape.join, Shape.inorder]
  obtain ⟨xs, ys, hx, hy⟩ := hsplit
  rw [hx, List.nodup_middle, List.nodup_cons] at hnd
  rw [hx, hy, List.erase_append_right _ fun hc => hnd.1 (List.mem_append_left _ hc),
    List.erase_cons_head]

theorem Path.parent_rename {q path : Path} {s : Side} {b : Bool} {n succ : Nat} {l : Shape}
    (hn : n ∉ q.indices) :
    (if Path.parent (q ++ ⟨s, b, n, l⟩ :: path) = some n then some succ
      else Path.parent (q ++ ⟨s, b, n, l⟩ :: path)) =
        Path.parent (q ++ ⟨s, b, succ, l⟩ :: path) := by
  cases q with
  | nil => simp [Path.parent]
  | cons turn q =>
    have hne : turn.index ≠ n := by
      intro heq
      subst heq
      simp [Path.indices] at hn
    simp [Path.parent, hne]

/-- Where the next node stands in for `n` and leaves its own place to `rs`, the order loses `n`. -/
theorem Path.inorder_swap {q path : Path} {l rs : Shape} {bs b : Bool} {n succ : Nat}
    (hside : ∀ turn ∈ q, turn.side = .left)
    (hnd : ((q ++ ⟨.right, b, n, l⟩ :: path : Path).fill
      (.join .left bs succ .leaf rs)).inorder.Nodup) :
    ((q ++ ⟨.right, b, succ, l⟩ :: path : Path).fill rs).inorder =
      ((q ++ ⟨.right, b, n, l⟩ :: path : Path).fill
        (.join .left bs succ .leaf rs)).inorder.erase n := by
  have hq : ∀ t, (q.fill t).inorder = t.inorder ++ q.beyond .right := by
    intro t
    rw [inorder_fill, beyond_of_side hside]
    rfl
  have hup : (q ++ ⟨.right, b, n, l⟩ :: path : Path).fill (.join .left bs succ .leaf rs) =
      path.fill (.node b l n (q.fill (.join .left bs succ .leaf rs))) := fill_append ..
  rw [hup, inorder_fill] at hnd
  simp only [Shape.inorder, List.append_assoc, List.cons_append] at hnd
  rw [← List.append_assoc, List.nodup_middle, List.nodup_cons] at hnd
  have hn : n ∉ (path.beyond .left).reverse ++ l.inorder :=
    fun hc => hnd.1 (List.mem_append_left _ hc)
  rw [hup, fill_append, fill, inorder_fill, inorder_fill]
  simp only [Shape.join, Shape.inorder, hq, List.nil_append, List.append_assoc, List.cons_append]
  rw [← List.append_assoc, ← List.append_assoc (_ : List Nat).reverse,
    List.erase_append_right _ hn, List.erase_cons_head]

namespace Rooted

variable {r : Rooted α} {path : Path} {s : Side} {b : Bool} {n : Nat} {c l right : Shape}

theorem Focus.splice (h : r.Focus path (.join s b n .leaf c)) :
    Yields (do
      let r ← r.adopt c.root? path.parent
      r.redirect path.parent n c.root?) fun r' =>
        Stage r (path.fill c).inorder r' path c := by
  obtain ⟨hnd, hpnd, hd⟩ := h.nodes_disjoint
  have hperm := (Shape.inorder_join_perm s b n .leaf c).nodup_iff.1 hnd
  simp only [Shape.inorder, List.nil_append, List.nodup_cons] at hperm
  simp only [Shape.mem_inorder_join] at hd
  have hroot : ∀ i, c.root? = some i → i ∈ c.inorder := fun i => Shape.root?_mem
  obtain ⟨-, -, hc⟩ := holds_join.1 h.below
  have hp := h.around
  rw [Shape.root?_join] at hp
  rw [adopt_eq (fun i hi => hc.lt_size (hroot i hi)), ok_bind,
    redirect_eq (r := r.retouch _) (hp.frame ?_) (hd n (.inl rfl))]
  · refine .intro rfl ⟨⟨?_, ?_, ?_⟩, rfl, ?_⟩
    · apply hp.plug hpnd
      intro i hi
      have hic : c.root? ≠ some i := by grind
      rw [rehang_arena, retouch_arena, Arena.retouch_retouch, getElem?_retouch]
      congr 1
      funext m
      simp [touchLinked, hic]
    · apply hc.reparent hperm.2
      intro i hi
      have hip : path.parent ≠ some i := fun hip => hd i (.inr (.inr hi)) (Path.parent_mem hip)
      rw [rehang_arena, retouch_arena, Arena.retouch_retouch, getElem?_retouch]
      congr 1
      funext m
      simp [touchLinked, hang_of_ne hip]
    · exact List.nodup_append.2 ⟨hperm.2, hpnd, by grind⟩
    · rw [rehang, retouch_arena, Arena.retouch_retouch]
      apply touches_retouch r _
      · intro i m
        simp only [touchLinked, hang_elem]
        split <;> rfl
      · intro i hi m
        simp only [(Path.inorder_fill_perm path c).mem_iff, List.mem_append, not_or] at hi
        rw [hang_of_ne fun hip => hi.2 (Path.parent_mem hip)]
        have hic : c.root? ≠ some i := fun hic => hi.1 (hroot i hic)
        simp [touchLinked, hic]
  · intro i hi
    have hic : c.root? ≠ some i := by grind
    exact getElem?_retouch_fixed _ fun m => by simp [touchLinked, hic]

theorem Focus.supplant {li succ : Nat} (h : r.Focus path (.node b l n right))
    (hl : l.root? = some li) (hlt : succ < r.arena.size)
    (hsucc : succ ∉ (path.fill (.node b l n right)).inorder) :
    Yields (do
      let old ← r.node n
      let r ← r.update succ fun node =>
        { node with parent := old.parent, left := some li, right := old.right, black := old.black }
      let r ← r.redirect old.parent n (some succ)
      let r ← r.setParent li (some succ)
      r.adopt old.right (some succ)) fun r' =>
        r'.Focus path (.node b l succ right) ∧
          Touches (succ :: (path.fill (.node b l n right)).inorder) r r' := by
  obtain ⟨hnd, hpnd, hd⟩ := h.nodes_disjoint
  obtain ⟨hp, ⟨⟨e, he⟩, hl', hr⟩, hall⟩ := h
  simp only [Shape.inorder, List.mem_append, List.mem_cons] at hd
  simp only [Shape.inorder, List.nodup_append, List.nodup_cons, List.mem_cons] at hnd
  rw [(Path.inorder_fill_perm path _).mem_iff] at hsucc
  simp only [Shape.inorder, List.mem_append, List.mem_cons, not_or] at hsucc
  have hli : li ∈ l.inorder := Shape.root?_mem hl
  have hlt' := hl'.lt_size hli
  have hroot : ∀ i, right.root? = some i → i ∈ right.inorder := fun i => Shape.root?_mem
  have hpar : ∀ i, path.parent = some i → i ∈ path.indices := fun i => Path.parent_mem
  obtain ⟨es, hes⟩ : ∃ m : Node α, r.arena[succ]? = some m := ⟨_, Array.getElem?_eq_getElem hlt⟩
  simp only [node_eq he, ok_bind]
  rw [update_eq hlt, ok_bind, redirect_eq (r := r.retouch _) (hp.frame ?_) (hd n (by simp)),
    ok_bind, setParent_eq (by simpa using hlt'), ok_bind,
    adopt_eq (by simpa using fun i hi => hr.lt_size (hroot i hi))]
  · simp only [retouch, rehang, Arena.retouch_retouch]
    refine .intro rfl ⟨⟨?_, ⟨⟨es.elem, ?_⟩, ?_, ?_⟩, ?_⟩, ?_⟩
    · apply hp.plug hpnd
      intro i hi
      have hi' : i ≠ succ ∧ i ≠ li ∧ right.root? ≠ some i := by grind
      rw [getElem?_retouch]
      congr 1
      funext m
      simp [touch, touchLinked, hi']
    · have hs' : succ ≠ li ∧ right.root? ≠ some succ ∧ path.parent ≠ some succ := by grind
      simp [hes, touch, touchLinked, hs', hang_of_ne hs'.2.2, hl]
    · apply hl'.reparent (by grind)
      intro i hi
      have hi' : i ≠ succ ∧ right.root? ≠ some i ∧ path.parent ≠ some i := by grind
      have hlink : l.root? = some i ↔ i = li := by rw [hl, Option.some_inj, eq_comm]
      rw [getElem?_retouch]
      congr 1
      funext m
      simp [touch, touchLinked, hi', hang_of_ne hi'.2.2, hlink]
    · apply hr.reparent (by grind)
      intro i hi
      have hi' : i ≠ succ ∧ i ≠ li ∧ path.parent ≠ some i := by grind
      rw [getElem?_retouch]
      congr 1
      funext m
      simp [touch, touchLinked, hi', hang_of_ne hi'.2.2]
    · simp only [Shape.inorder, List.nodup_append, List.nodup_cons, List.mem_append,
        List.mem_cons] at hall ⊢
      grind
    · apply touches_retouch r _
      · intro i m
        simp only [touch, touchLinked]
        split <;> split <;> simp <;> split <;> rfl
      · intro i hi m
        simp only [List.mem_cons, (Path.inorder_fill_perm path _).mem_iff, Shape.inorder,
          List.mem_append, not_or] at hi
        have hi' : i ≠ succ ∧ i ≠ li ∧ right.root? ≠ some i ∧ path.parent ≠ some i := by grind
        simp [touch, touchLinked, hi', hang_of_ne hi'.2.2.2]
  · intro i hi
    have his : i ≠ succ := by grind
    exact getElem?_retouch_fixed _ fun m => by simp [touch, his]

structure TakenOut (r : Rooted α) (t : Shape) (n : Nat) (out : Rooted α × Deficit) (up : Path)
    (c : Shape) : Prop where
  focus : out.1.Focus up c
  child : out.2.child = c.root?
  parent : out.2.parent = up.parent
  gap : up.Gap out.2.black c
  inorder : (up.fill c).inorder = t.inorder.erase n
  touches : Touches t.inorder r out.1

theorem spliceOut_spec {k : Nat} (h : r.Focus path (.join s b n .leaf c))
    (hb : (path.fill (.join s b n .leaf c)).Balanced true k) :
    Yields (r.spliceOut n c.root?) fun out =>
      ∃ up c', r.TakenOut (path.fill (.join s b n .leaf c)) n out up c' := by
  have hnd := (focus_fill.1 h).nodes_disjoint.1
  have herase := Path.inorder_fill_erase hnd
  obtain ⟨⟨e, he⟩, -⟩ := holds_join.1 h.below
  have hsplice := h.splice
  simp only [spliceOut, node_eq he, ok_bind, Node.joined_parent, ← bind_assoc] at hsplice ⊢
  apply hsplice.bind
  intro r₁ h₁
  have hn : n ∉ (path.fill c).inorder := by
    rw [← herase]
    exact hnd.not_mem_erase
  have hsame := h₁.touches.other n hn
  simp only [node_eq (hsame.trans he), ok_bind, Node.joined_black]
  refine .intro rfl ⟨path, c, h₁.focus, rfl, rfl, Path.Gap.of_fill hb, herase.symm, ?_⟩
  exact h₁.touches.mono (herase ▸ List.erase_subset)

theorem swapOut_spec {k li ri : Nat} (h : r.Focus path (.node b l n right))
    (hb : (path.fill (.node b l n right)).Balanced true k) (hl : l.root? = some li)
    (hr : right.root? = some ri) :
    Yields (r.swapOut n li ri) fun out =>
      ∃ up c', r.TakenOut (path.fill (.node b l n right)) n out up c' := by
  have hnd := (focus_fill.1 h).nodes_disjoint.1
  have hlen := h.length_le
  have hheight := right.height_le_length
  simp only [Shape.inorder, List.length_append, List.length_cons] at hlen
  have hfuel : right.height ≤ r.arena.size + 1 := by omega
  obtain ⟨q, bs, succ, rs, rfl, hside, hext⟩ := extremeFrom_spec .left h.below.2.2 hr hfuel
  have hup : (q ++ ⟨.right, b, n, l⟩ :: path : Path).fill (.join .left bs succ .leaf rs) =
      path.fill (.node b l n (q.fill (.join .left bs succ .leaf rs))) := Path.fill_append ..
  have hfs : r.Focus (q ++ ⟨.right, b, n, l⟩ :: path) (.join .left bs succ .leaf rs) :=
    focus_append.2 (focus_cons.2 h)
  obtain ⟨⟨e, he⟩, -⟩ := holds_join.1 hfs.below
  rw [← hup] at hnd hb ⊢
  have herase := Path.inorder_fill_erase hnd
  have hsucc : succ ∉ ((q ++ ⟨.right, b, n, l⟩ :: path : Path).fill rs).inorder := by
    rw [← herase]
    exact hnd.not_mem_erase
  simp only [swapOut, hext, node_eq he, ok_bind, Node.joined]
  rw [← bind_assoc]
  apply hfs.splice.bind
  intro r₁ h₁
  have hf₁ : r₁.Focus path (.node b l n (q.fill rs)) := focus_cons.1 (focus_append.1 h₁.focus)
  rw [Path.fill_append] at hsucc
  have hlt : succ < r₁.arena.size := by
    rw [h₁.touches.size]
    exact (Array.getElem?_eq_some_iff.1 he).1
  have hsup := hf₁.supplant hl hlt hsucc
  simp only [← bind_assoc] at hsup ⊢
  apply hsup.bind
  intro r₂ h₂
  have hf₂ : r₂.Focus (q ++ ⟨.right, b, succ, l⟩ :: path) rs :=
    focus_append.2 (focus_cons.2 h₂.1)
  have hd := hfs.nodes_disjoint.2.1
  simp only [Path.indices_append, Path.indices, List.cons_append, List.nodup_append] at hd
  have hnq : n ∉ q.indices := fun hn => hd.2.2 n hn n (by simp) rfl
  refine .intro rfl ⟨_, rs, hf₂, rfl, Path.parent_rename hnq, (Path.Gap.of_fill hb).rename succ,
    ?_, ?_⟩
  · exact Path.inorder_swap hside hnd
  · have hsub : ((q ++ ⟨.right, b, n, l⟩ :: path : Path).fill rs).inorder ⊆
        ((q ++ ⟨.right, b, n, l⟩ :: path : Path).fill (.join .left bs succ .leaf rs)).inorder := by
      rw [← herase]
      exact List.erase_subset
    refine (h₁.touches.mono hsub).trans (h₂.2.mono (List.cons_subset.2 ⟨?_, ?_⟩))
    · simp [Path.inorder_fill]
    · rwa [Path.fill_append] at hsub

section TakenOut

variable {t : Shape} {out : Rooted α × Deficit} {up : Path} (h : r.TakenOut t n out up c)
  (hnd : t.inorder.Nodup) (hmem : n ∈ t.inorder) (hlt : n < r.arena.size)

include h hnd hmem hlt

theorem TakenOut.unlink {r₁ : Rooted α} {t₁ : Shape} {k : Nat}
    (h₁ : Stage out.1 (up.fill c).inorder r₁ [] t₁) (ht₁ : t₁.Balanced true k) :
    Yields (r₁.update n Node.unlinked) fun r' =>
      ∃ t' k', r'.Focus [] t' ∧ t'.Balanced true k' ∧ t'.inorder = t.inorder.erase n ∧
        Touches t.inorder r r' := by
  have hin : t₁.inorder = t.inorder.erase n := h₁.inorder.trans h.inorder
  have hn : n ∉ t₁.inorder := hin ▸ hnd.not_mem_erase
  have hlt₁ : n < r₁.arena.size := by
    rw [h₁.touches.size, h.touches.size]
    exact hlt
  have hother : ∀ i : Nat, i ≠ n →
      (r₁.arena.retouch (touch n Node.unlinked))[i]? = r₁.arena[i]? := fun i hi =>
    getElem?_retouch_fixed _ fun m => by simp [touch, hi]
  refine .intro (update_eq hlt₁ _) ⟨t₁, k, ⟨h₁.focus.around, ?_, h₁.focus.nodup⟩, ht₁, hin, ?_⟩
  · apply h₁.focus.below.frame
    exact fun i hi => hother i fun heq => hn (heq ▸ hi)
  · have hsub : (up.fill c).inorder ⊆ t.inorder := by
      rw [h.inorder]
      exact List.erase_subset
    apply (h.touches.trans (h₁.touches.mono hsub)).trans (touches_retouch _ _ ?_ ?_)
    · intro i m
      simp only [touch]
      split <;> rfl
    · intro i hi m
      have hin : i ≠ n := fun heq => hi (heq ▸ hmem)
      simp [touch, hin]

theorem TakenOut.settle :
    Yields (if out.2.black then do
        let r ← settleBlack (repairSteps out.1.arena.size) out.1 out.2.parent out.2.child
        r.update n Node.unlinked
      else do
        let r ← pure out.1
        r.update n Node.unlinked) fun r' =>
      ∃ t' k', r'.Focus [] t' ∧ t'.Balanced true k' ∧ t'.inorder = t.inorder.erase n ∧
        Touches t.inorder r r' := by
  have hg := h.gap
  cases hb : out.2.black with
  | false =>
    rw [hb] at hg
    obtain ⟨k, hk⟩ := hg.1.fill hg.2
    exact h.unlink hnd hmem hlt ⟨focus_fill.1 h.focus, rfl, .refl _ _⟩ hk
  | true =>
    rw [hb] at hg
    obtain ⟨hup, c₀, hc⟩ := hg
    simp only [if_true, h.child, h.parent]
    have hlen : up.length + 1 < repairSteps out.1.arena.size := by
      have hle := up.length_le_indices
      have hsize := h.focus.length_le
      have hsteps := succ_lt_repairSteps out.1.arena.size
      omega
    apply (settleBlack_spec h.focus.stage hc hup hlen).bind
    intro r₁ hr₁
    obtain ⟨t₁, k, h₁, ht₁⟩ := hr₁
    exact h.unlink hnd hmem hlt h₁ ht₁

end TakenOut

/-- Removing a node of a red-black tree leaves a red-black tree of the other nodes. -/
theorem remove_spec {t : Shape} {k : Nat} (h : r.Focus [] t) (ht : t.Balanced true k)
    (hn : n ∈ t.inorder) :
    Yields (r.remove n) fun r' =>
      ∃ t' k', r'.Focus [] t' ∧ t'.Balanced true k' ∧ t'.inorder = t.inorder.erase n ∧
        Touches t.inorder r r' := by
  have hnd := h.nodes_disjoint.1
  have hlt := h.below.lt_size hn
  obtain ⟨path, b, l, right, rfl⟩ := Shape.exists_path hn
  have hf := focus_fill.2 h
  obtain ⟨⟨e, he⟩, -⟩ := hf.below
  simp only [remove, node_eq he, ok_bind]
  cases hl : l.root? with
  | none =>
    rw [Shape.root?_eq_none] at hl
    subst hl
    apply (spliceOut_spec (s := .left) hf ht).bind
    intro out hup
    obtain ⟨up, c, h₁⟩ := hup
    exact h₁.settle hnd hn hlt
  | some li =>
    cases hr : right.root? with
    | none =>
      rw [Shape.root?_eq_none] at hr
      subst hr
      have hspec := spliceOut_spec (s := .right) hf ht
      rw [hl] at hspec
      apply hspec.bind
      intro out hup
      obtain ⟨up, c, h₁⟩ := hup
      exact h₁.settle hnd hn hlt
    | some ri =>
      apply (swapOut_spec hf ht hl hr).bind
      intro out hup
      obtain ⟨up, c, h₁⟩ := hup
      exact h₁.settle hnd hn hlt

theorem remove_unlinks {r' : Rooted α} (h : r.remove n = .ok r') :
    ∃ m : Node α, r'.arena[n]? = some m.unlinked := by
  have hlast : ∀ {r₁ : Rooted α}, r₁.update n Node.unlinked = .ok r' →
      ∃ m : Node α, r'.arena[n]? = some m.unlinked := by
    intro r₁ hr
    obtain ⟨a, ha, hr⟩ := bind_eq_ok.1 hr
    cases hr
    obtain ⟨m, hm, rfl⟩ := update_eq_ok.1 ha
    obtain ⟨hlt, -⟩ := Array.getElem?_eq_some_iff.1 hm
    exact ⟨m, Array.getElem?_setIfInBounds_self_of_lt hlt⟩
  obtain ⟨node, -, h⟩ := bind_eq_ok.1 h
  dsimp only at h
  split at h
  all_goals
    obtain ⟨out, -, h⟩ := bind_eq_ok.1 h
    split at h
    all_goals
      obtain ⟨r₁, -, h⟩ := bind_eq_ok.1 h
      exact hlast h

/-- A node of a red-black tree can be removed, whatever the elements are: the other nodes form a
red-black tree in the same order, the node has no links, and neither elements nor nodes outside of
the tree have changed. -/
theorem remove_isRedBlack {nodes : List Nat} (h : r.IsRedBlack nodes) (hn : n ∈ nodes) :
    ∃ r', r.remove n = .ok r' ∧ r'.IsRedBlack (nodes.erase n) ∧
      (∃ black e, r'.arena[n]? = some ⟨none, none, none, black, e⟩) ∧
      r'.arena.size = r.arena.size ∧
      (∀ i : Nat, r'.arena[i]?.map Node.elem = r.arena[i]?.map Node.elem) ∧
      ∀ i : Nat, i ∉ nodes → r'.arena[i]? = r.arena[i]? := by
  obtain ⟨t, k, hf, ht, rfl⟩ := h
  obtain ⟨r', hr', t', k', hf', ht', hin, htouch⟩ := remove_spec hf ht hn
  obtain ⟨m, hm⟩ := remove_unlinks hr'
  exact ⟨r', hr', ⟨t', k', hf', ht', hin⟩, ⟨m.black, m.elem, hm⟩, htouch.size, htouch.elem,
    htouch.other⟩

/-- The root of a tree of black nodes only goes, so that the gap climbs up to the new root. -/
theorem remove_isRedBlack_of_black_nodes :
    let node (p l r : Option Nat) : Node Nat := ⟨p, l, r, true, 0⟩
    let r : Rooted Nat := ⟨#[node (some 1) none none, node (some 3) (some 0) (some 2),
      node (some 1) none none, node none (some 1) (some 5), node (some 5) none none,
      node (some 3) (some 4) (some 6), node (some 5) none none], some 3⟩
    r.IsRedBlack [0, 1, 2, 3, 4, 5, 6] ∧ 3 ∈ [0, 1, 2, 3, 4, 5, 6] ∧
      ∃ r', r.remove 3 = .ok r' ∧ r'.IsRedBlack [0, 1, 2, 4, 5, 6] := by
  intro node r
  have hleaf : ∀ i, (Shape.node true .leaf i .leaf).Balanced true 1 := fun i => .black .leaf .leaf
  have h : r.IsRedBlack [0, 1, 2, 3, 4, 5, 6] := by
    refine ⟨.node true (.node true (.node true .leaf 0 .leaf) 1 (.node true .leaf 2 .leaf)) 3
      (.node true (.node true .leaf 4 .leaf) 5 (.node true .leaf 6 .leaf)), 3, ⟨rfl, ?_, ?_⟩, ?_,
      rfl⟩
    · refine ⟨⟨0, rfl⟩, ⟨⟨0, rfl⟩, ?_, ?_⟩, ⟨0, rfl⟩, ?_, ?_⟩
      all_goals exact ⟨⟨0, rfl⟩, trivial, trivial⟩
    · decide
    · exact .black (.black (hleaf 0) (hleaf 2)) (.black (hleaf 4) (hleaf 6))
  obtain ⟨r', hr', hrest, -⟩ := remove_isRedBlack h (n := 3) (by decide)
  exact ⟨h, by decide, r', hr', hrest⟩

end Rooted

end InstanceTree.RedBlack
