import Mathlib.Data.List.DropRight
import InstanceTree.Proofs.RedBlack.Insertion
import InstanceTree.Proofs.RedBlack.Traversal

namespace InstanceTree.RedBlack

variable {α : Type}

/-- On the elements in `S` a comparison meets no fault and answers like `c`, which is a total
preorder there. -/
structure Comparator.Sorts (cmp : Comparator α) (c : α → α → Ordering) (S : α → Prop) : Prop where
  eq_ok : ∀ {x y : α}, S x → S y → cmp x y = .ok (c x y)
  swap : ∀ {x y : α}, S x → S y → c y x = (c x y).swap
  trans : ∀ {x y z : α}, S x → S y → S z → c x y ≠ .gt → c y z ≠ .gt → c x z ≠ .gt

namespace Comparator.Sorts

variable {cmp : Comparator α} {c : α → α → Ordering} {S : α → Prop} {x y z : α}

theorem refl (h : cmp.Sorts c S) (hx : S x) : c x x = .eq := by
  have hswap := h.swap hx hx
  cases hc : c x x with
  | eq => rfl
  | lt => simp [hc] at hswap
  | gt => simp [hc] at hswap

theorem gt_of_le_of_gt (h : cmp.Sorts c S) (hx : S x) (hy : S y) (hz : S z) (hxy : c x y ≠ .gt)
    (hxz : c x z = .gt) : c y z = .gt := by
  apply Decidable.byContradiction
  intro hyz
  exact h.trans hx hy hz hxy hyz hxz

theorem le_of_gt (h : cmp.Sorts c S) (hx : S x) (hy : S y) (hxy : c x y = .gt) : c y x ≠ .gt := by
  rw [h.swap hx hy, hxy]
  decide

theorem eq_of_le_of_le (h : cmp.Sorts c S) (hx : S x) (hy : S y) (hxy : c x y ≠ .gt)
    (hyx : c y x ≠ .gt) : c x y = .eq := by
  rw [h.swap hx hy] at hyx
  cases hc : c x y <;> simp_all

theorem eq_of_between (h : cmp.Sorts c S) (hx : S x) (hy : S y) (hz : S z) (hxz : c x z = .eq)
    (hbetween : (c x y ≠ .gt ∧ c y z ≠ .gt) ∨ (c z y ≠ .gt ∧ c y x ≠ .gt)) : c y z = .eq := by
  have hzx : c z x = .eq := by
    rw [h.swap hx hz, hxz]
    rfl
  rcases hbetween with ⟨hxy, hyz⟩ | ⟨hzy, hyx⟩
  · exact h.eq_of_le_of_le hy hz hyz (h.trans hz hx hy (by simp [hzx]) hxy)
  · exact h.eq_of_le_of_le hy hz (h.trans hy hx hz hyx (by simp [hxz])) hzy

end Comparator.Sorts

theorem Comparator.always_sorts (c : α → α → Ordering) [Std.TransCmp c] :
    (always c).Sorts c fun _ => True := by
  refine ⟨fun _ _ => rfl, fun _ _ => Std.OrientedCmp.eq_swap, ?_⟩
  intro x y z _ _ _ hxy hyz
  exact Ordering.isLE_iff_ne_gt.1 (Std.TransCmp.isLE_trans (Ordering.isLE_iff_ne_gt.2 hxy)
    (Ordering.isLE_iff_ne_gt.2 hyz))

namespace Arena

def Ascending (a : Arena α) (c : α → α → Ordering) (nodes : List Nat) : Prop :=
  nodes.Pairwise fun i j => ∀ m n : Node α, a[i]? = some m → a[j]? = some n →
    c m.elem n.elem ≠ .gt

def Rising (a : Arena α) (c : α → α → Ordering) (nodes : List Nat) : Prop :=
  nodes.IsChain fun i j => ∀ m n : Node α, a[i]? = some m → a[j]? = some n →
    c m.elem n.elem ≠ .gt

def Within (a : Arena α) (S : α → Prop) (nodes : List Nat) : Prop :=
  ∀ i ∈ nodes, ∀ n : Node α, a[i]? = some n → S n.elem

theorem Rising.ascending {a : Arena α} {cmp : Comparator α} {c : α → α → Ordering} {S : α → Prop}
    {nodes : List Nat} (h : a.Rising c nodes) (hs : cmp.Sorts c S) (hin : a.Within S nodes)
    (hlt : ∀ i ∈ nodes, i < a.size) : a.Ascending c nodes := by
  induction nodes with
  | nil => exact .nil
  | cons i nodes ih =>
    have hrest : a.Ascending c nodes := ih h.of_cons (fun j hj => hin j (by simp [hj]))
      fun j hj => hlt j (by simp [hj])
    refine List.pairwise_cons.2 ⟨?_, hrest⟩
    cases nodes with
    | nil => simp
    | cons k nodes =>
      intro j hj m n hm hn
      have hk := Array.getElem?_eq_getElem (hlt k (by simp))
      have hik := (List.isChain_cons_cons.1 h).1 m _ hm hk
      rcases List.mem_cons.1 hj with rfl | hj
      · cases hk.symm.trans hn
        exact hik
      · have hkj := (List.pairwise_cons.1 hrest).1 j hj _ n hk hn
        exact hs.trans (hin i (by simp) m hm) (hin k (by simp) _ hk) (hin j (by simp [hj]) n hn)
          hik hkj

theorem ascending_iff {a : Arena α} {c : α → α → Ordering} {nodes : List Nat} :
    a.Ascending c nodes ↔ (a.entries nodes).Pairwise fun x y => c x.2 y.2 ≠ .gt := by
  rw [entries, List.pairwise_filterMap, Ascending]
  have hrel : ∀ i j : Nat, (∀ m n : Node α, a[i]? = some m → a[j]? = some n →
      c m.elem n.elem ≠ .gt) ↔
      ∀ x, a[i]?.map (fun n => (i, n.elem)) = some x →
        ∀ y, a[j]?.map (fun n => (j, n.elem)) = some y → c x.2 y.2 ≠ .gt := by
    intro i j
    simp only [Option.map_eq_some_iff, forall_exists_index, and_imp]
    constructor
    · rintro h x m hm rfl y n hn rfl
      exact h m n hm hn
    · intro h m n hm hn
      exact h _ m hm rfl _ n hn rfl
  exact ⟨fun h => h.imp fun {i j} => (hrel i j).1, fun h => h.imp fun {i j} => (hrel i j).2⟩

theorem within_iff {a : Arena α} {S : α → Prop} {nodes : List Nat} :
    a.Within S nodes ↔ ∀ x ∈ a.entries nodes, S x.2 := by
  simp only [Within, entries, List.mem_filterMap, Option.map_eq_some_iff, forall_exists_index,
    and_imp]
  constructor
  · intro h x i hi n hn heq
    subst heq
    exact h i hi n hn
  · intro h i hi n hn
    exact h _ i hi n hn rfl

end Arena

namespace Path.Directed

open Arena

variable {a : Arena α} {cmp : Comparator α} {c : α → α → Ordering} {S : α → Prop} {e : α}
  {p : Path} {t : Shape}

/-- What stands beyond a place that the comparisons with `e` lead to compares with `e` as the
nodes on the way there. -/
theorem beyond (hd : p.Directed cmp a e) (hs : cmp.Sorts c S) (he : S e)
    (hin : a.Within S (p.fill t).inorder) (hasc : a.Ascending c (p.fill t).inorder) (s : Side) :
    ∀ i ∈ p.beyond s, ∀ n, a[i]? = some n →
      if s = .left then c n.elem e ≠ .gt else c n.elem e = .gt := by
  induction p generalizing t with
  | nil => simp [Path.beyond]
  | cons turn up ih =>
    obtain ⟨side, b, i, other⟩ := turn
    obtain ⟨here, o, hhere, ho, hside⟩ := hd ⟨side, b, i, other⟩ (by simp)
    have hup := ih (t := .join side b i t other) (fun turn hturn => hd turn (by simp [hturn]))
      hin hasc
    have hjoin : ∀ j, j = i ∨ j ∈ other.inorder →
        j ∈ (Path.fill (⟨side, b, i, other⟩ :: up) t).inorder := by
      intro j hj
      rw [Path.fill, Path.inorder_fill]
      simp only [List.mem_append, Shape.mem_inorder_join]
      tauto
    have hi : S here.elem := hin i (hjoin i (.inl rfl)) here hhere
    rw [hs.eq_ok hi he] at ho
    cases ho
    rw [Path.fill, Path.inorder_fill, Ascending, List.pairwise_append, List.pairwise_append] at hasc
    obtain ⟨⟨-, hasc, -⟩, -, -⟩ := hasc
    have haside : ∀ j, j = i ∨ j ∈ other.inorder → ∀ n, a[j]? = some n →
        if side = .left then c n.elem e = .gt else c n.elem e ≠ .gt := by
      intro j hj n hn
      have hSn := hin j (hjoin j hj) n hn
      rcases hj with rfl | hj
      · cases hhere.symm.trans hn
        cases side <;> simp_all
      · cases side with
        | left =>
          have hgt : c here.elem e = .gt := by simpa using hside
          simp only [Shape.join, Shape.inorder, List.pairwise_append, List.pairwise_cons] at hasc
          exact hs.gt_of_le_of_gt hi hSn he (hasc.2.1.1 j hj here n hhere hn) hgt
        | right =>
          have hle : c here.elem e ≠ .gt := by simpa using hside
          simp only [Shape.join, Shape.inorder, List.pairwise_append, List.mem_cons] at hasc
          exact hs.trans hSn hi he (hasc.2.2 j hj i (.inl rfl) n here hn hhere) hle
    intro j hj n hn
    rw [Path.beyond] at hj
    split at hj
    · exact hup j hj n hn
    · simp only [List.cons_append, List.mem_cons, List.mem_append, Shape.mem_order,
        ← or_assoc] at hj
      rcases hj with hj | hj
      · have := haside j hj n hn
        cases side <;> cases s <;> simp_all
      · exact hup j hj n hn

end Path.Directed

/-- The list with `x` put right after the last element that is not late. -/
def stably {β : Type} (late : β → Bool) (x : β) (l : List β) : List β :=
  l.rdropWhile late ++ x :: l.rtakeWhile late

theorem stably_append {β : Type} {late : β → Bool} {x : β} {xs ys : List β}
    (hxs : ∀ y ∈ xs, late y = false) (hys : ∀ y ∈ ys, late y = true) :
    stably late x (xs ++ ys) = xs ++ x :: ys := by
  have hys' : ys.reverse.dropWhile late = [] ∧ ys.reverse.takeWhile late = ys.reverse := by
    simpa using hys
  have hxs' : xs.reverse.dropWhile late = xs.reverse ∧ xs.reverse.takeWhile late = [] := by
    cases hr : xs.reverse with
    | nil => simp
    | cons y l =>
      have hy : late y = false := hxs y (by rw [← List.mem_reverse, hr]; simp)
      simp [hy]
  simp [stably, List.rdropWhile, List.rtakeWhile, List.dropWhile_append, List.takeWhile_append,
    hys', hxs']

theorem stably_perm {β : Type} (late : β → Bool) (x : β) (l : List β) :
    (stably late x l).Perm (x :: l) := by
  have hsplit : l.rdropWhile late ++ l.rtakeWhile late = l := List.rdropWhile_append_rtakeWhile
  have hperm : (stably late x l).Perm (x :: (l.rdropWhile late ++ l.rtakeWhile late)) :=
    List.perm_middle
  rwa [hsplit] at hperm

theorem Comparator.Sorts.stably_split {cmp : Comparator α} {c : α → α → Ordering}
    {S : α → Prop} {es : List (Nat × α)} {e : α} (hs : cmp.Sorts c S) (he : S e)
    (hin : ∀ x ∈ es, S x.2) (hasc : es.Pairwise fun x y => c x.2 y.2 ≠ .gt) (n : Nat) :
    ∃ xs ys, es = xs ++ ys ∧ stably (fun x => (c x.2 e).isGT) (n, e) es = xs ++ (n, e) :: ys ∧
      (∀ x ∈ xs, c x.2 e ≠ .gt) ∧ ∀ y ∈ ys, c y.2 e = .gt := by
  obtain ⟨xs, hxs⟩ : ∃ xs, xs = es.rdropWhile fun x => (c x.2 e).isGT := ⟨_, rfl⟩
  obtain ⟨ys, hys⟩ : ∃ ys, ys = es.rtakeWhile fun x => (c x.2 e).isGT := ⟨_, rfl⟩
  have hes : es = xs ++ ys := by
    rw [hxs, hys]
    exact List.rdropWhile_append_rtakeWhile.symm
  refine ⟨xs, ys, hes, by rw [stably, hxs, hys], ?_, ?_⟩
  · intro x hx
    have hne := List.ne_nil_of_mem hx
    have hlast := List.rdropWhile_last_not (fun x : Nat × α => (c x.2 e).isGT) es (hxs ▸ hne)
    simp only [← hxs, Ordering.isGT_iff_eq_gt] at hlast
    have hsub : ∀ y ∈ xs, y ∈ es := fun y hy => hes ▸ List.mem_append_left ys hy
    have hmem := List.getLast_mem hne
    rw [hes, List.pairwise_append, ← List.dropLast_append_getLast hne, List.pairwise_append] at hasc
    rw [← List.dropLast_append_getLast hne, List.mem_append, List.mem_singleton] at hx
    rcases hx with hx | rfl
    · have hle := hasc.1.2.2 x hx _ (List.mem_singleton.2 rfl)
      exact hs.trans (hin x (hsub x ((List.dropLast_sublist xs).subset hx)))
        (hin _ (hsub _ hmem)) he hle hlast
    · exact hlast
  · intro y hy
    rw [hys] at hy
    simpa using List.mem_rtakeWhile_imp hy

namespace Rooted

open Arena

variable {r : Rooted α} {t : Shape} {k n : Nat} {new : Node α} {cmp : Comparator α}
  {c : α → α → Ordering} {S : α → Prop}

/-- A comparison that sorts the elements of a tree puts a new one after all that are not
greater. -/
theorem insert_sorted (h : r.Focus [] t) (ht : t.Balanced true k)
    (hnew : r.arena[n]? = some new) (hn : n ∉ t.inorder) (hs : cmp.Sorts c S)
    (he : S new.elem) (hin : r.arena.Within S t.inorder) (hasc : r.arena.Ascending c t.inorder) :
    Yields (r.insert cmp n) fun r' =>
      ∃ t' k', r'.Focus [] t' ∧ t'.Balanced true k' ∧
        r'.arena.entries t'.inorder = stably (fun x => (c x.2 new.elem).isGT) (n, new.elem)
          (r.arena.entries t.inorder) ∧
        t'.inorder.Perm (n :: t.inorder) ∧ Touches t'.inorder r r' := by
  refine (insert_spec h ht hnew hn ?_).mono ?_
  · intro i hi here hhere
    exact ⟨_, hs.eq_ok (hin i hi here hhere) he⟩
  · intro r' hr'
    obtain ⟨p, t', k', rfl, hd, hf, ht', horder, htouch⟩ := hr'
    refine ⟨t', k', hf, ht', ?_, ?_, htouch⟩
    · rw [htouch.entries, horder, Path.inorder_fill_leaf]
      simp only [Arena.entries, List.filterMap_append]
      rw [stably_append]
      · rw [List.filterMap_cons]
        simp [hnew]
      · intro x hx
        have hleft := hd.beyond hs he hin hasc .left
        simp only [List.filterMap_reverse, List.mem_reverse] at hx
        have hle : c x.2 new.elem ≠ .gt :=
          within_iff (S := fun x => c x new.elem ≠ .gt).1 (by simpa [Within] using hleft) x hx
        cases hc : c x.2 new.elem <;> simp_all
      · intro x hx
        have hright := hd.beyond hs he hin hasc .right
        have hgt : c x.2 new.elem = .gt :=
          within_iff (S := fun x => c x new.elem = .gt).1 (by simpa [Within] using hright) x hx
        rw [hgt]
        rfl
    · rw [horder, Path.inorder_fill_leaf]
      exact List.perm_middle

end Rooted

end InstanceTree.RedBlack
