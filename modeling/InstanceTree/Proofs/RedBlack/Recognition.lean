import InstanceTree.Proofs.RedBlack.Verdict

namespace InstanceTree.RedBlack

open Arena

variable {α : Type}

namespace Arena

def Hangs (a : Arena α) (child : Nat) (s : Side) (i : Nat) : Prop :=
  ∃ n : Node α, a[i]? = some n ∧ n.child s = some child

/-- The nodes that links to children lead to from a root on. -/
inductive Reaches (a : Arena α) (root : Option Nat) : Nat → Prop
  | root {i : Nat} : root = some i → Reaches a root i
  | child {i j : Nat} {s : Side} : Reaches a root i → a.Hangs j s i → Reaches a root j

/-- The links from a root on form a binary tree: the root has no parent, and every other node is
a child of one node, on one side, and names that node as its parent. -/
structure IsProper (a : Arena α) (root : Option Nat) : Prop where
  top : ∀ i, root = some i → ∃ n : Node α, a[i]? = some n ∧ n.parent = none
  named : ∀ {i j : Nat} {s : Side}, a.Reaches root i → a.Hangs j s i →
    ∃ n : Node α, a[j]? = some n ∧ n.parent = some i
  once : ∀ {i i' j : Nat} {s s' : Side}, a.Reaches root i → a.Reaches root i' →
    a.Hangs j s i → a.Hangs j s' i' → i = i' ∧ s = s'

/-- A way down from a link to a missing child meets a number of black nodes. -/
inductive Descent (a : Arena α) : Option Nat → Nat → Prop
  | done : Descent a none 0
  | down {i k : Nat} {n : Node α} (s : Side) : a[i]? = some n → Descent a (n.child s) k →
      Descent a (some i) (if n.black then k + 1 else k)

/-- The nodes below a link, those below the left link of a node before it and those below its
right link behind it. -/
inductive Lists (a : Arena α) : Option Nat → List Nat → Prop
  | done : Lists a none []
  | node {i : Nat} {n : Node α} {l r : List Nat} : a[i]? = some n → Lists a n.left l →
      Lists a n.right r → Lists a (some i) (l ++ i :: r)

def RedAboveBlack (a : Arena α) (i : Nat) : Prop :=
  ∀ (j : Nat) (s : Side) (n m : Node α), a.Hangs j s i → a[i]? = some n → a[j]? = some m →
    n.black = false → m.black = true

/-- The links from a root on form a red-black tree with `blacks` black nodes on each way down, in
which no element is greater than the next one. -/
structure IsRedBlackTree (a : Arena α) (c : α → α → Ordering) (root : Option Nat) (blacks : Nat) :
    Prop extends IsProper a root where
  black_root : ∀ i, root = some i → ∀ n : Node α, a[i]? = some n → n.black = true
  red_above_black : ∀ i, a.Reaches root i → a.RedAboveBlack i
  descents : ∀ k, a.Descent root k → k = blacks
  rising : ∃ nodes, a.Lists root nodes ∧ a.Rising c nodes

/-- No node that is reached has the same child on both sides. -/
def OneSided (a : Arena α) (root : Option Nat) : Prop :=
  ∀ i j, a.Reaches root i → a.Hangs j .left i → ¬ a.Hangs j .right i

theorem IsProper.oneSided {a : Arena α} {root : Option Nat} (h : a.IsProper root) :
    a.OneSided root := fun _ _ hi hl hr => Side.noConfusion (h.once hi hi hl hr).2

variable {a : Arena α} {p : Option Nat} {t : Shape}

theorem hangs_iff {i j : Nat} {n : Node α} (hn : a[i]? = some n) {s : Side} :
    a.Hangs j s i ↔ n.child s = some j := by
  constructor
  · intro h
    obtain ⟨m, hm, hj⟩ := h
    cases hn.symm.trans hm
    exact hj
  · intro hj
    exact ⟨n, hn, hj⟩

/-- Links that name their parents unfold to a tree. -/
theorem IsProper.exists_shape {root : Option Nat} (h : a.IsProper root) {up : List Nat}
    {link : Option Nat} (hup : a.Lineage p up)
    (hlink : ∀ i, link = some i → a.Reaches root i ∧ ∃ n : Node α, a[i]? = some n ∧ n.parent = p)
    {depth : Nat} (hdepth : a.size < up.length + depth) :
    ∃ t : Shape, t.root? = link ∧ a.Holds p t := by
  induction depth generalizing up p link with
  | zero =>
    have hlen := hup.length_le
    omega
  | succ depth ih =>
    cases link with
    | none => exact ⟨.leaf, rfl, trivial⟩
    | some i =>
      obtain ⟨hi, n, hn, rfl⟩ := hlink i rfl
      have hup' : a.Lineage (some i) (i :: up) := .up hn hup
      have hdepth' : a.size < (i :: up).length + depth := by
        simp only [List.length_cons]
        omega
      have hbelow : ∀ s j, n.child s = some j →
          a.Reaches root j ∧ ∃ m : Node α, a[j]? = some m ∧ m.parent = some i := by
        intro s j hj
        have hhangs := (hangs_iff hn).2 hj
        exact ⟨.child hi hhangs, h.named hi hhangs⟩
      obtain ⟨l, hlroot, hl⟩ := ih hup' (hbelow .left) hdepth'
      obtain ⟨r, hrroot, hr⟩ := ih hup' (hbelow .right) hdepth'
      have hlroot : l.root? = n.left := hlroot
      have hrroot : r.root? = n.right := hrroot
      exact ⟨.node n.black l i r, rfl, ⟨⟨n.elem, by rw [hn, hlroot, hrroot]⟩, hl, hr⟩⟩

theorem IsProper.unfolds {root : Option Nat} (h : a.IsProper root) :
    ∃ t : Shape, (⟨a, root⟩ : Rooted α).Unfolds [] t := by
  have hlink : ∀ i, root = some i →
      a.Reaches root i ∧ ∃ n : Node α, a[i]? = some n ∧ n.parent = none := fun i hi =>
    ⟨.root hi, h.top i hi⟩
  obtain ⟨t, hroot, ht⟩ := h.exists_shape .top hlink (by simp : a.size < [].length + (a.size + 1))
  exact ⟨t, hroot.symm, ht⟩

theorem Holds.reaches {root : Option Nat} (h : a.Holds p t)
    (hroot : ∀ i, t.root? = some i → a.Reaches root i) : ∀ i ∈ t.inorder, a.Reaches root i := by
  induction t generalizing p with
  | leaf => simp [Shape.inorder]
  | node b l i r ihl ihr =>
    obtain ⟨⟨e, he⟩, hl, hr⟩ := h
    have hi := hroot i rfl
    intro j hj
    simp only [Shape.inorder, List.mem_append, List.mem_cons] at hj
    rcases hj with hj | rfl | hj
    · exact ihl hl (fun k hk => .child hi ((hangs_iff (s := .left) he).2 hk)) j hj
    · exact hi
    · exact ihr hr (fun k hk => .child hi ((hangs_iff (s := .right) he).2 hk)) j hj

theorem Holds.seen_eq (h : a.Holds p t)
    (hside : ∀ i ∈ t.inorder, ∀ j, a.Hangs j .left i → ¬ a.Hangs j .right i) :
    t.seen = t.inorder := by
  induction t generalizing p with
  | leaf => rfl
  | node b l i r ihl ihr =>
    obtain ⟨⟨e, he⟩, hl, hr⟩ := h
    simp only [Shape.inorder, List.forall_mem_append, List.forall_mem_cons] at hside
    have hshared : ¬ l.Shared r := by
      intro hs
      obtain ⟨j, hj⟩ := Option.isSome_iff_exists.1 hs.1
      exact hside.2.1 j ((hangs_iff he).2 hj) ((hangs_iff he).2 (hs.2.symm.trans hj))
    simp only [Shape.seen, if_neg hshared, Shape.inorder, ihl hl hside.1, ihr hr hside.2.2]

theorem Lists.unique {link : Option Nat} {l l' : List Nat} (h : a.Lists link l)
    (h' : a.Lists link l') : l = l' := by
  induction h generalizing l' with
  | done =>
    cases h'
    rfl
  | node hn _ _ ihl ihr =>
    cases h' with
    | node hn' hl hr =>
      cases hn.symm.trans hn'
      rw [ihl hl, ihr hr]

theorem Holds.lists (h : a.Holds p t) : a.Lists t.root? t.inorder := by
  induction t generalizing p with
  | leaf => exact .done
  | node b l i r ihl ihr =>
    obtain ⟨⟨e, he⟩, hl, hr⟩ := h
    exact .node he (ihl hl) (ihr hr)

theorem Holds.exists_descent (h : a.Holds p t) : ∃ k, a.Descent t.root? k := by
  induction t generalizing p with
  | leaf => exact ⟨0, .done⟩
  | node b l i r ihl ihr =>
    obtain ⟨⟨e, he⟩, hl, -⟩ := h
    obtain ⟨k, hk⟩ := ihl hl
    exact ⟨_, .down .left he hk⟩

theorem Holds.descent_eq {c : Bool} {k k' : Nat} (h : a.Holds p t) (ht : t.Balanced c k)
    (hk : a.Descent t.root? k') : k' = k := by
  induction t generalizing p c k k' with
  | leaf =>
    cases ht
    cases hk
    rfl
  | node b l i r ihl ihr =>
    obtain ⟨⟨e, he⟩, hl, hr⟩ := h
    cases hk with
    | @down _ j n s hn hj =>
      cases he.symm.trans hn
      cases ht with
      | red hbl hbr =>
        cases s with
        | left => exact ihl hl hbl hj
        | right => exact ihr hr hbr hj
      | black hbl hbr =>
        cases s with
        | left => exact congrArg Nat.succ (ihl hl hbl hj)
        | right => exact congrArg Nat.succ (ihr hr hbr hj)

theorem Holds.black_below {c : Bool} {k i : Nat} {s : Side} {n : Node α} (h : a.Holds (some i) t)
    (ht : t.Balanced c k) (hred : a.RedAboveBlack i) (hn : a[i]? = some n)
    (hs : n.child s = t.root?) (hb : n.black = false) : c = true := by
  apply (h.black_root_iff ht).1
  intro j hj m hm
  exact hred j s n m ((hangs_iff hn).2 (hs.trans hj)) hn hm hb

theorem Holds.balanced {k : Nat} (h : a.Holds p t) (hred : ∀ i ∈ t.inorder, a.RedAboveBlack i)
    (hk : ∀ k', a.Descent t.root? k' → k' = k) : ∃ c, t.Balanced c k := by
  induction t generalizing p k with
  | leaf =>
    cases hk 0 .done
    exact ⟨true, .leaf⟩
  | node b l i r ihl ihr =>
    obtain ⟨⟨e, he⟩, hl, hr⟩ := h
    simp only [Shape.inorder, List.forall_mem_append, List.forall_mem_cons] at hred
    obtain ⟨kl, hkl⟩ := hl.exists_descent
    cases hk _ (.down .left he hkl)
    have hinj : ∀ k', (if b then k' + 1 else k') = (if b then kl + 1 else kl) → k' = kl := by
      intro k'
      cases b <;> simp
    obtain ⟨cl, hbl⟩ := ihl hl hred.1 fun k' hk' => hinj k' (hk _ (.down .left he hk'))
    obtain ⟨cr, hbr⟩ := ihr hr hred.2.2 fun k' hk' => hinj k' (hk _ (.down .right he hk'))
    cases b with
    | true => exact ⟨true, .black hbl hbr⟩
    | false =>
      cases hl.black_below (s := .left) hbl hred.2.1 he rfl rfl
      cases hr.black_below (s := .right) hbr hred.2.1 he rfl rfl
      exact ⟨false, .red hbl hbr⟩

end Arena

namespace Rooted

variable {r : Rooted α} {t : Shape} {i j : Nat} {s s' : Side}

theorem Unfolds.exists_node (h : r.Unfolds [] t) (hi : i ∈ t.inorder) :
    ∃ (p : Path) (b : Bool) (x y : Shape), t = p.fill (.node b x i y) ∧
      r.Unfolds p (.node b x i y) := by
  obtain ⟨p, b, x, y, rfl⟩ := Shape.exists_path hi
  exact ⟨p, b, x, y, rfl, unfolds_fill.2 h⟩

theorem Unfolds.child (h : r.Unfolds [] t) (hi : i ∈ t.inorder) (hj : r.arena.Hangs j s i) :
    j ∈ t.inorder ∧ ∃ n : Node α, r.arena[j]? = some n ∧ n.parent = some i := by
  obtain ⟨p, b, x, y, rfl, hu⟩ := h.exists_node hi
  obtain ⟨⟨e, he⟩, hx, hy⟩ := hu.below
  rw [hangs_iff he] at hj
  simp only [Path.inorder_fill, Shape.inorder, List.mem_append, List.mem_cons]
  cases s with
  | left => exact ⟨by simp [Shape.root?_mem hj], hx.root_node hj⟩
  | right => exact ⟨by simp [Shape.root?_mem hj], hy.root_node hj⟩

theorem Unfolds.reaches_iff (h : r.Unfolds [] t) : r.arena.Reaches r.root i ↔ i ∈ t.inorder := by
  have hroot : r.root = t.root? := h.around
  constructor
  · intro hi
    induction hi with
    | root hi => exact Shape.root?_mem (hroot.symm.trans hi)
    | child _ hj ih => exact (h.child ih hj).1
  · exact h.below.reaches (fun j hj => .root (hroot.trans hj)) i

theorem Unfolds.focus_of_oneSided (h : r.Unfolds [] t) (hside : r.arena.OneSided r.root) :
    r.Focus [] t ∧ t.seen = t.inorder := by
  have hseen : t.seen = t.inorder :=
    h.below.seen_eq fun i hi j => hside i j (h.reaches_iff.2 hi)
  exact ⟨h.focus (by simpa [Path.indices, hseen] using h.nodup_seen), hseen⟩

theorem exists_focus_of_isProper (h : r.arena.IsProper r.root) : ∃ t : Shape, r.Focus [] t := by
  obtain ⟨t, hu⟩ := h.unfolds
  obtain ⟨hf, -⟩ := hu.focus_of_oneSided h.oneSided
  exact ⟨t, hf⟩

theorem Focus.side_eq (h : r.Focus [] t) (hi : i ∈ t.inorder) (hj : r.arena.Hangs j s i)
    (hj' : r.arena.Hangs j s' i) : s = s' := by
  obtain ⟨p, b, x, y, rfl⟩ := Shape.exists_path hi
  have hf : r.Focus p (.node b x i y) := focus_fill.2 h
  have hdisj := hf.nodup
  simp only [Shape.inorder, List.nodup_append] at hdisj
  obtain ⟨⟨e, he⟩, -⟩ := hf.below
  have hboth : x.root? = some j → y.root? ≠ some j := fun hx hy =>
    hdisj.1.2.2 j (Shape.root?_mem hx) j (by simp [Shape.root?_mem hy]) rfl
  rw [hangs_iff he] at hj hj'
  cases s <;> cases s'
  · rfl
  · exact absurd hj' (hboth hj)
  · exact absurd hj (hboth hj')
  · rfl

theorem Focus.isProper (h : r.Focus [] t) : r.arena.IsProper r.root where
  top i hi := h.below.root_node ((h.around : r.root = t.root?).symm.trans hi)
  named hi hj := (h.unfolds.child (h.unfolds.reaches_iff.1 hi) hj).2
  once := by
    intro i i' j s s' hi hi' hj hj'
    have hmem := h.unfolds.reaches_iff.1 hi
    obtain ⟨-, n, hn, hp⟩ := h.unfolds.child hmem hj
    obtain ⟨-, n', hn', hp'⟩ := h.unfolds.child (h.unfolds.reaches_iff.1 hi') hj'
    cases hn.symm.trans hn'
    cases hp.symm.trans hp'
    exact ⟨rfl, h.side_eq hmem hj hj'⟩

theorem Unfolds.red_above_black {k : Nat} (h : r.Unfolds [] t) (ht : t.Balanced true k)
    (hi : i ∈ t.inorder) : r.arena.RedAboveBlack i := by
  obtain ⟨p, b, x, y, rfl, hu⟩ := h.exists_node hi
  obtain ⟨⟨e, he⟩, hx, hy⟩ := hu.below
  obtain ⟨_, _, hsub, -⟩ := Path.Balanced.of_fill ht
  intro j s n m hj hn hm hb
  rw [hangs_iff he] at hj
  cases he.symm.trans hn
  subst hb
  cases hsub with
  | red hbx hby =>
    cases s with
    | left => exact (hx.black_root_iff hbx).2 rfl j hj m hm
    | right => exact (hy.black_root_iff hby).2 rfl j hj m hm

variable {c : α → α → Ordering} {blacks : Nat}

theorem exists_focus_of_isRedBlackTree (h : r.arena.IsRedBlackTree c r.root blacks) :
    ∃ t : Shape, r.Focus [] t ∧ t.Balanced true blacks ∧ r.arena.Rising c t.inorder := by
  obtain ⟨t, hf⟩ := exists_focus_of_isProper h.toIsProper
  have hroot : r.root = t.root? := hf.around
  have hred : ∀ i ∈ t.inorder, r.arena.RedAboveBlack i := fun i hi =>
    h.red_above_black i (hf.unfolds.reaches_iff.2 hi)
  obtain ⟨b, hb⟩ := hf.below.balanced hred (hroot ▸ h.descents)
  have hblack : b = true := (hf.below.black_root_iff hb).1 (hroot ▸ h.black_root)
  obtain ⟨nodes, hnodes, hrise⟩ := h.rising
  have heq : nodes = t.inorder := hnodes.unique (hroot ▸ hf.below.lists)
  exact ⟨t, hf, hblack ▸ hb, heq ▸ hrise⟩

theorem Focus.isRedBlackTree (h : r.Focus [] t) (ht : t.Balanced true blacks)
    (hrise : r.arena.Rising c t.inorder) : r.arena.IsRedBlackTree c r.root blacks := by
  have hroot : r.root = t.root? := h.around
  exact
    { toIsProper := h.isProper
      black_root := hroot ▸ (h.below.black_root_iff ht).2 rfl
      red_above_black := fun i hi =>
        h.unfolds.red_above_black ht (h.unfolds.reaches_iff.1 hi)
      descents := fun k hk => h.below.descent_eq ht (hroot ▸ hk)
      rising := ⟨t.inorder, hroot ▸ h.below.lists, hrise⟩ }

end Rooted

namespace Arena

variable {a : Arena α} {root : Option Nat} {c : α → α → Ordering} {blacks : Nat}

theorem lt_size_of_check {cmp : Comparator α} (h : a.check cmp root = pure blacks) :
    ∀ i, root = some i → i < a.size := by
  intro i hi
  subst hi
  cases hn : a.node i with
  | ok n => exact (Array.getElem?_eq_some_iff.1 (node_eq_ok.1 hn)).1
  | error fault =>
    rw [check, hn] at h
    cases h

/-- The red-black trees are what a check lets pass, as long as no node has the same child on both
sides. -/
theorem isRedBlackTree_iff_check (ha : a.InRange) :
    a.IsRedBlackTree c root blacks ↔
      a.OneSided root ∧ a.check (.always c) root = pure blacks := by
  constructor
  · intro h
    obtain ⟨t, hf, ht, hrise⟩ := Rooted.exists_focus_of_isRedBlackTree (r := ⟨a, root⟩) h
    exact ⟨h.toIsProper.oneSided, Rooted.check_of_passes hf ht hrise.passes⟩
  · intro h
    obtain ⟨hside, hcheck⟩ := h
    obtain ⟨t, hu, ht, hrise⟩ := (check_concludes ha (lt_size_of_check hcheck)).of_eq hcheck
    obtain ⟨hf, hseen⟩ := hu.focus_of_oneSided hside
    exact hf.isRedBlackTree ht (hseen ▸ hrise)

theorem isRedBlackTree_iff_check_of_left_child :
    let a : Arena Nat := #[⟨none, some 1, none, true, 5⟩, ⟨some 0, none, none, false, 0⟩]
    a.InRange ∧ a.IsRedBlackTree compare (some 0) 1 := by
  intro a
  have ha : a.InRange := by decide
  have hright : ∀ n ∈ a, n.right = none := by simp [a]
  have hside : a.OneSided (some 0) := by
    intro i j _ _ hj
    obtain ⟨n, hn, hj⟩ := hj
    exact Option.some_ne_none j (hj.symm.trans (hright n (Array.mem_of_getElem? hn)))
  exact ⟨ha, (isRedBlackTree_iff_check ha).2 ⟨hside, rfl⟩⟩

/-- A check lets pass a root whose links lead to one child. The walk passes over the root, so that
the check does not see either that the element of the child is greater. -/
theorem check_of_shared_child :
    let a : Arena Nat := #[⟨none, some 1, some 1, true, 0⟩, ⟨some 0, none, none, false, 5⟩]
    a.InRange ∧ a.check (.always compare) (some 0) = pure 1 ∧
      (∀ blacks, ¬ a.IsRedBlackTree compare (some 0) blacks) ∧
      a.Lists (some 0) [1, 0, 1] ∧ ¬ a.Rising compare [1, 0, 1] := by
  intro a
  have hchild : a.Lists (some 1) [1] := .node (l := []) (r := []) rfl .done .done
  refine ⟨by decide, rfl, ?_, .node (l := [1]) (r := [1]) rfl hchild hchild, ?_⟩
  · intro blacks h
    have hl : a.Hangs 1 .left 0 := ⟨_, rfl, rfl⟩
    have hr : a.Hangs 1 .right 0 := ⟨_, rfl, rfl⟩
    exact h.toIsProper.oneSided 0 1 (.root rfl) hl hr
  · intro h
    exact (List.isChain_cons_cons.1 h).1 _ _ rfl rfl rfl

end Arena

end InstanceTree.RedBlack
