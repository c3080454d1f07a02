import InstanceTree.Proofs.RedBlack.Rotation

namespace InstanceTree.RedBlack

/-- The colour rules, for a tree whose root is black or red as `black` says and whose paths have
`height` black nodes each. -/
inductive Shape.Balanced : Shape → (black : Bool) → (height : Nat) → Prop where
  | leaf : Balanced .leaf true 0
  | red {l r : Shape} {i h : Nat} : Balanced l true h → Balanced r true h →
      Balanced (.node false l i r) false h
  | black {l r : Shape} {i h : Nat} {c c' : Bool} : Balanced l c h → Balanced r c' h →
      Balanced (.node true l i r) true (h + 1)

/-- The colour rules around a hole that has to be filled by a tree with the colour `black` at its
root and `height` black nodes on its paths. -/
inductive Path.Balanced : Path → (black : Bool) → (height : Nat) → Prop where
  | root {h : Nat} : Balanced [] true h
  | red {s : Side} {i h : Nat} {other : Shape} {up : Path} : other.Balanced true h →
      Balanced up false h → Balanced (⟨s, false, i, other⟩ :: up) true h
  | black {s : Side} {i h : Nat} {other : Shape} {up : Path} {c c' : Bool} :
      other.Balanced c h → Balanced up true (h + 1) →
      Balanced (⟨s, true, i, other⟩ :: up) c' h

namespace Shape.Balanced

variable {s : Side} {i h : Nat} {x y : Shape} {b c c' : Bool}

theorem red_join (hx : x.Balanced true h) (hy : y.Balanced true h) :
    (join s false i x y).Balanced false h := by
  cases s with
  | left => exact .red hx hy
  | right => exact .red hy hx

theorem black_join (hx : x.Balanced c h) (hy : y.Balanced c' h) :
    (join s true i x y).Balanced true (h + 1) := by
  cases s with
  | left => exact .black hx hy
  | right => exact .black hy hx

theorem of_red_join (hj : (join s false i x y).Balanced b h) :
    b = false ∧ x.Balanced true h ∧ y.Balanced true h := by
  cases s with
  | left =>
    cases hj with
    | red hx hy => exact ⟨rfl, hx, hy⟩
  | right =>
    cases hj with
    | red hy hx => exact ⟨rfl, hx, hy⟩

theorem of_black_join (hj : (join s true i x y).Balanced b h) :
    b = true ∧ ∃ c c' k, h = k + 1 ∧ x.Balanced c k ∧ y.Balanced c' k := by
  cases s with
  | left =>
    cases hj with
    | black hx hy => exact ⟨rfl, _, _, _, rfl, hx, hy⟩
  | right =>
    cases hj with
    | black hy hx => exact ⟨rfl, _, _, _, rfl, hx, hy⟩

theorem blacken {t : Shape} (ht : t.Balanced c h) : ∃ k, t.blacken.Balanced true k := by
  cases ht with
  | leaf => exact ⟨0, .leaf⟩
  | red hl hr => exact ⟨_, .black hl hr⟩
  | black hl hr => exact ⟨_, .black hl hr⟩

theorem blacken_red {t : Shape} (ht : t.Balanced false h) : t.blacken.Balanced true (h + 1) := by
  cases ht with
  | red hl hr => exact .black hl hr

theorem blacken_eq {t : Shape} (ht : t.Balanced true h) : t.blacken = t := by
  cases ht with
  | leaf => rfl
  | black hl hr => rfl

theorem join_of_red {t : Shape} (ht : t.Balanced false h) (s : Side) (hi : t.root? = some i) :
    ∃ near far, t = join s false i near far := by
  cases ht with
  | red hl hr =>
    cases hi
    exact node_eq_join s false _ _ _

theorem root_of_pos {t : Shape} (ht : t.Balanced c (h + 1)) (s : Side) :
    ∃ i near far, t = join s c i near far := by
  cases ht with
  | red hl hr =>
    obtain ⟨near, far, he⟩ := node_eq_join s false _ _ _
    exact ⟨_, near, far, he⟩
  | black hl hr =>
    obtain ⟨near, far, he⟩ := node_eq_join s true _ _ _
    exact ⟨_, near, far, he⟩

end Shape.Balanced

namespace Path.Balanced

variable {p : Path} {t : Shape} {c : Bool} {h : Nat}

theorem fill (hp : p.Balanced c h) (ht : t.Balanced c h) : ∃ k, (p.fill t).Balanced true k := by
  induction hp generalizing t with
  | root => exact ⟨_, ht⟩
  | red ho hu ih => exact ih (.red_join ht ho)
  | black ho hu ih => exact ih (.black_join ht ho)

theorem of_fill {k : Nat} (hf : (p.fill t).Balanced true k) :
    ∃ c h, t.Balanced c h ∧ p.Balanced c h := by
  induction p generalizing t with
  | nil => exact ⟨true, k, hf, .root⟩
  | cons turn up ih =>
    obtain ⟨s, b, i, other⟩ := turn
    obtain ⟨c, h, hj, hu⟩ := ih hf
    cases b with
    | false =>
      obtain ⟨rfl, ht, ho⟩ := hj.of_red_join
      exact ⟨true, h, ht, .red ho hu⟩
    | true =>
      obtain ⟨rfl, c, c', k, rfl, ht, ho⟩ := hj.of_black_join
      exact ⟨c, k, ht, .black ho hu⟩

theorem to_black (hp : p.Balanced c h) : p.Balanced true h := by
  cases hp with
  | root => exact .root
  | red ho hu => exact .red ho hu
  | black ho hu => exact .black ho hu

theorem red_or_black {s : Side} {b : Bool} {i : Nat} {other : Shape}
    (hp : Balanced (⟨s, b, i, other⟩ :: p) true h) :
    ∃ c', other.Balanced c' h ∧
      (b = false → c' = true ∧ p.Balanced false h) ∧ (b = true → p.Balanced true (h + 1)) := by
  cases hp with
  | red ho hu => exact ⟨true, ho, fun _ => ⟨rfl, hu⟩, nofun⟩
  | black ho hu => exact ⟨_, ho, nofun, fun _ => hu⟩

theorem rename {q : Path} {s : Side} {b : Bool} {i : Nat} (j : Nat) {other : Shape}
    (hp : Balanced (q ++ ⟨s, b, i, other⟩ :: p) c h) :
    Balanced (q ++ ⟨s, b, j, other⟩ :: p) c h := by
  induction q generalizing c h with
  | nil =>
    cases hp with
    | red ho hu => exact .red ho hu
    | black ho hu => exact .black ho hu
  | cons turn q ih =>
    cases hp with
    | red ho hu => exact .red ho (ih hu)
    | black ho hu => exact .black ho (ih hu)

end Path.Balanced

def Shape.isRed : Shape → Bool
  | .leaf => false
  | .node b _ _ _ => !b

theorem Shape.Balanced.isRed_eq {t : Shape} {c : Bool} {h : Nat} (ht : t.Balanced c h) :
    t.isRed = !c := by
  cases ht <;> rfl

theorem Arena.Holds.black_root_iff {α : Type} {a : Arena α} {p : Option Nat} {t : Shape}
    {c : Bool} {h : Nat} (ha : a.Holds p t) (ht : t.Balanced c h) :
    (∀ i, t.root? = some i → ∀ n : Node α, a[i]? = some n → n.black = true) ↔ c = true := by
  cases ht with
  | leaf => simp [Shape.root?]
  | red hl hr =>
    obtain ⟨⟨e, he⟩, -⟩ := ha
    simp [he]
  | black hl hr =>
    obtain ⟨⟨e, he⟩, -⟩ := ha
    simp [he]

@[simp] theorem Shape.isRed_join (s : Side) (b : Bool) (i : Nat) (x y : Shape) :
    (join s b i x y).isRed = !b := by
  cases s <;> rfl

namespace Rooted

variable {α : Type}

/-- What the links from the root on lead to is a red-black tree; in order its nodes are `nodes`. -/
def IsRedBlack (r : Rooted α) (nodes : List Nat) : Prop :=
  ∃ (t : Shape) (k : Nat), r.Focus [] t ∧ t.Balanced true k ∧ t.inorder = nodes

/-- A stage of a repair that began with `r₀`: `r` holds `t` at the end of `path`, the nodes of the
whole tree are `nodes` in order, and nothing but links and colours of these has changed. -/
structure Stage (r₀ : Rooted α) (nodes : List Nat) (r : Rooted α) (path : Path) (t : Shape) :
    Prop where
  focus : r.Focus path t
  inorder : (path.fill t).inorder = nodes
  touches : Touches nodes r₀ r

variable {r₀ r : Rooted α} {nodes : List Nat} {path : Path} {s : Side} {b : Bool} {i : Nat}
  {x y t : Shape}

theorem Focus.stage (h : r.Focus path t) : Stage r (path.fill t).inorder r path t :=
  ⟨h, rfl, .refl _ _⟩

theorem stage_cons :
    Stage r₀ nodes r (⟨s, b, i, y⟩ :: path) x ↔ Stage r₀ nodes r path (.join s b i x y) :=
  ⟨fun h => ⟨focus_cons.1 h.focus, h.inorder, h.touches⟩,
    fun h => ⟨focus_cons.2 h.focus, h.inorder, h.touches⟩⟩

theorem stage_swap :
    Stage r₀ nodes r (⟨s, b, i, y⟩ :: path) x ↔ Stage r₀ nodes r (⟨s.opp, b, i, x⟩ :: path) y := by
  rw [stage_cons, stage_cons, Shape.join_opp]

theorem Stage.node (h : Stage r₀ nodes r path (.join s b i x y)) :
    ∃ e, r.node i = .ok (.joined s path.parent x.root? y.root? b e) := by
  obtain ⟨⟨e, he⟩, -⟩ := Arena.holds_join.1 h.focus.below
  exact ⟨e, node_eq he⟩

theorem Stage.node_above (h : Stage r₀ nodes r (⟨s, b, i, y⟩ :: path) x) :
    ∃ e, r.node i = .ok (.joined s path.parent x.root? y.root? b e) :=
  (stage_cons.1 h).node

theorem isRed_eq {p : Option Nat} (h : r.arena.Holds p t) : r.isRed t.root? = .ok t.isRed := by
  cases t with
  | leaf => rfl
  | node b l i right =>
    obtain ⟨⟨e, he⟩, -⟩ := h
    simp only [isRed, Shape.root?, Arena.isRed, Arena.node_of_getElem? he, ok_bind, Shape.isRed]
    rfl

theorem Stage.isRed (h : Stage r₀ nodes r path t) : r.isRed t.root? = .ok t.isRed :=
  isRed_eq h.focus.below

theorem Stage.sideOf (h : Stage r₀ nodes r (⟨s, b, i, y⟩ :: path) x) (hne : x.root? ≠ y.root?) :
    r.sideOf i x.root? = .ok s :=
  sideOf_eq h.focus.around hne

theorem Stage.root_ne (h : Stage r₀ nodes r (⟨s, b, i, y⟩ :: path) x) {j : Nat}
    (hj : x.root? = some j ∨ y.root? = some j) : x.root? ≠ y.root? := by
  intro heq
  have hx : x.root? = some j := hj.elim id fun hy => heq.trans hy
  have hy : y.root? = some j := heq ▸ hx
  have hd := h.focus.nodes_disjoint.2.2 j (Shape.root?_mem hx)
  exact hd (by simp [Path.indices, Shape.root?_mem hy])

theorem Stage.setBlack (h : Stage r₀ nodes r path (.join s b i x y)) (b' : Bool) :
    Yields (r.setBlack i b') fun r' => Stage r₀ nodes r' path (.join s b' i x y) := by
  obtain ⟨l, right, hj, hj'⟩ : ∃ l right, Shape.join s b i x y = .node b l i right ∧
      Shape.join s b' i x y = .node b' l i right := by
    cases s with
    | left => exact ⟨x, y, rfl, rfl⟩
    | right => exact ⟨y, x, rfl, rfl⟩
  have hf := h.focus
  rw [hj] at hf
  apply hf.setBlack.mono
  intro r' hr'
  refine ⟨hj' ▸ hr'.1, ?_, ?_⟩
  · rw [← h.inorder]
    apply Path.inorder_fill_congr
    rw [hj, hj']
    rfl
  · refine h.touches.trans (hr'.2.mono ?_)
    rw [← hj, h.inorder]
    exact List.Subset.refl _

theorem Stage.rotate {b' : Bool} {n up : Nat} {inner z : Shape}
    (h : Stage r₀ nodes r path (.join s b n x (.join s b' up inner z))) :
    Yields (r.rotate s n) fun r' =>
      Stage r₀ nodes r' path (.join s b' up (.join s b n x inner) z) := by
  apply h.focus.rotate.mono
  intro r' hr'
  refine ⟨hr'.1, ?_, ?_⟩
  · rw [← h.inorder]
    exact Path.inorder_fill_congr _ (Shape.inorder_rotate ..)
  · refine h.touches.trans (hr'.2.mono ?_)
    rw [h.inorder]
    exact List.Subset.refl _

theorem Stage.blacken (h : Stage r₀ nodes r path t) :
    Yields (r.blacken t.root?) fun r' => Stage r₀ nodes r' path t.blacken := by
  cases t with
  | leaf => exact .intro rfl h
  | node b l i right => exact Stage.setBlack (s := .left) h true

theorem Stage.blacken_root (h : Stage r₀ nodes r path t) {c : Bool} {k : Nat}
    (hb : (path.fill t).Balanced c k) :
    Yields (r.blacken r.root) fun r' =>
      ∃ t' k', Stage r₀ nodes r' [] t' ∧ t'.Balanced true k' := by
  have h' : Stage r₀ nodes r [] (path.fill t) := ⟨focus_fill.1 h.focus, h.inorder, h.touches⟩
  have hroot : r.root = (path.fill t).root? := h'.focus.around
  obtain ⟨k', hk'⟩ := hb.blacken
  rw [hroot]
  exact h'.blacken.mono fun r' hr' => ⟨_, k', hr', hk'⟩

end Rooted

end InstanceTree.RedBlack
