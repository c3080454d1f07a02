import Mathlib.Data.List.Nodup
import InstanceTree.Proofs.RedBlack.Rotation
import InstanceTree.RedBlack.Walk

namespace InstanceTree.RedBlack

variable {α : Type}

theorem Shape.exists_path {t : Shape} {i : Nat} (h : i ∈ t.inorder) :
    ∃ (p : Path) (b : Bool) (l r : Shape), t = p.fill (.node b l i r) := by
  suffices hs : ∀ up : Path, ∃ (p : Path) (b : Bool) (l r : Shape),
      up.fill t = p.fill (.node b l i r) from hs []
  induction t with
  | leaf => cases h
  | node b l j r ihl ihr =>
    intro up
    simp only [inorder, List.mem_append, List.mem_cons] at h
    rcases h with h | rfl | h
    · exact ihl h (⟨.left, b, j, r⟩ :: up)
    · exact ⟨up, b, l, r, rfl⟩
    · exact ihr h (⟨.right, b, j, l⟩ :: up)

theorem Path.beyond_of_side {s : Side} {p : Path} (h : ∀ turn ∈ p, turn.side = s) :
    p.beyond s = [] := by
  induction p with
  | nil => rfl
  | cons turn up ih =>
    simp only [beyond, h turn (by simp), if_true]
    exact ih fun turn' hturn => h turn' (by simp [hturn])

namespace Arena

def entries (a : Arena α) (nodes : List Nat) : List (Nat × α) :=
  nodes.filterMap fun i => a[i]?.map fun n => (i, n.elem)

theorem entries_cons {a : Arena α} {i : Nat} {n : Node α} {nodes : List Nat} (h : a[i]? = some n) :
    a.entries (i :: nodes) = (i, n.elem) :: a.entries nodes := by
  simp [entries, h]

theorem extremeFrom_spec {a : Arena α} {p : Option Nat} {t : Shape} {i : Nat} (s : Side)
    (h : a.Holds p t) (hi : t.root? = some i) {fuel : Nat} (hfuel : t.height ≤ fuel) :
    ∃ (q : Path) (b : Bool) (j : Nat) (y : Shape), t = q.fill (.join s b j .leaf y) ∧
      (∀ turn ∈ q, turn.side = s) ∧ a.extremeFrom s fuel i = .ok j := by
  induction fuel generalizing p t i with
  | zero =>
    cases t with
    | leaf => cases hi
    | node b l i right => simp [Shape.height] at hfuel
  | succ fuel ih =>
    obtain ⟨b, x, y, rfl⟩ : ∃ b x y, t = .join s b i x y := by
      cases t with
      | leaf => cases hi
      | node b l j right =>
        cases hi
        obtain ⟨x, y, hj⟩ := Shape.node_eq_join s b l i right
        exact ⟨b, x, y, hj⟩
    obtain ⟨⟨e, he⟩, hx, -⟩ := holds_join.1 h
    have hheight := Shape.height_join_left s b i x y
    simp only [extremeFrom, node_of_getElem? he, ok_bind, Node.joined_child]
    cases hxr : x.root? with
    | none =>
      rw [Shape.root?_eq_none] at hxr
      subst hxr
      exact ⟨[], b, i, y, rfl, by simp, rfl⟩
    | some c =>
      obtain ⟨q, b', j, y', rfl, hq, hj⟩ := ih hx hxr (by omega)
      refine ⟨q ++ [⟨s, b, i, y⟩], b', j, y', ?_, ?_, hj⟩
      · rw [Path.fill_append]
        rfl
      · intro turn hturn
        rcases List.mem_append.1 hturn with hturn | hturn
        · exact hq turn hturn
        · cases List.mem_singleton.1 hturn
          rfl

theorem extreme_eq {a : Arena α} {p : Option Nat} {t : Shape} (s : Side) (h : a.Holds p t)
    (hsize : t.inorder.length ≤ a.size) : a.extreme s t.root? = .ok (t.order s).head? := by
  cases hi : t.root? with
  | none =>
    rw [Shape.root?_eq_none] at hi
    subst hi
    simp [extreme]
  | some i =>
    have hheight := t.height_le_length
    have hdepth : t.height ≤ a.size + 1 := by omega
    obtain ⟨q, b, j, y, rfl, hq, hj⟩ := extremeFrom_spec s h hi hdepth
    simp [extreme, hj, Path.order_fill, Path.beyond_of_side hq]

end Arena

namespace Rooted

variable {r : Rooted α} {path : Path} {t : Shape}

theorem Touches.entries {r' : Rooted α} {nodes : List Nat} (h : Touches nodes r r')
    (l : List Nat) : r'.arena.entries l = r.arena.entries l := by
  apply List.filterMap_congr
  intro i _
  have helem := h.elem i
  cases hr : r.arena[i]? <;> cases hr' : r'.arena[i]? <;> simp_all

theorem climb_eq (s : Side) {i : Nat} (h : r.Focus path t) (hi : t.root? = some i) {fuel : Nat}
    (hfuel : path.length < fuel) : r.arena.climb s fuel i = .ok (path.beyond s).head? := by
  induction fuel generalizing path t i with
  | zero => omega
  | succ fuel ih =>
    obtain ⟨m, hm, hmp⟩ := h.below.root_node hi
    simp only [Arena.climb, Arena.node_of_getElem? hm, ok_bind, hmp]
    cases path with
    | nil => rfl
    | cons turn up =>
      obtain ⟨side, b, p, other⟩ := turn
      obtain ⟨e, he⟩ := h.around.parent_node
      simp only [List.length_cons] at hfuel
      simp only [Path.parent, Arena.node_of_getElem? he, ok_bind, Path.beyond]
      by_cases hs : side = s
      · subst hs
        simp only [Node.joined_child, hi, if_true]
        exact ih (focus_cons.1 h) (Shape.root?_join ..) (by omega)
      · have hs' : s = side.opp := by cases side <;> cases s <;> simp_all
        subst hs'
        have hne : other.root? ≠ some i := fun hc => by
          have := h.nodes_disjoint.2.2 i (Shape.root?_mem hi)
          simp [Path.indices, Shape.root?_mem hc] at this
        simp only [Node.joined_child_opp, hne, hs, if_false]
        rfl

theorem focus_neighbour_eq (s : Side) {b : Bool} {i : Nat} {x y : Shape}
    (h : r.Focus path (.join s b i x y)) :
    r.arena.neighbour s i = .ok (x.order s.opp ++ path.beyond s).head? := by
  obtain ⟨⟨e, he⟩, hx, -⟩ := Arena.holds_join.1 h.below
  have hlen := h.length_le
  have hjoin := (Shape.inorder_join_perm s b i x y).length_eq
  simp only [List.length_cons, List.length_append] at hjoin
  simp only [Arena.neighbour, Arena.node_of_getElem? he, ok_bind, Node.joined_child]
  cases hxr : x.root? with
  | none =>
    rw [Shape.root?_eq_none] at hxr
    subst hxr
    have hpath := path.length_le_indices
    have hfuel : path.length < r.arena.size + 1 := by omega
    simpa using climb_eq s h (Shape.root?_join ..) hfuel
  | some c =>
    have hext := Arena.extreme_eq s.opp hx (by omega)
    rw [hxr] at hext
    simp only [hext]
    obtain ⟨j, hj⟩ : ∃ j, (x.order s.opp).head? = some j := by
      cases hl : x.order s.opp with
      | nil =>
        have hmem := Shape.mem_order (s := s.opp).2 (Shape.root?_mem hxr)
        rw [hl] at hmem
        cases hmem
      | cons j l => exact ⟨j, rfl⟩
    rw [List.head?_append, hj]
    rfl

theorem Focus.order_nodup (h : r.Focus [] t) (s : Side) : (t.order s).Nodup := by
  have hnd := h.nodes_disjoint.1
  cases s with
  | left => exact hnd
  | right => exact List.nodup_reverse.2 hnd

/-- The neighbour of a node on a side is the next one in the order that leads there. -/
theorem neighbour_eq (s : Side) (h : r.Focus [] t) {i : Nat} {xs ys : List Nat}
    (ht : t.order s.opp = xs ++ i :: ys) : r.arena.neighbour s i = .ok ys.head? := by
  have hi : i ∈ t.inorder := by
    rw [← Shape.mem_order (s := s.opp), ht]
    simp
  obtain ⟨p, b, l, right, rfl⟩ := Shape.exists_path hi
  obtain ⟨x, y, hj⟩ := Shape.node_eq_join s b l i right
  rw [hj] at h ht
  have hf : r.Focus p (.join s b i x y) := focus_fill.2 h
  rw [focus_neighbour_eq s hf]
  have hnd := h.order_nodup s.opp
  have horder : (p.fill (.join s b i x y)).order s.opp =
      ((p.beyond s.opp).reverse ++ y.order s.opp) ++ i :: (x.order s.opp ++ p.beyond s) := by
    rw [Path.order_fill, ← Shape.join_opp, Shape.order_join]
    simp
  rw [horder] at ht hnd
  have hnd' := ht ▸ hnd
  rw [List.nodup_middle, List.nodup_cons] at hnd hnd'
  obtain ⟨-, -, hys⟩ := (List.append_cons_inj_of_notMem
    (fun hc => hnd'.1 (List.mem_append_left _ hc))
    (fun hc => hnd'.1 (List.mem_append_right _ hc))).1 ht.symm
  rw [hys]

theorem walkFrom_eq (h : r.Focus [] t) {xs ys : List Nat} (ht : t.inorder = xs ++ ys)
    {fuel : Nat} (hfuel : ys.length ≤ fuel) : r.arena.walkFrom fuel ys.head? = .ok ys := by
  induction ys generalizing xs fuel with
  | nil => cases fuel <;> rfl
  | cons i ys ih =>
    obtain ⟨fuel, rfl⟩ : ∃ f, fuel = f + 1 := ⟨fuel - 1, by simp at hfuel; omega⟩
    have hnext : r.arena.next i = .ok ys.head? := neighbour_eq .right h ht
    have hpassed : t.inorder = (xs ++ [i]) ++ ys := by simpa using ht
    have hrest := ih hpassed (by simpa using hfuel)
    simp only [List.head?_cons, Arena.walkFrom, hnext, ok_bind, hrest]
    rfl

theorem Focus.length_lt (h : r.Focus [] t) : t.inorder.length < r.arena.size + 1 := by
  have := h.length_le
  omega

theorem walk_eq (h : r.Focus [] t) : r.arena.walk r.root = .ok t.inorder := by
  have hroot : r.root = t.root? := h.around
  have hlen := h.length_lt
  have hfirst : r.arena.first t.root? = .ok t.inorder.head? :=
    Arena.extreme_eq .left h.below (by omega)
  rw [Arena.walk, hroot, hfirst, ok_bind]
  exact walkFrom_eq h (List.nil_append _).symm (by omega)

theorem elements_eq (h : r.Focus [] t) :
    r.arena.elements r.root = .ok ((r.arena.entries t.inorder).map (·.2)) := by
  rw [Arena.elements, walk_eq h, ok_bind]
  have hlt : ∀ i ∈ t.inorder, i < r.arena.size := fun i hi => h.below.lt_size hi
  generalize t.inorder = nodes at hlt
  induction nodes with
  | nil => rfl
  | cons i nodes ih =>
    have hi := Array.getElem?_eq_getElem (hlt i (by simp))
    have hrest := ih fun j hj => hlt j (by simp [hj])
    rw [List.mapM_cons, Arena.node_of_getElem? hi, Arena.entries_cons hi, hrest]
    rfl

end Rooted

namespace Arena

theorem sizeBelow_eq {a : Arena α} {p : Option Nat} {t : Shape} (h : a.Holds p t) {depth : Nat}
    (hdepth : t.height ≤ depth) : a.sizeBelow depth t.root? = .ok t.inorder.length := by
  induction t generalizing p depth with
  | leaf => cases depth <;> rfl
  | node b l i right ihl ihr =>
    obtain ⟨⟨e, he⟩, hl, hr⟩ := h
    simp only [Shape.height] at hdepth
    obtain ⟨depth, rfl⟩ : ∃ d, depth = d + 1 := ⟨depth - 1, by omega⟩
    have hdl : l.height ≤ depth := by omega
    have hdr : right.height ≤ depth := by omega
    have hl' := ihl hl hdl
    have hr' := ihr hr hdr
    show a.sizeBelow (depth + 1) (some i) = _
    simp only [sizeBelow, node_of_getElem? he, ok_bind, hl', hr', Shape.inorder,
      List.length_append, List.length_cons]
    apply congrArg Except.ok
    omega

theorem heightBelow_eq {a : Arena α} {p : Option Nat} {t : Shape} (h : a.Holds p t) {depth : Nat}
    (hdepth : t.height ≤ depth) : a.heightBelow depth t.root? = .ok t.height := by
  induction t generalizing p depth with
  | leaf => cases depth <;> rfl
  | node b l i right ihl ihr =>
    obtain ⟨⟨e, he⟩, hl, hr⟩ := h
    simp only [Shape.height] at hdepth
    obtain ⟨depth, rfl⟩ : ∃ d, depth = d + 1 := ⟨depth - 1, by omega⟩
    have hdl : l.height ≤ depth := by omega
    have hdr : right.height ≤ depth := by omega
    have hl' := ihl hl hdl
    have hr' := ihr hr hdr
    show a.heightBelow (depth + 1) (some i) = _
    simp only [heightBelow, node_of_getElem? he, ok_bind, hl', hr']
    rfl

end Arena

end InstanceTree.RedBlack
