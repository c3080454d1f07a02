import InstanceTree.Proofs.RedBlack.Shape
import InstanceTree.Proofs.Yields
import InstanceTree.RedBlack.Arena

namespace InstanceTree.RedBlack

variable {α : Type}

def Node.withParent (n : Node α) (p : Option Nat) : Node α :=
  { n with parent := p }

def Node.withBlack (n : Node α) (b : Bool) : Node α :=
  { n with black := b }

@[simp] theorem Node.elem_withParent (n : Node α) (p : Option Nat) :
    (n.withParent p).elem = n.elem := rfl

def Node.joined (s : Side) (parent near far : Option Nat) (black : Bool) (e : α) : Node α :=
  match s with
  | .left => ⟨parent, near, far, black, e⟩
  | .right => ⟨parent, far, near, black, e⟩

section Joined

variable (s : Side) (p q near far : Option Nat) (b c : Bool) (e : α)

@[simp] theorem Node.joined_child : (Node.joined s p near far b e).child s = near := by
  cases s <;> rfl

@[simp] theorem Node.joined_child_opp : (Node.joined s p near far b e).child s.opp = far := by
  cases s <;> rfl

@[simp] theorem Node.joined_withChild :
    (Node.joined s p near far b e).withChild s q = Node.joined s p q far b e := by
  cases s <;> rfl

@[simp] theorem Node.joined_withChild_opp :
    (Node.joined s p near far b e).withChild s.opp q = Node.joined s p near q b e := by
  cases s <;> rfl

@[simp] theorem Node.joined_parent : (Node.joined s p near far b e).parent = p := by
  cases s <;> rfl

@[simp] theorem Node.joined_black : (Node.joined s p near far b e).black = b := by
  cases s <;> rfl

@[simp] theorem Node.joined_withParent :
    (Node.joined s p near far b e).withParent q = Node.joined s q near far b e := by
  cases s <;> rfl

end Joined

namespace Arena

def retouch (a : Arena α) (h : Nat → Node α → Node α) : Arena α :=
  a.mapIdx h

@[simp] theorem getElem?_retouch (a : Arena α) (h : Nat → Node α → Node α) (i : Nat) :
    (a.retouch h)[i]? = a[i]?.map (h i) := by
  simp [retouch]

@[simp] theorem size_retouch (a : Arena α) (h : Nat → Node α → Node α) :
    (a.retouch h).size = a.size := by
  simp [retouch]

theorem retouch_retouch (a : Arena α) (h h' : Nat → Node α → Node α) :
    (a.retouch h).retouch h' = a.retouch fun i n => h' i (h i n) := by
  apply Array.ext_getElem?
  intro i
  simp only [getElem?_retouch, Option.map_map]
  rfl

theorem getElem?_retouch_fixed (a : Arena α) {h : Nat → Node α → Node α} {i : Nat}
    (hi : ∀ n, h i n = n) : (a.retouch h)[i]? = a[i]? := by
  rw [getElem?_retouch]
  cases a[i]? <;> simp [hi]

theorem node_of_getElem? {a : Arena α} {i : Nat} {n : Node α} (h : a[i]? = some n) :
    a.node i = .ok n :=
  node_eq_ok.2 h

theorem update_eq_retouch {a : Arena α} {i : Nat} {n : Node α} (hn : a[i]? = some n)
    (f : Node α → Node α) :
    a.update i f = .ok (a.retouch fun j m => if j = i then f m else m) := by
  refine update_eq_ok.2 ⟨n, hn, ?_⟩
  apply Array.ext_getElem?
  intro j
  obtain ⟨hi, -⟩ := Array.getElem?_eq_some_iff.1 hn
  by_cases hj : j = i
  · subst hj
    rw [Array.getElem?_setIfInBounds_self_of_lt hi, getElem?_retouch, hn]
    simp
  · simp [hj, Ne.symm hj]

theorem length_le_of_nodup {l : List Nat} {size : Nat} (hnd : l.Nodup) (hlt : ∀ i ∈ l, i < size) :
    l.length ≤ size := by
  have hsub : l ⊆ List.range size := fun i hi => List.mem_range.2 (hlt i hi)
  simpa using (List.subperm_of_subset hnd hsub).length_le

/-- The arena holds a tree below a parent: every node has the links that the tree gives it. -/
def Holds (a : Arena α) : Option Nat → Shape → Prop
  | _, .leaf => True
  | p, .node b l i r =>
    (∃ e, a[i]? = some ⟨p, l.root?, r.root?, b, e⟩) ∧ a.Holds (some i) l ∧ a.Holds (some i) r

/-- The arena holds what is around a hole into which the link `hole` leads. -/
def HoldsPath (a : Arena α) (root : Option Nat) : Path → Option Nat → Prop
  | [], hole => root = hole
  | turn :: up, hole =>
    (∃ e, a[turn.index]? =
      some (.joined turn.side (Path.parent up) hole turn.other.root? turn.black e)) ∧
      a.Holds (some turn.index) turn.other ∧ a.HoldsPath root up (some turn.index)

theorem holds_join {a : Arena α} {p : Option Nat} {s : Side} {b : Bool} {i : Nat} {x y : Shape} :
    a.Holds p (.join s b i x y) ↔
      (∃ e, a[i]? = some (.joined s p x.root? y.root? b e)) ∧
        a.Holds (some i) x ∧ a.Holds (some i) y := by
  cases s with
  | left => exact Iff.rfl
  | right => exact and_congr Iff.rfl and_comm

theorem Holds.frame {a b : Arena α} {p : Option Nat} {t : Shape} (h : a.Holds p t)
    (hb : ∀ i ∈ t.inorder, b[i]? = a[i]?) : b.Holds p t := by
  induction t generalizing p with
  | leaf => trivial
  | node c l i r ihl ihr =>
    obtain ⟨⟨e, he⟩, hl, hr⟩ := h
    refine ⟨⟨e, ?_⟩, ihl hl ?_, ihr hr ?_⟩
    · rw [hb i (by simp [Shape.inorder]), he]
    · intro j hj
      exact hb j (by simp [Shape.inorder, hj])
    · intro j hj
      exact hb j (by simp [Shape.inorder, hj])

theorem Holds.reparent {a b : Arena α} {p q : Option Nat} {t : Shape} (h : a.Holds p t)
    (hnd : t.inorder.Nodup)
    (hb : ∀ i ∈ t.inorder, b[i]? =
      a[i]?.map fun n => if t.root? = some i then n.withParent q else n) :
    b.Holds q t := by
  cases t with
  | leaf => trivial
  | node c l i r =>
    obtain ⟨⟨e, he⟩, hl, hr⟩ := h
    simp only [Shape.inorder, List.nodup_append, List.nodup_cons, List.mem_cons] at hnd
    refine ⟨⟨e, ?_⟩, hl.frame ?_, hr.frame ?_⟩
    · rw [hb i (by simp [Shape.inorder]), he]
      simp [Shape.root?, Node.withParent]
    · intro j hj
      have hij : i ≠ j := by grind
      rw [hb j (by simp [Shape.inorder, hj])]
      simp [Shape.root?, hij]
    · intro j hj
      have hij : i ≠ j := by grind
      rw [hb j (by simp [Shape.inorder, hj])]
      simp [Shape.root?, hij]

theorem Holds.root_node {a : Arena α} {p : Option Nat} {t : Shape} {i : Nat} (h : a.Holds p t)
    (hi : t.root? = some i) : ∃ n, a[i]? = some n ∧ n.parent = p := by
  cases t with
  | leaf => cases hi
  | node c l j r =>
    cases hi
    obtain ⟨⟨e, he⟩, -, -⟩ := h
    exact ⟨_, he, rfl⟩

theorem Holds.lt_size {a : Arena α} {p : Option Nat} {t : Shape} {i : Nat} (h : a.Holds p t)
    (hi : i ∈ t.inorder) : i < a.size := by
  induction t generalizing p with
  | leaf => cases hi
  | node c l j r ihl ihr =>
    obtain ⟨⟨e, he⟩, hl, hr⟩ := h
    simp only [Shape.inorder, List.mem_append, List.mem_cons] at hi
    rcases hi with hi | rfl | hi
    · exact ihl hl hi
    · exact (Array.getElem?_eq_some_iff.1 he).1
    · exact ihr hr hi

theorem HoldsPath.frame {a b : Arena α} {root : Option Nat} {p : Path} {hole : Option Nat}
    (h : a.HoldsPath root p hole) (hb : ∀ i ∈ p.indices, b[i]? = a[i]?) :
    b.HoldsPath root p hole := by
  induction p generalizing hole with
  | nil => exact h
  | cons turn up ih =>
    obtain ⟨⟨e, he⟩, ho, hu⟩ := h
    refine ⟨⟨e, ?_⟩, ho.frame ?_, ih hu ?_⟩
    · rw [hb _ (by simp [Path.indices]), he]
    · intro j hj
      exact hb j (by simp [Path.indices, hj])
    · intro j hj
      exact hb j (by simp [Path.indices, hj])

def hang : Path → Option Nat → Nat → Node α → Node α
  | [], _, _, n => n
  | turn :: _, new, i, n => if i = turn.index then n.withChild turn.side new else n

def rootAfter : Path → Option Nat → Option Nat → Option Nat
  | [], _, new => new
  | _ :: _, root, _ => root

theorem hang_of_ne {p : Path} {i : Nat} (h : p.parent ≠ some i) (new : Option Nat) (n : Node α) :
    hang p new i n = n := by
  cases p with
  | nil => rfl
  | cons turn up =>
    have hi : i ≠ turn.index := by
      intro heq
      subst heq
      exact h rfl
    simp [hang, hi]

@[simp] theorem hang_elem (p : Path) (new : Option Nat) (i : Nat) (n : Node α) :
    (hang p new i n).elem = n.elem := by
  cases p with
  | nil => rfl
  | cons turn up =>
    simp only [hang]
    split <;> simp

theorem HoldsPath.plug {a b : Arena α} {root : Option Nat} {p : Path} {hole new : Option Nat}
    (h : a.HoldsPath root p hole) (hnd : p.indices.Nodup)
    (hb : ∀ i ∈ p.indices, b[i]? = a[i]?.map (hang p new i)) :
    b.HoldsPath (rootAfter p root new) p new := by
  cases p with
  | nil => rfl
  | cons turn up =>
    obtain ⟨⟨e, he⟩, ho, hu⟩ := h
    simp only [Path.indices, List.cons_append, List.nodup_cons, List.mem_append, not_or] at hnd
    refine ⟨⟨e, ?_⟩, ho.frame ?_, hu.frame ?_⟩
    · rw [hb _ (by simp [Path.indices]), he]
      simp [hang]
    · intro j hj
      have hij : j ≠ turn.index := by grind
      rw [hb j (by simp [Path.indices, hj])]
      cases a[j]? <;> simp [hang, hij]
    · intro j hj
      have hij : j ≠ turn.index := by grind
      rw [hb j (by simp [Path.indices, hj])]
      cases a[j]? <;> simp [hang, hij]

theorem HoldsPath.lt_size {a : Arena α} {root : Option Nat} {p : Path} {hole : Option Nat}
    {i : Nat} (h : a.HoldsPath root p hole) (hi : i ∈ p.indices) : i < a.size := by
  induction p generalizing hole with
  | nil => cases hi
  | cons turn up ih =>
    obtain ⟨⟨e, he⟩, ho, hu⟩ := h
    simp only [Path.indices, List.cons_append, List.mem_cons, List.mem_append] at hi
    rcases hi with rfl | hi | hi
    · exact (Array.getElem?_eq_some_iff.1 he).1
    · exact ho.lt_size hi
    · exact ih hu hi

theorem HoldsPath.parent_node {a : Arena α} {root : Option Nat} {turn : Turn} {up : Path}
    {hole : Option Nat} (h : a.HoldsPath root (turn :: up) hole) :
    ∃ e, a[turn.index]? =
      some (.joined turn.side (Path.parent up) hole turn.other.root? turn.black e) :=
  h.1

end Arena

/-- From the root on, the links unfold to `t` at the end of the way `path`. A node that several
links lead to occurs several times. -/
structure Rooted.Unfolds (r : Rooted α) (path : Path) (t : Shape) : Prop where
  around : r.arena.HoldsPath r.root path t.root?
  below : r.arena.Holds path.parent t

structure Rooted.Focus (r : Rooted α) (path : Path) (t : Shape) : Prop where
  around : r.arena.HoldsPath r.root path t.root?
  below : r.arena.Holds path.parent t
  nodup : (t.inorder ++ path.indices).Nodup

namespace Rooted

/-- What the links from the root on lead to is a binary tree; in order its nodes are `nodes`. -/
def IsTree (r : Rooted α) (nodes : List Nat) : Prop :=
  ∃ t : Shape, r.Focus [] t ∧ t.inorder = nodes

variable {r : Rooted α} {path : Path}

theorem unfolds_cons {s : Side} {b : Bool} {i : Nat} {x y : Shape} :
    r.Unfolds (⟨s, b, i, y⟩ :: path) x ↔ r.Unfolds path (.join s b i x y) := by
  constructor
  · intro h
    obtain ⟨⟨he, hy, hp⟩, hx⟩ := h
    exact ⟨by simpa using hp, Arena.holds_join.2 ⟨he, hx, hy⟩⟩
  · intro h
    obtain ⟨hp, hj⟩ := h
    obtain ⟨he, hx, hy⟩ := Arena.holds_join.1 hj
    exact ⟨⟨he, hy, by simpa using hp⟩, hx⟩

theorem unfolds_fill {t : Shape} : r.Unfolds path t ↔ r.Unfolds [] (path.fill t) := by
  induction path generalizing t with
  | nil => exact Iff.rfl
  | cons turn path ih => exact unfolds_cons.trans ih

theorem Focus.unfolds {t : Shape} (h : r.Focus path t) : r.Unfolds path t :=
  ⟨h.around, h.below⟩

theorem Unfolds.focus {t : Shape} (h : r.Unfolds path t)
    (hnd : (t.inorder ++ path.indices).Nodup) : r.Focus path t :=
  ⟨h.around, h.below, hnd⟩

theorem focus_fill {t : Shape} : r.Focus path t ↔ r.Focus [] (path.fill t) := by
  have hnd : ((path.fill t).inorder ++ Path.indices []).Nodup ↔
      (t.inorder ++ path.indices).Nodup := by
    rw [Path.indices, List.append_nil]
    exact (Path.inorder_fill_perm path t).nodup_iff
  constructor
  · exact fun h => (unfolds_fill.1 h.unfolds).focus (hnd.2 h.nodup)
  · exact fun h => (unfolds_fill.2 h.unfolds).focus (hnd.1 h.nodup)

theorem focus_append {up : Path} {t : Shape} :
    r.Focus (path ++ up) t ↔ r.Focus up (path.fill t) := by
  rw [focus_fill, Path.fill_append, ← focus_fill]

theorem focus_cons {s : Side} {b : Bool} {i : Nat} {x y : Shape} :
    r.Focus (⟨s, b, i, y⟩ :: path) x ↔ r.Focus path (.join s b i x y) := by
  rw [focus_fill, Path.fill, ← focus_fill]

theorem Focus.exists_node {t : Shape} (h : r.Focus [] t) {s : Side} {i : Nat}
    (hi : i ∈ t.order s) : ∃ n : Node α, r.arena[i]? = some n :=
  ⟨_, Array.getElem?_eq_getElem (h.below.lt_size (Shape.mem_order.1 hi))⟩

theorem Focus.length_le {t : Shape} (h : r.Focus path t) :
    t.inorder.length + path.indices.length ≤ r.arena.size := by
  have hlt : ∀ i ∈ t.inorder ++ path.indices, i < r.arena.size := by
    intro i hi
    rcases List.mem_append.1 hi with hi | hi
    · exact h.below.lt_size hi
    · exact h.around.lt_size hi
  simpa using Arena.length_le_of_nodup h.nodup hlt

end Rooted

end InstanceTree.RedBlack
