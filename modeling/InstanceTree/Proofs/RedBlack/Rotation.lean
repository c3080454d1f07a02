import InstanceTree.Proofs.RedBlack.Layout

namespace InstanceTree.RedBlack

variable {α : Type}

namespace Arena

def touch (i : Nat) (f : Node α → Node α) (j : Nat) (n : Node α) : Node α :=
  if j = i then f n else n

def touchLinked (link : Option Nat) (f : Node α → Node α) (j : Nat) (n : Node α) : Node α :=
  if link = some j then f n else n

theorem touchLinked_some (i : Nat) (f : Node α → Node α) : touchLinked (some i) f = touch i f := by
  funext j n
  simp [touch, touchLinked, eq_comm]

end Arena

open Arena

namespace Rooted

def retouch (r : Rooted α) (h : Nat → Node α → Node α) : Rooted α :=
  ⟨r.arena.retouch h, r.root⟩

def rehang (r : Rooted α) (path : Path) (new : Option Nat) : Rooted α :=
  ⟨r.arena.retouch (hang path new), rootAfter path r.root new⟩

@[simp] theorem retouch_arena (r : Rooted α) (h : Nat → Node α → Node α) :
    (r.retouch h).arena = r.arena.retouch h := rfl

@[simp] theorem rehang_arena (r : Rooted α) (path : Path) (new : Option Nat) :
    (r.rehang path new).arena = r.arena.retouch (hang path new) := rfl

/-- The second tree comes from the first one by changing links and colours of some nodes. -/
structure Touches (nodes : List Nat) (r r' : Rooted α) : Prop where
  size : r'.arena.size = r.arena.size
  elem : ∀ i : Nat, r'.arena[i]?.map Node.elem = r.arena[i]?.map Node.elem
  other : ∀ i : Nat, i ∉ nodes → r'.arena[i]? = r.arena[i]?

theorem Touches.refl (nodes : List Nat) (r : Rooted α) : Touches nodes r r :=
  ⟨rfl, fun _ => rfl, fun _ _ => rfl⟩

theorem Touches.trans {nodes : List Nat} {r₁ r₂ r₃ : Rooted α} (h₁ : Touches nodes r₁ r₂)
    (h₂ : Touches nodes r₂ r₃) : Touches nodes r₁ r₃ :=
  ⟨h₂.size.trans h₁.size, fun i => (h₂.elem i).trans (h₁.elem i),
    fun i hi => (h₂.other i hi).trans (h₁.other i hi)⟩

theorem Touches.mono {nodes nodes' : List Nat} {r r' : Rooted α} (h : Touches nodes r r')
    (hsub : nodes ⊆ nodes') : Touches nodes' r r' :=
  ⟨h.size, h.elem, fun i hi => h.other i fun hi' => hi (hsub hi')⟩

variable {r : Rooted α} {path : Path}

theorem node_eq {i : Nat} {n : Node α} (h : r.arena[i]? = some n) : r.node i = .ok n :=
  node_eq_ok.2 h

theorem update_eq {i : Nat} (h : i < r.arena.size) (f : Node α → Node α) :
    r.update i f = .ok (r.retouch (touch i f)) := by
  simp only [update, update_eq_retouch (Array.getElem?_eq_getElem h) f, ok_bind]
  rfl

theorem setParent_eq {i : Nat} (h : i < r.arena.size) (link : Option Nat) :
    r.setParent i link = .ok (r.retouch (touch i (·.withParent link))) :=
  update_eq h _

theorem setChild_eq {i : Nat} (h : i < r.arena.size) (s : Side) (link : Option Nat) :
    r.setChild i s link = .ok (r.retouch (touch i (·.withChild s link))) :=
  update_eq h _

theorem setBlack_eq {i : Nat} (h : i < r.arena.size) (b : Bool) :
    r.setBlack i b = .ok (r.retouch (touch i (·.withBlack b))) :=
  update_eq h _

theorem retouch_id {h : Nat → Node α → Node α} (hid : ∀ i n, h i n = n) : r.retouch h = r := by
  obtain ⟨a, root⟩ := r
  have ha : a.retouch h = a := by
    apply Array.ext_getElem?
    intro i
    exact getElem?_retouch_fixed a (hid i)
  simp [retouch, ha]

theorem adopt_eq {link : Option Nat} (h : ∀ i, link = some i → i < r.arena.size)
    (parent : Option Nat) :
    r.adopt link parent =
      .ok (r.retouch (touchLinked link (·.withParent parent))) := by
  cases link with
  | none => exact congrArg Except.ok (retouch_id fun _ _ => rfl).symm
  | some i =>
    rw [touchLinked_some]
    exact setParent_eq (h i rfl) parent

theorem sideOf_eq {turn : Turn} {up : Path} {hole : Option Nat}
    (h : r.arena.HoldsPath r.root (turn :: up) hole) (hne : hole ≠ turn.other.root?) :
    r.sideOf turn.index hole = .ok turn.side := by
  obtain ⟨e, he⟩ := h.parent_node
  simp only [sideOf, node_eq he, ok_bind]
  cases turn.side with
  | left => simp [Node.joined]; rfl
  | right => simp [Node.joined, hne.symm]; rfl

theorem redirect_eq {old : Nat} (h : r.arena.HoldsPath r.root path (some old))
    (hold : old ∉ path.indices) (new : Option Nat) :
    r.redirect path.parent old new = .ok (r.rehang path new) := by
  cases path with
  | nil =>
    have hid : r.arena.retouch (hang [] new) = r.arena :=
      congrArg Rooted.arena (r.retouch_id fun _ _ => rfl)
    rw [Path.parent, redirect, rehang, hid]
    rfl
  | cons turn up =>
    have hne : some old ≠ turn.other.root? := by
      intro heq
      exact hold (by simp [Path.indices, Shape.root?_mem heq.symm])
    have hlt := h.lt_size (i := turn.index) (by simp [Path.indices])
    simp only [Path.parent, redirect, sideOf_eq h hne, ok_bind, setChild_eq hlt]
    rfl

theorem touches_retouch (r : Rooted α) {h : Nat → Node α → Node α} (root : Option Nat)
    {nodes : List Nat} (helem : ∀ i n, (h i n).elem = n.elem)
    (hother : ∀ i ∉ nodes, ∀ n, h i n = n) : Touches nodes r ⟨r.arena.retouch h, root⟩ := by
  refine ⟨size_retouch _ _, ?_, ?_⟩
  · intro i
    rw [getElem?_retouch]
    cases r.arena[i]? <;> simp [helem]
  · intro i hi
    exact getElem?_retouch_fixed _ (hother i hi)

theorem Focus.nodes_disjoint {t : Shape} (h : r.Focus path t) :
    t.inorder.Nodup ∧ path.indices.Nodup ∧ ∀ i ∈ t.inorder, i ∉ path.indices := by
  obtain ⟨ht, hp, hd⟩ := List.nodup_append.1 h.nodup
  refine ⟨ht, hp, ?_⟩
  intro i hi hi'
  exact hd i hi i hi' rfl

theorem Focus.setBlack {b b' : Bool} {l right : Shape} {i : Nat}
    (h : r.Focus path (.node b l i right)) :
    Yields (r.setBlack i b') fun r' =>
      r'.Focus path (.node b' l i right) ∧
        Touches (path.fill (.node b l i right)).inorder r r' := by
  obtain ⟨hnd, -, hd⟩ := h.nodes_disjoint
  obtain ⟨hp, ⟨⟨e, he⟩, hl, hr⟩, hall⟩ := h
  have hi : i < r.arena.size := (Array.getElem?_eq_some_iff.1 he).1
  refine .intro (setBlack_eq hi b') ⟨⟨hp.frame ?_, ⟨⟨e, ?_⟩, hl.frame ?_, hr.frame ?_⟩, hall⟩, ?_⟩
  · intro j hj
    have hij : j ≠ i := by
      intro heq
      subst heq
      exact hd j (by simp [Shape.inorder]) hj
    exact getElem?_retouch_fixed _ fun n => by simp [touch, hij]
  · simp [he, touch, Node.withBlack]
  · intro j hj
    have hij : j ≠ i := by
      simp only [Shape.inorder] at hnd
      grind
    exact getElem?_retouch_fixed _ fun n => by simp [touch, hij]
  · intro j hj
    have hij : j ≠ i := by
      simp only [Shape.inorder] at hnd
      grind
    exact getElem?_retouch_fixed _ fun n => by simp [touch, hij]
  · apply touches_retouch r _
    · intro j n
      simp only [touch]
      split <;> rfl
    · intro j hj n
      have hij : j ≠ i := by
        intro heq
        subst heq
        exact hj (by simp [Path.inorder_fill, Shape.inorder])
      simp [touch, hij]

/-- What turning `up` above its parent `n` does to each node; `inner` is the child of `up` that
changes over to `n`. -/
def turned (path : Path) (s : Side) (n up : Nat) (inner : Option Nat) (i : Nat) (m : Node α) :
    Node α :=
  touch n (·.withParent (some up)) i <| touch up (·.withChild s (some n)) i <|
    hang path (some up) i <| touch up (·.withParent path.parent) i <|
    touchLinked inner (·.withParent (some n)) i <| touch n (·.withChild s.opp inner) i m

theorem turned_of_ne {s : Side} {n up i : Nat} {inner : Option Nat} (hn : i ≠ n) (hup : i ≠ up)
    (hin : inner ≠ some i) (m : Node α) :
    turned path s n up inner i m = hang path (some up) i m := by
  simp [turned, touch, touchLinked, hn, hup, hin]

theorem turned_fixed {s : Side} {n up i : Nat} {inner : Option Nat} (hn : i ≠ n) (hup : i ≠ up)
    (hin : inner ≠ some i) (hp : path.parent ≠ some i) (m : Node α) :
    turned path s n up inner i m = m := by
  rw [turned_of_ne hn hup hin, hang_of_ne hp]

theorem turned_elem (s : Side) (n up : Nat) (inner : Option Nat) (i : Nat) (m : Node α) :
    (turned path s n up inner i m).elem = m.elem := by
  simp only [turned, touch, touchLinked]
  repeat' split
  all_goals simp

theorem rotate_eq {s : Side} {b b' : Bool} {n up : Nat} {x inner z : Shape}
    (h : r.Focus path (.join s b n x (.join s b' up inner z))) :
    r.rotate s n = .ok ⟨r.arena.retouch (turned path s n up inner.root?),
      rootAfter path r.root (some up)⟩ := by
  obtain ⟨hnd, -, hd⟩ := h.nodes_disjoint
  obtain ⟨hp, hj, -⟩ := h
  obtain ⟨⟨e, he⟩, -, hj'⟩ := holds_join.1 hj
  obtain ⟨⟨e', he'⟩, hin, -⟩ := holds_join.1 hj'
  simp only [Shape.root?_join] at he hp
  simp only [Shape.mem_inorder_join] at hd
  have hn : n < r.arena.size := (Array.getElem?_eq_some_iff.1 he).1
  have hup : up < r.arena.size := (Array.getElem?_eq_some_iff.1 he').1
  have hlt : ∀ i, inner.root? = some i → i < r.arena.size := fun i hi =>
    hin.lt_size (Shape.root?_mem hi)
  have hmem : ∀ i, inner.root? = some i → i ∈ inner.inorder := fun i => Shape.root?_mem
  have hrn : inner.root? ≠ some n := by
    intro hc
    have := (Shape.inorder_join_perm s b n x _).nodup_iff.1 hnd
    simp [hmem n hc] at this
  simp only [rotate, node_eq he, node_eq he', ok_bind, Node.joined_child_opp, Node.joined_child]
  rw [setChild_eq hn, ok_bind, adopt_eq (by simpa using hlt), ok_bind,
    node_eq (n := .joined s path.parent x.root? inner.root? b e) (by
      simp [he, touch, touchLinked, hrn]), ok_bind, Node.joined_parent,
    setParent_eq (by simpa using hup), ok_bind,
    redirect_eq (r := ((r.retouch _).retouch _).retouch _) (hp.frame ?_) ?_, ok_bind,
    setChild_eq (by simpa using hup), ok_bind, setParent_eq (by simpa using hn)]
  · simp only [retouch, rehang, Arena.retouch_retouch]
    rfl
  · intro i hi
    have hin : i ≠ n := by grind
    have hiu : i ≠ up := by grind
    have hir : inner.root? ≠ some i := by grind
    simp only [retouch_arena, Arena.retouch_retouch]
    exact getElem?_retouch_fixed _ fun m => by simp [touch, touchLinked, hin, hiu, hir]
  · exact hd n (.inl rfl)

theorem Focus.rotate {s : Side} {b b' : Bool} {n up : Nat} {x inner z : Shape}
    (h : r.Focus path (.join s b n x (.join s b' up inner z))) :
    Yields (r.rotate s n) fun r' =>
      r'.Focus path (.join s b' up (.join s b n x inner) z) ∧
        Touches (path.fill (.join s b n x (.join s b' up inner z))).inorder r r' := by
  have hrot := rotate_eq h
  obtain ⟨hnd, hpnd, hd⟩ := h.nodes_disjoint
  obtain ⟨hp, hj, hall⟩ := h
  obtain ⟨⟨e, he⟩, hx, hj'⟩ := holds_join.1 hj
  obtain ⟨⟨e', he'⟩, hin, hz⟩ := holds_join.1 hj'
  simp only [Shape.root?_join] at he hp
  have hroot : ∀ i, inner.root? = some i → i ∈ inner.inorder := fun i => Shape.root?_mem
  have hpar : ∀ i, path.parent = some i → i ∈ path.indices := fun i => Path.parent_mem
  have hperm := (Shape.inorder_join_perm s b n x _).trans
    (((Shape.inorder_join_perm s b' up inner z).append_left x.inorder).cons n)
  have hnd' := hperm.nodup_iff.1 hnd
  simp only [Shape.mem_inorder_join] at hd
  have hnup : n ≠ up := by grind
  have hrn : inner.root? ≠ some n := by grind
  have hru : inner.root? ≠ some up := by grind
  have hpn : path.parent ≠ some n := by grind
  have hpu : path.parent ≠ some up := by grind
  refine .intro hrot ⟨⟨?_, holds_join.2 ⟨⟨e', ?_⟩, holds_join.2 ⟨⟨e, ?_⟩, ?_, ?_⟩, ?_⟩, ?_⟩, ?_⟩
  · rw [Shape.root?_join]
    apply hp.plug hpnd
    intro i hi
    rw [getElem?_retouch]
    congr 1
    funext m
    exact turned_of_ne (by grind) (by grind) (by grind) m
  · simp [he', turned, touch, touchLinked, hru, hang_of_ne hpu, hnup.symm]
  · simp [he, turned, touch, touchLinked, hrn, hang_of_ne hpn, hnup]
  · apply hx.frame
    intro i hi
    exact getElem?_retouch_fixed _ (turned_fixed (by grind) (by grind) (by grind) (by grind))
  · apply hin.reparent (by grind)
    intro i hi
    have hi' : i ≠ n ∧ i ≠ up ∧ path.parent ≠ some i := by grind
    rw [getElem?_retouch]
    congr 1
    funext m
    simp [turned, touch, touchLinked, hi', hang_of_ne hi'.2.2]
  · apply hz.frame
    intro i hi
    exact getElem?_retouch_fixed _ (turned_fixed (by grind) (by grind) (by grind) (by grind))
  · rw [Shape.inorder_rotate]
    exact hall
  · apply touches_retouch r _ (turned_elem s n up _)
    intro i hi m
    rw [(Path.inorder_fill_perm path _).mem_iff] at hi
    simp only [List.mem_append, Shape.mem_inorder_join, not_or] at hi
    exact turned_fixed (by grind) (by grind) (by grind) (by grind) m

end Rooted

end InstanceTree.RedBlack
