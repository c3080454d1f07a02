import InstanceTree.Proofs.RedBlack.Traversal
import InstanceTree.RedBlack.Drain

namespace InstanceTree.RedBlack

open Arena

variable {α : Type}

def Shape.postorder : Shape → List Nat
  | .leaf => []
  | .node _ l i r => l.postorder ++ r.postorder ++ [i]

theorem Shape.postorder_perm (t : Shape) : t.postorder.Perm t.inorder := by
  induction t with
  | leaf => exact .refl _
  | node b l i r ihl ihr =>
    simp only [postorder, inorder, List.append_assoc]
    exact ihl.append ((ihr.append_right [i]).trans (List.perm_append_singleton i _))

/-- Where the way to the hole goes right, there is nothing on the left: the hole comes before
every other node in post-order. -/
def Path.Leading (p : Path) : Prop :=
  ∀ turn ∈ p, turn.side = .right → turn.other = .leaf

theorem Path.Leading.append {p q : Path} (hp : p.Leading) (hq : q.Leading) :
    Path.Leading (p ++ q) :=
  List.forall_mem_append.2 ⟨hp, hq⟩

theorem Path.Leading.tail {turn : Turn} {p : Path} (h : Path.Leading (turn :: p)) : p.Leading :=
  (List.forall_mem_cons.1 h).2

theorem Path.postorder_fill {p : Path} (h : p.Leading) (t : Shape) :
    (p.fill t).postorder = t.postorder ++ (p.fill .leaf).postorder := by
  induction p generalizing t with
  | nil => simp [fill, Shape.postorder]
  | cons turn up ih =>
    obtain ⟨side, b, i, other⟩ := turn
    simp only [fill]
    rw [ih h.tail (Shape.join side b i t other), ih h.tail (Shape.join side b i .leaf other),
      ← List.append_assoc]
    congr 1
    cases side with
    | left => simp [Shape.join, Shape.postorder]
    | right =>
      have hother : other = .leaf := h _ List.mem_cons_self rfl
      simp [hother, Shape.join, Shape.postorder]

@[simp] theorem Node.unlinked_withChild (n : Node α) (s : Side) (c : Option Nat) :
    (n.withChild s c).unlinked = n.unlinked := by
  cases s <;> rfl

namespace Arena

def unlinkAll (a : Arena α) (nodes : List Nat) : Arena α :=
  a.retouch fun i n => if i ∈ nodes then n.unlinked else n

theorem unlinkAll_nil (a : Arena α) : a.unlinkAll [] = a := by
  apply Array.ext_getElem?
  intro i
  rw [unlinkAll, getElem?_retouch_fixed a fun _ => by simp]

def visits (a : Arena α) (nodes : List Nat) : List (Nat × Node α) :=
  nodes.filterMap fun i => a[i]?.map fun n => (i, n.unlinked)

/-- An arena differs from another one in links only, and only in those of some nodes. -/
structure Relinks (nodes : List Nat) (a b : Arena α) : Prop where
  unlinked : ∀ i : Nat, b[i]?.map Node.unlinked = a[i]?.map Node.unlinked
  other : ∀ i : Nat, i ∉ nodes → b[i]? = a[i]?

theorem Relinks.visits {nodes : List Nat} {a b : Arena α} (h : Relinks nodes a b)
    (l : List Nat) : b.visits l = a.visits l := by
  apply List.filterMap_congr
  intro i _
  have hi := congrArg (Option.map (Prod.mk i)) (h.unlinked i)
  rw [Option.map_map, Option.map_map] at hi
  exact hi

theorem Relinks.unlinkAll {nodes rest : List Nat} {a b : Arena α} {n : Nat}
    (h : Relinks nodes a b) (hn : b[n]? = a[n]?.map Node.unlinked)
    (hnodes : ∀ i ∈ nodes, i = n ∨ i ∈ rest) : b.unlinkAll rest = a.unlinkAll (n :: rest) := by
  apply Array.ext_getElem?
  intro i
  simp only [Arena.unlinkAll, getElem?_retouch]
  by_cases hrest : i ∈ rest
  · simp only [hrest, List.mem_cons, or_true, if_true]
    exact h.unlinked i
  · by_cases hin : i = n
    · subst hin
      rw [hn, Option.map_map]
      simp only [hrest, List.mem_cons, true_or, if_true, if_false]
      rfl
    · rw [h.other i fun hi => (hnodes i hi).elim hin hrest]
      simp [hin, hrest]

theorem visits_cons {a : Arena α} {i : Nat} {n : Node α} {nodes : List Nat} (h : a[i]? = some n) :
    a.visits (i :: nodes) = (i, n.unlinked) :: a.visits nodes := by
  simp [visits, h]

theorem visits_entries (a : Arena α) (nodes : List Nat) :
    ((a.visits nodes).map fun entry => (entry.1, entry.2.elem)) = a.entries nodes := by
  rw [visits, entries, List.map_filterMap]
  simp only [Option.map_map]
  rfl

theorem leafBelow_spec {a : Arena α} {p : Option Nat} {t : Shape} {i : Nat} (h : a.Holds p t)
    (hi : t.root? = some i) {fuel : Nat} (hfuel : t.height ≤ fuel) :
    ∃ (q : Path) (b : Bool) (n : Nat), t = q.fill (.node b .leaf n .leaf) ∧ q.Leading ∧
      a.leafBelow fuel i = .ok n := by
  induction t generalizing p i fuel with
  | leaf => cases hi
  | node b l j right ihl ihr =>
    cases hi
    obtain ⟨⟨e, he⟩, hl, hr⟩ := h
    simp only [Shape.height] at hfuel
    obtain ⟨fuel, rfl⟩ : ∃ f, fuel = f + 1 := ⟨fuel - 1, by omega⟩
    have hdl : l.height ≤ fuel := by omega
    have hdr : right.height ≤ fuel := by omega
    simp only [leafBelow, node_of_getElem? he, ok_bind]
    cases hlr : l.root? with
    | some c =>
      obtain ⟨q, b', n, rfl, hq, hn⟩ := ihl hl hlr hdl
      have hturned : Path.Leading (q ++ [⟨.left, b, j, right⟩]) :=
        hq.append (by simp [Path.Leading])
      exact ⟨_, b', n, by rw [Path.fill_append]; rfl, hturned, hn⟩
    | none =>
      rw [Shape.root?_eq_none] at hlr
      subst hlr
      cases hrr : right.root? with
      | some c =>
        obtain ⟨q, b', n, rfl, hq, hn⟩ := ihr hr hrr hdr
        have hturned : Path.Leading (q ++ [⟨.right, b, j, .leaf⟩]) :=
          hq.append (by simp [Path.Leading])
        exact ⟨_, b', n, by rw [Path.fill_append]; rfl, hturned, hn⟩
      | none =>
        rw [Shape.root?_eq_none] at hrr
        subst hrr
        exact ⟨[], b, j, rfl, by simp [Path.Leading], rfl⟩

theorem cut_eq_redirect (a : Arena α) (root parent : Option Nat) (child : Nat) :
    a.cut parent child = Rooted.arena <$> Rooted.redirect ⟨a, root⟩ parent child none := by
  cases parent with
  | none => rfl
  | some p =>
    simp only [cut, Rooted.redirect, Rooted.sideOf, Rooted.setChild, Rooted.update, Rooted.node]
    cases hp : a.node p with
    | error fault => rfl
    | ok m =>
      simp only [ok_bind, pure_bind]
      generalize a.update p _ = x
      cases x <;> rfl

end Arena

theorem unlinked_hang (p : Path) (new : Option Nat) (i : Nat) (n : Node α) :
    (hang p new i n).unlinked = n.unlinked := by
  cases p with
  | nil => rfl
  | cons turn up =>
    simp only [hang]
    split <;> simp

namespace Rooted

variable {r : Rooted α} {path : Path} {b : Bool} {n : Nat}

/-- A leaf is cut off: the rest of the tree stays, and the leaf has no links any more. -/
theorem Focus.cut (h : r.Focus path (.node b .leaf n .leaf)) :
    Yields (do
      let a ← r.arena.cut path.parent n
      a.update n fun m => { m with parent := none }) fun a =>
        (∃ root, Focus ⟨a, root⟩ path .leaf) ∧
          Relinks (path.fill (.node b .leaf n .leaf)).inorder r.arena a ∧
          a[n]? = r.arena[n]?.map Node.unlinked := by
  obtain ⟨-, hpnd, hd⟩ := h.nodes_disjoint
  have hn : n ∉ path.indices := hd n (by simp [Shape.inorder])
  have hlt : n < r.arena.size := h.below.lt_size (by simp [Shape.inorder])
  have hnp : ∀ m : Node α, hang path none n m = m :=
    hang_of_ne (fun hp => hn (Path.parent_mem hp)) none
  rw [cut_eq_redirect r.arena r.root, redirect_eq h.around hn, map_ok, ok_bind, rehang_arena,
    update_eq_retouch (Array.getElem?_eq_getElem (by simpa using hlt)), Arena.retouch_retouch]
  refine .intro rfl ⟨⟨rootAfter path r.root none, ⟨?_, trivial, by simpa [Shape.inorder]⟩⟩,
    ⟨?_, ?_⟩, ?_⟩
  · apply h.around.plug hpnd
    intro i hi
    have hin : i ≠ n := by
      intro heq
      subst heq
      exact hn hi
    rw [getElem?_retouch]
    congr 1
    funext m
    simp [hin]
  · intro i
    rw [getElem?_retouch, Option.map_map]
    congr 1
    funext m
    simp only [Function.comp_apply]
    split
    · exact unlinked_hang path none i m
    · exact unlinked_hang path none i m
  · intro i hi
    simp only [(Path.inorder_fill_perm path _).mem_iff, Shape.inorder, List.nil_append,
      List.cons_append, List.mem_cons, not_or] at hi
    apply getElem?_retouch_fixed
    intro m
    rw [hang_of_ne fun hip => hi.2 (Path.parent_mem hip)]
    simp [hi.1]
  · obtain ⟨⟨e, he⟩, -⟩ := h.below
    rw [getElem?_retouch, he]
    simp [hnp, Node.unlinked, Shape.root?]

/-- What is left of a tree from a hole on that comes first in post-order is taken apart in
post-order. -/
theorem drainFrom_eq {t : Shape} {i : Nat} (h : r.Focus path t) (hpath : path.Leading)
    (hi : t.root? = some i) {fuel : Nat} (hfuel : (path.fill t).inorder.length < fuel) :
    r.arena.drainFrom fuel (some i) =
      .ok (r.arena.unlinkAll (path.fill t).postorder, r.arena.visits (path.fill t).postorder) := by
  induction fuel generalizing r path t i with
  | zero => omega
  | succ fuel ih =>
    have hlen := h.length_le
    have hheight := t.height_le_length
    have hdepth : t.height ≤ r.arena.size + 1 := by omega
    obtain ⟨q, b, n, rfl, hq, hleaf⟩ := leafBelow_spec h.below hi hdepth
    have hf : r.Focus (q ++ path) (.node b .leaf n .leaf) := focus_append.2 h
    have hup := hq.append hpath
    rw [← Path.fill_append] at hfuel ⊢
    generalize q ++ path = up at hf hup hfuel ⊢
    obtain ⟨⟨e, he⟩, -⟩ := hf.below
    have hcut := hf.cut
    have hpost : (up.fill (.node b .leaf n .leaf)).postorder =
        n :: (up.fill .leaf).postorder := by
      rw [Path.postorder_fill hup]
      rfl
    have hin := Path.inorder_fill_perm up (.node b .leaf n .leaf)
    have hrest := Path.inorder_fill_perm up .leaf
    simp only [drainFrom, hleaf, node_of_getElem? he, ok_bind]
    rw [← bind_assoc]
    obtain ⟨a, ha, ⟨root, hf'⟩, hrelinks, hn⟩ := hcut
    have hm : a[n]? = some (Node.unlinked ⟨up.parent, none, none, b, e⟩) := by
      rw [hn, he]
      rfl
    have hall : a.unlinkAll (up.fill .leaf).postorder =
        r.arena.unlinkAll (n :: (up.fill .leaf).postorder) := by
      apply hrelinks.unlinkAll hn
      intro j hj
      rw [(Shape.postorder_perm _).mem_iff, hrest.mem_iff]
      simpa [Shape.inorder] using hin.mem_iff.1 hj
    have hvisits := hrelinks.visits (up.fill .leaf).postorder
    rw [hpost, visits_cons he, ← hall, ← hvisits, ha, ok_bind, node_of_getElem? hm, ok_bind]
    cases up with
    | nil =>
      have hstop : a.drainFrom fuel none = .ok (a, []) := by
        cases fuel <;> rfl
      rw [Path.parent, hstop]
      simp only [Path.fill, Shape.postorder, unlinkAll_nil]
      rfl
    | cons turn up =>
      have hlength : (Path.fill (turn :: up) .leaf).inorder.length < fuel := by
        have hin := hin.length_eq
        have hrest := hrest.length_eq
        simp only [Shape.inorder, List.length_append, List.length_cons, List.length_nil]
          at hin hrest
        omega
      rw [Path.parent, ih (focus_cons.1 hf') hup.tail (Shape.root?_join ..) hlength]
      rfl

theorem drain_eq {t : Shape} (h : r.Focus [] t) :
    r.arena.drain r.root = .ok (r.arena.unlinkAll t.postorder, r.arena.visits t.postorder) := by
  have hroot : r.root = t.root? := h.around
  have hlen := h.length_lt
  rw [Arena.drain, hroot]
  cases hi : t.root? with
  | none =>
    rw [Shape.root?_eq_none] at hi
    subst hi
    simp only [Shape.postorder, unlinkAll_nil]
    rfl
  | some i =>
    exact drainFrom_eq h (by simp [Path.Leading]) hi
      (show t.inorder.length < r.arena.size + 2 by omega)

theorem drain_spec {t : Shape} (h : r.Focus [] t) :
    Yields (r.arena.drain r.root) fun out =>
      (out.2.map fun entry => (entry.1, entry.2.elem)).Perm (r.arena.entries t.inorder) := by
  apply Yields.intro (drain_eq h)
  rw [visits_entries]
  exact t.postorder_perm.filterMap _

end Rooted

end InstanceTree.RedBlack
