import InstanceTree.Proofs.RedBlack.Traversal

namespace InstanceTree.RedBlack

variable {α : Type}

namespace Arena

def InRange (a : Arena α) : Prop :=
  ∀ n ∈ a.toList, (∀ i ∈ n.parent, i < a.size) ∧ (∀ i ∈ n.left, i < a.size) ∧
    ∀ i ∈ n.right, i < a.size

instance (a : Arena α) : Decidable a.InRange :=
  inferInstanceAs (Decidable (∀ n ∈ a.toList, _))

theorem InRange.child_lt {a : Arena α} (h : a.InRange) {i j : Nat} {n : Node α} {s : Side}
    (hn : a[i]? = some n) (hj : n.child s = some j) : j < a.size := by
  obtain ⟨-, hl, hr⟩ := h n (Array.mem_def.1 (Array.mem_of_getElem? hn))
  cases s with
  | left => exact hl j hj
  | right => exact hr j hj

/-- The way up along parent links, which ends at a node without a parent. -/
inductive Lineage (a : Arena α) : Option Nat → List Nat → Prop
  | top : Lineage a none []
  | up {i : Nat} {n : Node α} {l : List Nat} : a[i]? = some n → Lineage a n.parent l →
      Lineage a (some i) (i :: l)

namespace Lineage

variable {a : Arena α} {link : Option Nat} {l l' : List Nat}

theorem unique (h : a.Lineage link l) (h' : a.Lineage link l') : l = l' := by
  induction h generalizing l' with
  | top =>
    cases h'
    rfl
  | up hn _ ih =>
    cases h' with
    | up hn' h' =>
      cases hn.symm.trans hn'
      rw [ih h']

theorem exists_from {i : Nat} (h : a.Lineage link l) (hi : i ∈ l) :
    ∃ l', a.Lineage (some i) (i :: l') ∧ l'.length < l.length := by
  induction h with
  | top => cases hi
  | @up j n l hn hl ih =>
    rcases List.mem_cons.1 hi with rfl | hi
    · exact ⟨l, .up hn hl, Nat.lt_succ_self _⟩
    · obtain ⟨l', hl', hlen⟩ := ih hi
      exact ⟨l', hl', Nat.lt_succ_of_lt hlen⟩

/-- A way up that came to a node again would never end. -/
theorem nodup (h : a.Lineage link l) : l.Nodup := by
  induction h with
  | top => exact .nil
  | @up i n l hn hl ih =>
    refine List.nodup_cons.2 ⟨?_, ih⟩
    intro hi
    obtain ⟨l', hl', hlen⟩ := hl.exists_from hi
    have heq := hl'.unique (.up hn hl)
    simp only [List.cons.injEq, true_and] at heq
    rw [heq] at hlen
    exact Nat.lt_irrefl _ hlen

theorem lt_size (h : a.Lineage link l) : ∀ i ∈ l, i < a.size := by
  induction h with
  | top => simp
  | up hn _ ih => exact List.forall_mem_cons.2 ⟨(Array.getElem?_eq_some_iff.1 hn).1, ih⟩

theorem length_le (h : a.Lineage link l) : l.length ≤ a.size :=
  length_le_of_nodup h.nodup h.lt_size

end Lineage

end Arena

def Path.line (p : Path) : List Nat :=
  p.map Turn.index

/-- Both links of a node lead to one child. -/
def Shape.Shared (l r : Shape) : Prop :=
  l.root?.isSome ∧ l.root? = r.root?

instance (l r : Shape) : Decidable (l.Shared r) :=
  inferInstanceAs (Decidable (_ ∧ _))

theorem Shape.shared_of_mem {l r : Shape} {i : Nat} (hi : i ∈ l.inorder)
    (h : l.root? = r.root?) : l.Shared r := by
  obtain ⟨j, hj⟩ := exists_root hi
  exact ⟨by simp [hj], h⟩

/-- The nodes in the order in which a walk along next nodes comes to them: it passes over a node
whose links lead to one child, and takes that child once. -/
def Shape.seen : Shape → List Nat
  | .leaf => []
  | .node _ l i r => if l.Shared r then r.seen else l.seen ++ i :: r.seen

theorem Shape.seen_subset (t : Shape) : t.seen ⊆ t.inorder := by
  induction t with
  | leaf => exact List.Subset.refl _
  | node b l i r ihl ihr =>
    intro j hj
    simp only [seen] at hj
    simp only [inorder, List.mem_append, List.mem_cons]
    split at hj
    · exact .inr (.inr (ihr hj))
    · rcases List.mem_append.1 hj with hj | hj
      · exact .inl (ihl hj)
      · exact .inr ((List.mem_cons.1 hj).imp id fun hj => ihr hj)

namespace Rooted

open Arena

variable {r : Rooted α} {path : Path} {t : Shape}

theorem lineage_of_holdsPath {a : Arena α} {root : Option Nat} {p : Path} {hole : Option Nat}
    (h : a.HoldsPath root p hole) : a.Lineage p.parent p.line := by
  induction p generalizing hole with
  | nil => exact .top
  | cons turn up ih =>
    obtain ⟨⟨e, he⟩, -, hup⟩ := h
    refine .up he ?_
    rw [Node.joined_parent]
    exact ih hup

namespace Unfolds

theorem left {b : Bool} {l right : Shape} {i : Nat} (h : r.Unfolds path (.node b l i right)) :
    r.Unfolds (⟨.left, b, i, right⟩ :: path) l :=
  unfolds_cons.2 h

theorem right {b : Bool} {l right : Shape} {i : Nat} (h : r.Unfolds path (.node b l i right)) :
    r.Unfolds (⟨.right, b, i, l⟩ :: path) right :=
  unfolds_cons.2 h

theorem lineage (h : r.Unfolds path t) {i : Nat} (hi : t.root? = some i) :
    r.arena.Lineage (some i) (i :: path.line) := by
  obtain ⟨n, hn, hp⟩ := h.below.root_node hi
  exact .up hn (hp ▸ lineage_of_holdsPath h.around)

theorem exists_way (h : r.Unfolds path t) {j : Nat} (hj : j ∈ t.inorder) :
    ∃ way : List Nat, way.getLast? = t.root? ∧
      r.arena.Lineage (some j) (way ++ path.line) := by
  induction t generalizing path with
  | leaf => cases hj
  | node b l i right ihl ihr =>
    simp only [Shape.inorder, List.mem_append, List.mem_cons] at hj
    rcases hj with hj | rfl | hj
    · obtain ⟨way, -, hway⟩ := ihl h.left hj
      refine ⟨way ++ [i], by simp, ?_⟩
      simpa [Path.line] using hway
    · exact ⟨[j], rfl, h.lineage rfl⟩
    · obtain ⟨way, -, hway⟩ := ihr h.right hj
      refine ⟨way ++ [i], by simp, ?_⟩
      simpa [Path.line] using hway

variable {s : Side} {b : Bool} {i : Nat} {x y : Shape}

theorem root_not_mem (h : r.Unfolds path (.join s b i x y)) : i ∉ x.inorder := by
  intro hi
  obtain ⟨way, hlast, hway⟩ := (unfolds_cons.2 h).exists_way hi
  have heq : way ++ i :: path.line = i :: path.line :=
    hway.unique (h.lineage (Shape.root?_join ..))
  have hnil : way = [] := List.append_left_eq_self.1 heq
  subst hnil
  rw [List.getLast?_nil, eq_comm, Shape.root?_eq_none] at hlast
  subst hlast
  cases hi

theorem root_eq_of_mem (h : r.Unfolds path (.join s b i x y)) {j : Nat} (hx : j ∈ x.inorder)
    (hy : j ∈ y.inorder) : x.root? = y.root? := by
  obtain ⟨way, hlast, hway⟩ := (unfolds_cons.2 h).exists_way hx
  rw [← Shape.join_opp] at h
  obtain ⟨way', hlast', hway'⟩ := (unfolds_cons.2 h).exists_way hy
  have heq : way ++ i :: path.line = way' ++ i :: path.line := hway.unique hway'
  rw [← hlast, ← hlast', List.append_cancel_right heq]

theorem nodup_seen (h : r.Unfolds path t) : t.seen.Nodup := by
  induction t generalizing path with
  | leaf => exact .nil
  | node b l i right ihl ihr =>
    have hl : r.Unfolds path (.join .left b i l right) := h
    have hr : r.Unfolds path (.join .right b i right l) := h
    have hndl := ihl h.left
    have hndr := ihr h.right
    simp only [Shape.seen]
    split
    · exact hndr
    · next hs =>
      refine List.nodup_append.2 ⟨hndl, List.nodup_cons.2 ⟨?_, hndr⟩, ?_⟩
      · exact fun hi => hr.root_not_mem (right.seen_subset hi)
      · intro j hj k hk hjk
        subst hjk
        have hjl := l.seen_subset hj
        rcases List.mem_cons.1 hk with rfl | hk
        · exact hl.root_not_mem hjl
        · exact hs (Shape.shared_of_mem hjl (hl.root_eq_of_mem hjl (right.seen_subset hk)))

theorem height_le (h : r.Unfolds path t) : t.height + path.length ≤ r.arena.size := by
  induction t generalizing path with
  | leaf =>
    have hlen := (lineage_of_holdsPath h.around).length_le
    simpa [Shape.height, Path.line] using hlen
  | node b l i right ihl ihr =>
    have hl := ihl h.left
    have hr := ihr h.right
    simp only [List.length_cons] at hl hr
    simp only [Shape.height]
    omega

theorem length_seen_le (h : r.Unfolds path t) : t.seen.length ≤ r.arena.size :=
  length_le_of_nodup h.nodup_seen fun _ hi => h.below.lt_size (t.seen_subset hi)

end Unfolds

end Rooted

/-- The nodes that a walk comes to after all nodes below the hole, which `hole` leads into. -/
def Path.ahead : Path → Option Nat → List Nat
  | [], _ => []
  | turn :: up, hole =>
    if turn.side = .right ∨ turn.other.root? = hole then ahead up (some turn.index)
    else turn.index :: turn.other.seen ++ ahead up (some turn.index)

theorem Arena.extremeFrom_seen {a : Arena α} {p : Option Nat} {t : Shape} {i : Nat}
    (h : a.Holds p t) (hi : t.root? = some i) {fuel : Nat} (hfuel : t.height ≤ fuel) :
    ∃ j, a.extremeFrom .left fuel i = .ok j ∧ t.seen.head? = some j := by
  induction t generalizing p i fuel with
  | leaf => cases hi
  | node b l k right ihl ihr =>
    cases hi
    obtain ⟨⟨e, he⟩, hl, hr⟩ := h
    simp only [Shape.height] at hfuel
    obtain ⟨fuel, rfl⟩ : ∃ f, fuel = f + 1 := ⟨fuel - 1, by omega⟩
    simp only [extremeFrom, node_of_getElem? he, ok_bind, Node.child, Shape.seen]
    cases hlr : l.root? with
    | none =>
      rw [Shape.root?_eq_none] at hlr
      subst hlr
      exact ⟨k, rfl, by simp [Shape.Shared, Shape.root?, Shape.seen]⟩
    | some j =>
      by_cases hs : l.Shared right
      · simpa only [hs, if_true] using ihr hr (hs.2 ▸ hlr) (by omega : right.height ≤ fuel)
      · obtain ⟨m, hm, hhead⟩ := ihl hl hlr (by omega : l.height ≤ fuel)
        refine ⟨m, hm, ?_⟩
        rw [if_neg hs, List.head?_append, hhead, Option.some_or]

namespace Rooted

variable {r : Rooted α} {path : Path} {t : Shape}

namespace Unfolds

theorem first_eq (h : r.Unfolds [] t) : r.arena.first r.root = .ok t.seen.head? := by
  have hroot : r.root = t.root? := h.around
  have hheight := h.height_le
  rw [hroot]
  cases hi : t.root? with
  | none =>
    rw [Shape.root?_eq_none] at hi
    subst hi
    rfl
  | some i =>
    simp only [List.length_nil] at hheight
    obtain ⟨j, hj, hhead⟩ := Arena.extremeFrom_seen h.below hi
      (by omega : t.height ≤ r.arena.size + 1)
    simp [Arena.first, Arena.extreme, hj, hhead]

/-- A climb from the last node below a hole passes over the nodes whose links lead to one child as
if they had it on the right only. -/
theorem climb_eq (h : r.Unfolds path t) {i : Nat} (hi : t.root? = some i) {fuel : Nat}
    (hfuel : path.length < fuel) :
    r.arena.climb .right fuel i = .ok (path.ahead (some i)).head? := by
  induction fuel generalizing path t i with
  | zero => omega
  | succ fuel ih =>
    obtain ⟨m, hm, hmp⟩ := h.below.root_node hi
    simp only [Arena.climb, Arena.node_of_getElem? hm, ok_bind, hmp]
    cases path with
    | nil => rfl
    | cons turn up =>
      obtain ⟨side, b, p, other⟩ := turn
      obtain ⟨e, he⟩ := h.around.parent_node
      simp only [List.length_cons] at hfuel
      have hup := ih (unfolds_cons.1 h) (Shape.root?_join ..) (by omega : up.length < fuel)
      simp only [Path.parent, Arena.node_of_getElem? he, ok_bind, Path.ahead]
      cases side with
      | left =>
        by_cases ho : other.root? = some i
        · simpa [Node.joined, Node.child, ho] using hup
        · simp [Node.joined, Node.child, ho]
          rfl
      | right => simpa [Node.joined, Node.child, hi] using hup

theorem next_of_not_shared {b : Bool} {i : Nat} {l right : Shape}
    (h : r.Unfolds path (.node b l i right)) :
    r.arena.next i = .ok (right.seen ++ path.ahead (some i)).head? := by
  obtain ⟨⟨e, he⟩, -, hr⟩ := h.below
  have hheight := h.right.height_le
  simp only [List.length_cons] at hheight
  simp only [Arena.next, Arena.neighbour, Arena.node_of_getElem? he, ok_bind, Node.child]
  cases hrr : right.root? with
  | none =>
    rw [Shape.root?_eq_none] at hrr
    subst hrr
    exact h.climb_eq rfl (by omega)
  | some c =>
    obtain ⟨j, hj, hhead⟩ := Arena.extremeFrom_seen hr hrr
      (by omega : right.height ≤ r.arena.size + 1)
    simp [Arena.extreme, hj, hhead]

theorem next_eq (h : r.Unfolds path t) {xs ys : List Nat} {i : Nat}
    (ht : t.seen = xs ++ i :: ys) : r.arena.next i = .ok (ys ++ path.ahead t.root?).head? := by
  induction t generalizing path xs ys with
  | leaf => simp [Shape.seen] at ht
  | node b l k right ihl ihr =>
    simp only [Shape.seen] at ht
    split at ht
    · simpa [Path.ahead] using ihr h.right ht
    · next hs =>
      rcases List.append_eq_append_iff.1 ht with ⟨us, rfl, hus⟩ | ⟨us, hl, hus⟩
      · cases us with
        | nil =>
          simp only [List.nil_append, List.cons.injEq] at hus
          obtain ⟨rfl, rfl⟩ := hus
          exact h.next_of_not_shared
        | cons u us =>
          simp only [List.cons_append, List.cons.injEq] at hus
          simpa [Path.ahead] using ihr h.right hus.2
      · cases us with
        | nil =>
          simp only [List.nil_append, List.cons.injEq] at hus
          obtain ⟨rfl, rfl⟩ := hus
          exact h.next_of_not_shared
        | cons u us =>
          simp only [List.cons_append, List.cons.injEq] at hus
          obtain ⟨rfl, rfl⟩ := hus
          have hil : i ∈ l.inorder := l.seen_subset (by simp [hl])
          have hne : right.root? ≠ l.root? := fun hc => hs (Shape.shared_of_mem hil hc.symm)
          have hnext := ihl h.left hl
          simpa [Path.ahead, hne] using hnext

end Unfolds

end Rooted

end InstanceTree.RedBlack
