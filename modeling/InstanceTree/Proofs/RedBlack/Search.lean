import InstanceTree.Proofs.RedBlack.Order
import InstanceTree.RedBlack.Search

namespace InstanceTree.RedBlack

open Arena

variable {α : Type}

def Side.answer : Side → Ordering
  | .left => .gt
  | .right => .lt

namespace Arena

def Carries (a : Arena α) (e : α) (i : Nat) : Prop :=
  ∃ n : Node α, a[i]? = some n ∧ n.elem = e

theorem carries_iff {a : Arena α} {e : α} {i : Nat} {n : Node α} (h : a[i]? = some n) :
    a.Carries e i ↔ n.elem = e := by
  constructor
  · intro hi
    obtain ⟨m, hm, hme⟩ := hi
    cases h.symm.trans hm
    exact hme
  · intro he
    exact ⟨n, h, he⟩

/-- What a search for `e` among some nodes is to find: one that carries `e`, or none if none of
them does. -/
def Finds (a : Arena α) (e : α) (nodes : List Nat) : Option Nat → Prop
  | some n => n ∈ nodes ∧ a.Carries e n
  | none => ∀ n ∈ nodes, ¬ a.Carries e n

theorem Finds.widen {a : Arena α} {e : α} {nodes nodes' : List Nat} {found : Option Nat}
    (h : a.Finds e nodes found) (hsub : nodes ⊆ nodes')
    (hrest : ∀ n ∈ nodes', a.Carries e n → n ∈ nodes) : a.Finds e nodes' found := by
  cases found with
  | some n => exact ⟨hsub h.1, h.2⟩
  | none => exact fun n hn hc => h n (hrest n hn hc) hc

end Arena

namespace Rooted

variable {r : Rooted α} {t : Shape} {cmp : Comparator α} {c : α → α → Ordering} {S : α → Prop}
  {e : α}

structure Ordered (r : Rooted α) (t : Shape) (cmp : Comparator α) (c : α → α → Ordering)
    (S : α → Prop) : Prop where
  focus : r.Focus [] t
  sorts : cmp.Sorts c S
  within : r.arena.Within S t.inorder
  ascending : r.arena.Ascending c t.inorder

namespace Ordered

theorem exists_node (h : r.Ordered t cmp c S) {s : Side} {i : Nat} (hi : i ∈ t.order s) :
    ∃ n : Node α, r.arena[i]? = some n ∧ S n.elem := by
  obtain ⟨n, hn⟩ := h.focus.exists_node hi
  exact ⟨n, hn, h.within i (Shape.mem_order.1 hi) n hn⟩

theorem length_le (h : r.Ordered t cmp c S) {s : Side} {ws zs : List Nat} {i : Nat}
    (ht : t.order s = ws ++ i :: zs) : zs.length ≤ r.arena.size + 1 := by
  have hlen := h.focus.length_lt
  have horder : (t.order s).length = t.inorder.length := by cases s <;> simp [Shape.order]
  rw [ht] at horder
  simp only [List.length_append, List.length_cons] at horder
  omega

theorem precedes (h : r.Ordered t cmp c S) {s : Side} {ws zs : List Nat} {i j : Nat}
    {m n : Node α} (ht : t.order s = ws ++ i :: zs) (hj : j ∈ zs) (hm : r.arena[i]? = some m)
    (hn : r.arena[j]? = some n) :
    (s = .left → c m.elem n.elem ≠ .gt) ∧ (s = .right → c n.elem m.elem ≠ .gt) := by
  have hasc := h.ascending
  cases s with
  | left =>
    have hin : t.inorder = ws ++ i :: zs := ht
    rw [hin, Ascending, List.pairwise_append, List.pairwise_cons] at hasc
    exact ⟨fun _ => hasc.2.1.1 j hj m n hm hn, fun hs => Side.noConfusion hs⟩
  | right =>
    have hin : t.inorder = (ws ++ i :: zs).reverse := by
      rw [← ht, Shape.order, List.reverse_reverse]
    rw [hin, Ascending, List.pairwise_reverse, List.pairwise_append, List.pairwise_cons] at hasc
    exact ⟨fun hs => Side.noConfusion hs, fun _ => hasc.2.1.1 j hj n m hn hm⟩

/-- The nodes from one that compares equal to `e` up to one that carries `e` compare equal to `e`,
so that a scan that meets another one has gone too far. -/
theorem between (h : r.Ordered t cmp c S) (he : S e) {s : Side} {ws zs : List Nat} {i j k : Nat}
    {m n : Node α} (ht : t.order s = ws ++ i :: j :: zs) (hm : r.arena[i]? = some m)
    (hn : r.arena[j]? = some n) (hie : c m.elem e = .eq) (hk : k ∈ j :: zs)
    (hke : r.arena.Carries e k) : c n.elem e = .eq := by
  have hSm := h.within i ((Shape.mem_order (s := s)).1 (by simp [ht])) m hm
  have hSn := h.within j ((Shape.mem_order (s := s)).1 (by simp [ht])) n hn
  rcases List.mem_cons.1 hk with rfl | hk
  · rw [(carries_iff hn).1 hke, h.sorts.refl he]
  · obtain ⟨o, ho, rfl⟩ := hke
    have ht' : t.order s = (ws ++ [i]) ++ j :: zs := by simpa using ht
    have hij := h.precedes ht (List.mem_cons_self ..) hm hn
    have hjk := h.precedes ht' hk hn ho
    apply h.sorts.eq_of_between hSm hSn he hie
    cases s with
    | left => exact .inl ⟨hij.1 rfl, hjk.1 rfl⟩
    | right => exact .inr ⟨hjk.2 rfl, hij.2 rfl⟩

theorem carries_near (h : r.Ordered t cmp c S) (he : S e) {p : Path} {s : Side} {b : Bool}
    {i : Nat} {near far : Shape} {m : Node α} (ht : p.fill (.join s b i near far) = t)
    (hm : r.arena[i]? = some m)
    (hside : c m.elem e = s.answer) {k : Nat}
    (hk : k ∈ (Shape.join s b i near far).inorder) (hke : r.arena.Carries e k) :
    k ∈ near.inorder := by
  have horder : t.order s = ((p.beyond s).reverse ++ near.order s) ++
      i :: (far.order s ++ p.beyond s.opp) := by
    rw [← ht, Path.order_fill, Shape.order_join]
    simp
  have hSm := h.within i ((Shape.mem_order (s := s)).1 (by simp [horder])) m hm
  obtain ⟨o, ho, rfl⟩ := hke
  rcases Shape.mem_inorder_join.1 hk with rfl | hk | hk
  · cases hm.symm.trans ho
    rw [h.sorts.refl he] at hside
    cases s <;> cases hside
  · exact hk
  · have hle := h.precedes horder (List.mem_append_left _ (Shape.mem_order.2 hk)) hm ho
    cases s with
    | left => exact absurd hside (hle.1 rfl)
    | right =>
      have hgt := hle.2 rfl
      rw [h.sorts.swap hSm he, hside] at hgt
      exact absurd rfl hgt

variable [DecidableEq α]

theorem scan_spec (h : r.Ordered t cmp c S) (he : S e) (s : Side) {ws zs : List Nat} {i : Nat}
    {m : Node α} (ht : t.order s.opp = ws ++ i :: zs) (hm : r.arena[i]? = some m)
    (hie : c m.elem e = .eq) {fuel : Nat} (hfuel : zs.length ≤ fuel) :
    Yields (r.arena.scan cmp e s fuel zs.head?) (r.arena.Finds e zs) := by
  induction zs generalizing ws i m fuel with
  | nil =>
    refine .intro (a := none) ?_ nofun
    cases fuel <;> rfl
  | cons j zs ih =>
    obtain ⟨fuel, rfl⟩ : ∃ f, fuel = f + 1 := ⟨fuel - 1, by simp at hfuel; omega⟩
    obtain ⟨n, hn, hSn⟩ := h.exists_node (s := s.opp) (i := j) (by simp [ht])
    have ht' : t.order s.opp = (ws ++ [i]) ++ j :: zs := by simpa using ht
    simp only [List.head?_cons, scan, node_of_getElem? hn, ok_bind, h.sorts.eq_ok hSn he]
    by_cases hje : c n.elem e = .eq
    · simp only [hje, ne_eq, not_true_eq_false, if_false]
      by_cases hne : n.elem = e
      · simp only [hne, if_true]
        exact .intro rfl ⟨List.mem_cons_self .., n, hn, hne⟩
      · simp only [hne, if_false, neighbour_eq s h.focus ht', ok_bind]
        apply (ih ht' hn hje (by simpa using hfuel)).mono
        intro found hfound
        apply hfound.widen (List.subset_cons_self ..)
        intro k hk hke
        rcases List.mem_cons.1 hk with rfl | hk
        · exact absurd ((carries_iff hn).1 hke) hne
        · exact hk
    · simp only [ne_eq, hje, not_false_eq_true, if_true]
      exact .intro rfl fun k hk hke => hje (h.between he ht hm hn hie hk hke)

theorem seek_side (h : r.Ordered t cmp c S) (he : S e) {p : Path} {s : Side} {b : Bool} {i : Nat}
    {near far : Shape} {m : Node α} (ht : p.fill (.join s b i near far) = t)
    (hm : r.arena[i]? = some m)
    (hside : c m.elem e = s.answer) (fuel : Nat) :
    r.arena.seek cmp e (fuel + 1) i = match near.root? with
      | none => .ok none
      | some j => r.arena.seek cmp e fuel j := by
  have hf : r.Focus p (.join s b i near far) := focus_fill.2 (ht ▸ h.focus)
  obtain ⟨⟨o, ho⟩, -, -⟩ := holds_join.1 hf.below
  cases hm.symm.trans ho
  have hSm := h.within i (by simp [← ht, Path.inorder_fill]) _ hm
  simp only [seek, node_of_getElem? hm, ok_bind, h.sorts.eq_ok hSm he, hside]
  cases s <;> rfl

theorem scanAround_spec (h : r.Ordered t cmp c S) (he : S e) {ws zs : List Nat} {i : Nat}
    {m : Node α} (ht : t.inorder = ws ++ i :: zs) (hm : r.arena[i]? = some m)
    (hie : c m.elem e = .eq) (hne : m.elem ≠ e) :
    Yields (do
      match ← r.arena.scan cmp e .left (r.arena.size + 1) (← r.arena.prev i) with
      | some found => return some found
      | none => r.arena.scan cmp e .right (r.arena.size + 1) (← r.arena.next i))
      (r.arena.Finds e t.inorder) := by
  have hprev : t.order (Side.left).opp = zs.reverse ++ i :: ws.reverse := by
    rw [Side.opp_left, Shape.order, ht]
    simp
  have hnext : t.order (Side.right).opp = ws ++ i :: zs := ht
  simp only [Arena.prev, Arena.next, neighbour_eq .left h.focus hprev,
    neighbour_eq .right h.focus hnext, ok_bind]
  apply (h.scan_spec he .left hprev hm hie (h.length_le hprev)).bind
  intro before hbefore
  cases before with
  | some k =>
    refine .intro rfl ⟨?_, hbefore.2⟩
    rw [ht]
    exact List.mem_append_left _ (List.mem_reverse.1 hbefore.1)
  | none =>
    apply (h.scan_spec he .right hnext hm hie (h.length_le hnext)).mono
    intro after hafter
    rw [ht]
    apply hafter.widen
    · exact fun k hk => List.mem_append_right _ (List.mem_cons_of_mem i hk)
    · intro k hk hke
      rcases List.mem_append.1 hk with hk | hk
      · exact absurd hke (hbefore k (List.mem_reverse.2 hk))
      · rcases List.mem_cons.1 hk with rfl | hk
        · exact absurd ((carries_iff hm).1 hke) hne
        · exact hk

/-- A search below a node finds what there is to find in the whole tree, if it is all there. -/
theorem seek_spec (h : r.Ordered t cmp c S) (he : S e) {p : Path} {u : Shape} {i : Nat}
    (ht : p.fill u = t) (hall : ∀ k ∈ t.inorder, r.arena.Carries e k → k ∈ u.inorder)
    (hi : u.root? = some i) {fuel : Nat} (hfuel : u.height ≤ fuel) :
    Yields (r.arena.seek cmp e fuel i) (r.arena.Finds e t.inorder) := by
  induction fuel generalizing p u i with
  | zero =>
    cases u with
    | leaf => cases hi
    | node b l j right => simp [Shape.height] at hfuel
  | succ fuel ih =>
    cases u with
    | leaf => cases hi
    | node b l j right =>
      cases hi
      have hf : r.Focus p (.node b l i right) := focus_fill.2 (ht ▸ h.focus)
      obtain ⟨⟨o, ho⟩, -, -⟩ := hf.below
      have horder : t.inorder = ((p.beyond .left).reverse ++ l.inorder) ++
          i :: (right.inorder ++ p.beyond .right) := by
        rw [← ht, Path.inorder_fill, Shape.inorder]
        simp
      have hit : i ∈ t.inorder := by simp [horder]
      have hSo := h.within i hit _ ho
      have hgoes : ∀ (s : Side) (near far : Shape),
          Shape.node b l i right = .join s b i near far →
          c o e = s.answer →
          Yields (r.arena.seek cmp e (fuel + 1) i) (r.arena.Finds e t.inorder) := by
        intro s near far hj hside
        rw [hj] at ht hall hfuel
        have hnear : ∀ k ∈ t.inorder, r.arena.Carries e k → k ∈ near.inorder := fun k hk hke =>
          h.carries_near he ht ho hside (hall k hk hke) hke
        rw [h.seek_side he ht ho hside]
        cases hr : near.root? with
        | none =>
          rw [Shape.root?_eq_none] at hr
          subst hr
          exact .intro rfl fun k hk hke => List.not_mem_nil (hnear k hk hke)
        | some j =>
          have hheight := Shape.height_join_left s b i near far
          exact ih (p := ⟨s, b, i, far⟩ :: p) ht hnear hr (by omega)
      cases hc : c o e with
      | gt => exact hgoes .left l right rfl hc
      | lt => exact hgoes .right right l rfl hc
      | eq =>
        simp only [seek, node_of_getElem? ho, ok_bind, h.sorts.eq_ok hSo he, hc]
        by_cases hoe : o = e
        · simp only [hoe, if_true]
          exact .intro rfl ⟨hit, _, ho, hoe⟩
        · simp only [hoe, if_false]
          exact h.scanAround_spec he horder ho hc hoe

theorem find_spec (h : r.Ordered t cmp c S) (he : S e) :
    Yields (r.arena.find cmp r.root e) (r.arena.Finds e t.inorder) := by
  have hroot : r.root = t.root? := h.focus.around
  cases hi : t.root? with
  | none =>
    rw [Shape.root?_eq_none] at hi
    subst hi
    rw [hroot]
    exact .intro rfl nofun
  | some i =>
    obtain ⟨m, hm, -⟩ := h.focus.below.root_node hi
    simp only [find, hroot, hi, node_of_getElem? hm, ok_bind]
    by_cases hme : m.elem = e
    · simp only [hme, if_true]
      exact .intro rfl ⟨Shape.root?_mem hi, m, hm, hme⟩
    · simp only [hme, if_false]
      have hheight := t.height_le_length
      have hlen := h.focus.length_lt
      exact h.seek_spec he (p := []) rfl (fun _ hk _ => hk) hi (by omega)

end Ordered

/-- In a tree of any shape whose elements never decrease, a search ends with a node that holds
exactly `e`, or with nothing if there is none, however many nodes compare equal to `e`. -/
theorem find_exact [DecidableEq α] [Std.TransCmp c] {nodes : List Nat} (h : r.IsTree nodes)
    (hrise : r.arena.Rising c nodes) (e : α) :
    ∃ found, r.arena.find (.always c) r.root e = .ok found ∧
      (∀ n, found = some n → n ∈ nodes ∧ ∃ node, r.arena[n]? = some node ∧ node.elem = e) ∧
      (found = none → ∀ n ∈ nodes, ∀ node, r.arena[n]? = some node → node.elem ≠ e) := by
  obtain ⟨t, hf, rfl⟩ := h
  have hs := Comparator.always_sorts c
  have hasc := hrise.ascending hs (fun _ _ _ _ => trivial) fun i hi => hf.below.lt_size hi
  have hordered : r.Ordered t (.always c) c fun _ => True :=
    ⟨hf, hs, fun _ _ _ _ => trivial, hasc⟩
  obtain ⟨found, hfound, hfinds⟩ := hordered.find_spec (e := e) trivial
  refine ⟨found, hfound, ?_, ?_⟩
  · intro n hn
    subst hn
    exact hfinds
  · intro hn n hmem node hnode
    subst hn
    exact fun he => hfinds n hmem ⟨node, hnode, he⟩

/-- Three nodes compare equal, the search starts at the last one, and what it looks for is found
in the middle. -/
theorem find_exact_of_equals :
    let c : Nat × Nat → Nat × Nat → Ordering := compareOn Prod.fst
    let r : Rooted (Nat × Nat) := ⟨#[⟨none, some 1, none, false, (7, 0)⟩,
      ⟨some 0, none, some 2, false, (7, 1)⟩, ⟨some 1, none, none, false, (7, 2)⟩], some 0⟩
    r.IsTree [1, 2, 0] ∧ r.arena.Rising c [1, 2, 0] ∧
      r.arena.find (.always c) r.root (7, 2) = .ok (some 2) := by
  intro c r
  have h : r.IsTree [1, 2, 0] := by
    refine ⟨.node false (.node false .leaf 1 (.node false .leaf 2 .leaf)) 0 .leaf,
      ⟨rfl, ?_, by decide⟩, rfl⟩
    exact ⟨⟨(7, 0), rfl⟩, ⟨⟨(7, 1), rfl⟩, trivial, ⟨(7, 2), rfl⟩, trivial, trivial⟩, trivial⟩
  have hrise : r.arena.Rising c [1, 2, 0] := by
    simp [Rising, r, c, compareOn]
  obtain ⟨found, hfound, hsome, hnone⟩ := find_exact h hrise (7, 2)
  cases found with
  | none => exact absurd rfl (hnone rfl 2 (by decide) ⟨some 1, none, none, false, (7, 2)⟩ rfl)
  | some n =>
    obtain ⟨hn, node, hnode, he⟩ := hsome n rfl
    simp only [List.mem_cons, List.not_mem_nil, or_false] at hn
    rcases hn with rfl | rfl | rfl
    · cases hnode
      cases he
    · exact ⟨h, hrise, hfound⟩
    · cases hnode
      cases he

end Rooted

end InstanceTree.RedBlack
