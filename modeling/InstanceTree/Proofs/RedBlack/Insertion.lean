import InstanceTree.Proofs.RedBlack.Balance
import InstanceTree.RedBlack.Insert

namespace InstanceTree.RedBlack

open Arena

variable {α : Type}

def Comparator.always (c : α → α → Ordering) : Comparator α :=
  fun x y => .ok (c x y)

def Path.place : Path → Rooted.Place
  | [] => none
  | turn :: _ => some (turn.index, turn.side)

/-- Every turn of the way goes to the side that the comparison of the node there with `e`
decides on: left of a greater element, otherwise right. -/
def Path.Directed (cmp : Comparator α) (a : Arena α) (e : α) (p : Path) : Prop :=
  ∀ turn ∈ p, ∃ here o, a[turn.index]? = some here ∧ cmp here.elem e = .ok o ∧
    turn.side = if o = .gt then .left else .right

namespace Rooted

variable {r : Rooted α} {path : Path} {cmp : Comparator α} {n : Nat} {new : Node α}

theorem descend_spec (hnew : r.arena[n]? = some new) {t : Shape} (h : r.Focus path t)
    (hcmp : ∀ i ∈ t.inorder, ∀ here, r.arena[i]? = some here →
      ∃ o, cmp here.elem new.elem = .ok o)
    {fuel : Nat} (hfuel : t.height ≤ fuel) :
    Yields (descend cmp r.arena n fuel path.place t.root?) fun place =>
      ∃ q : Path, place = (q ++ path : Path).place ∧ q.fill .leaf = t ∧
        r.Focus (q ++ path) .leaf ∧ q.Directed cmp r.arena new.elem := by
  induction fuel generalizing path t with
  | zero =>
    cases t with
    | leaf => exact .intro (by rfl) ⟨[], rfl, rfl, h, by simp [Path.Directed]⟩
    | node b l i right => simp [Shape.height] at hfuel
  | succ fuel ih =>
    cases t with
    | leaf => exact .intro (by rfl) ⟨[], rfl, rfl, h, by simp [Path.Directed]⟩
    | node b l i right =>
      obtain ⟨⟨e, he⟩, -, -⟩ := h.below
      obtain ⟨o, ho⟩ := hcmp i (by simp [Shape.inorder]) _ he
      obtain ⟨side, hs⟩ : ∃ side, side = if o = .gt then Side.left else .right := ⟨_, rfl⟩
      obtain ⟨near, far, hj⟩ := Shape.node_eq_join side b l i right
      rw [hj] at h hcmp hfuel ⊢
      obtain ⟨⟨e', he'⟩, -, -⟩ := holds_join.1 h.below
      rw [Option.some.inj (he.symm.trans he')] at ho
      have hstep : descend cmp r.arena n (fuel + 1) path.place (some i) =
          descend cmp r.arena n fuel (some (i, side)) near.root? := by
        simp only [descend, node_of_getElem? he', node_of_getElem? hnew, ok_bind, ho]
        cases o <;> subst hs <;> rfl
      rw [Shape.root?_join, hstep]
      have hheight : near.height ≤ fuel := by
        have := Shape.height_join_left side b i near far
        omega
      apply (ih (focus_cons.2 h) (fun j hj => hcmp j (by simp [hj])) hheight).mono
      intro place hq
      obtain ⟨q, rfl, rfl, hf, hd⟩ := hq
      have happ : q ++ [⟨side, b, i, far⟩] ++ path = q ++ ⟨side, b, i, far⟩ :: path := by simp
      refine ⟨q ++ [⟨side, b, i, far⟩], by rw [happ], ?_, by rwa [happ], ?_⟩
      · rw [Path.fill_append]
        rfl
      · intro turn hturn
        rcases List.mem_append.1 hturn with hturn | hturn
        · exact hd turn hturn
        · cases List.mem_singleton.1 hturn
          exact ⟨_, o, he', ho, hs⟩

theorem Focus.attach (h : r.Focus path .leaf) (hn : n ∉ path.indices) (hlt : n < r.arena.size) :
    Yields (r.attach path.place n) fun r' =>
      Stage r (path.fill (.node false .leaf n .leaf)).inorder r' path
        (.node false .leaf n .leaf) := by
  obtain ⟨e, he⟩ : ∃ e : Node α, r.arena[n]? = some e := ⟨_, Array.getElem?_eq_getElem hlt⟩
  have hnd := h.nodes_disjoint.2.1
  have hhang : r.attach path.place n = .ok ((r.retouch (touch n fun m =>
      { m with parent := path.parent, left := none, right := none, black := false })).rehang
        path (some n)) := by
    cases path with
    | nil =>
      simp only [attach, Path.place, update_eq hlt, ok_bind, Option.map_none, rehang]
      have hid : ∀ a : Arena α, a.retouch (hang [] (some n)) = a := fun a =>
        congrArg Rooted.arena (retouch_id (r := ⟨a, r.root⟩) fun _ _ => rfl)
      rw [hid]
      rfl
    | cons turn up =>
      have hlt' := h.around.lt_size (i := turn.index) (by simp [Path.indices])
      simp only [attach, Path.place, update_eq hlt, ok_bind, Option.map_some]
      exact setChild_eq (by simpa using hlt') _ _
  have hpar : path.parent ≠ some n := fun hc => hn (Path.parent_mem hc)
  refine .intro hhang ⟨⟨?_, ⟨⟨e.elem, ?_⟩, trivial, trivial⟩, ?_⟩, rfl, ?_⟩
  · apply h.around.plug hnd
    intro i hi
    have hin : i ≠ n := by
      intro heq
      subst heq
      exact hn hi
    simp only [rehang_arena, retouch_arena, getElem?_retouch, Option.map_map]
    congr 1
    funext m
    simp [touch, hin]
  · simp [he, touch, hang_of_ne hpar, Shape.root?]
  · simpa [Shape.inorder] using ⟨hn, hnd⟩
  · rw [rehang, retouch_arena, Arena.retouch_retouch]
    apply touches_retouch r _
    · intro i m
      simp only [touch, hang_elem]
      split <;> rfl
    · intro i hi m
      rw [(Path.inorder_fill_perm path _).mem_iff] at hi
      simp only [Shape.inorder, List.nil_append, List.cons_append, List.mem_cons, not_or] at hi
      rw [hang_of_ne fun hc => hi.2 (Path.parent_mem hc)]
      simp [touch, hi.1]

theorem succ_lt_repairSteps (size : Nat) : size + 1 < repairSteps size := by
  have hpos : 0 < (size + 2) * (size + 2) := Nat.mul_pos (by omega) (by omega)
  exact Nat.lt_of_lt_of_le (by omega) (Nat.le_mul_of_pos_left (size + 2) hpos)

theorem settleRed_settled {up : Path} {s : Side} {i : Nat} {y t : Shape} {nodes : List Nat}
    {r₀ : Rooted α} (h : Stage r₀ nodes r (⟨s, true, i, y⟩ :: up) t) (hroot : t.root? = some n)
    (fuel : Nat) : settleRed (fuel + 1) r n = r.blacken r.root := by
  obtain ⟨m, hm, hmp⟩ := h.focus.below.root_node hroot
  obtain ⟨e, he⟩ := h.node_above
  simp [settleRed, node_eq hm, hmp, Path.parent, he]

variable {r₀ : Rooted α} {nodes : List Nat} {gs side : Side} {parent grand k : Nat}
  {t o uncle : Shape}

/-- A red uncle: the violation moves on to the grandparent. -/
theorem recolour_spec
    (h : Stage r₀ nodes r (⟨side, false, parent, o⟩ :: ⟨gs, true, grand, uncle⟩ :: path) t) :
    Yields (do
      let r ← r.blacken uncle.root?
      let r ← r.setBlack parent true
      r.setBlack grand false) fun r' =>
        Stage r₀ nodes r' path
          (.join gs false grand (.join side true parent t o) uncle.blacken) := by
  apply (stage_swap.1 (stage_cons.1 h)).blacken.bind
  intro r₁ h₁
  apply ((stage_swap.2 h₁).setBlack true).bind
  intro r₂ h₂
  exact (stage_cons.1 h₂).setBlack false

/-- A black uncle: the grandparent goes down on the uncle's side. -/
theorem turnGrand_spec {x z : Shape}
    (h : Stage r₀ nodes r (⟨gs, true, grand, uncle⟩ :: path) (.join gs false parent x z)) :
    Yields (do
      let r ← r.setBlack parent true
      let r ← r.setBlack grand false
      r.rotate gs.opp grand) fun r' =>
        Stage r₀ nodes r' path (.join gs true parent x (.join gs false grand z uncle)) := by
  apply (h.setBlack true).bind
  intro r₁ h₁
  apply ((stage_cons.1 h₁).setBlack false).bind
  intro r₂ h₂
  rw [← Shape.join_opp, ← Shape.join_opp gs true] at h₂
  apply h₂.rotate.mono
  intro r₃ h₃
  rwa [Shape.join_opp, Shape.join_opp] at h₃

theorem settleOuter_spec {fuel : Nat} {x z : Shape} (hup : path.Balanced true (k + 1))
    (hn : x.root? = some n) (hx : x.Balanced false k) (hz : z.Balanced true k)
    (hu : uncle.Balanced true k)
    (h : Stage r₀ nodes r (⟨gs, true, grand, uncle⟩ :: path) (.join gs false parent x z)) :
    Yields (do
      let r ← r.setBlack parent true
      let r ← r.setBlack grand false
      let r ← r.rotate gs.opp grand
      settleRed (fuel + 1) r n) fun r' =>
        ∃ t k', Stage r₀ nodes r' [] t ∧ t.Balanced true k' := by
  have hgrand := turnGrand_spec h
  simp only [← bind_assoc] at hgrand ⊢
  apply hgrand.bind
  intro r₁ h₁
  rw [settleRed_settled (stage_cons.2 h₁) hn]
  obtain ⟨_, hk'⟩ := hup.fill (.black_join hx (.red_join hz hu))
  exact h₁.blacken_root hk'

/-- Repairing the colour rules upwards from a red node ends in a red-black tree. -/
theorem settleRed_spec {fuel : Nat} (h : Stage r₀ nodes r path t) (hn : t.root? = some n)
    (ht : t.Balanced false k) (hp : path.Balanced true k) (hfuel : path.length < fuel) :
    Yields (settleRed fuel r n) fun r' =>
      ∃ t' k', Stage r₀ nodes r' [] t' ∧ t'.Balanced true k' := by
  induction fuel generalizing r path t n k with
  | zero => omega
  | succ fuel ih =>
    cases hp with
    | root =>
      obtain ⟨m, hm, hmp⟩ := h.focus.below.root_node hn
      simp only [settleRed, node_eq hm, ok_bind, hmp, Path.parent]
      exact h.blacken_root ht
    | black ho hu =>
      rw [settleRed_settled h hn]
      obtain ⟨_, hk'⟩ := (Path.Balanced.black ho hu).fill ht
      exact h.blacken_root hk'
    | @red side parent _ o up ho hu =>
      cases hu with
      | @black gs grand _ uncle up c _ hc hup =>
        obtain ⟨m, hm, hmp⟩ := h.focus.below.root_node hn
        obtain ⟨ep, hpn⟩ := h.node_above
        have hg := stage_cons.1 h
        obtain ⟨eg, hgn⟩ := hg.node_above
        have hside : r.sideOf grand (some parent) = .ok gs := by
          have := hg.sideOf (hg.root_ne (.inl (Shape.root?_join ..)))
          rwa [Shape.root?_join] at this
        have huncle : r.isRed uncle.root? = .ok (!c) := by
          rw [(stage_swap.1 hg).isRed, hc.isRed_eq]
        simp only [settleRed, node_eq hm, ok_bind, hmp, Path.parent, hpn, Node.joined_black,
          Node.joined_parent, hside, hgn, Node.joined_child_opp, huncle]
        simp only [List.length_cons] at hfuel
        cases c with
        | false =>
          have hrec := recolour_spec h
          simp only [Bool.false_eq_true, if_false, Bool.not_false, if_true, ← bind_assoc] at hrec ⊢
          apply hrec.bind
          intro r₁ h₁
          exact ih h₁ (Shape.root?_join ..)
            (.red_join (.black_join ht ho) hc.blacken_red) hup (by omega)
        | true =>
          obtain ⟨fuel, rfl⟩ : ∃ f, fuel = f + 1 := ⟨fuel - 1, by omega⟩
          by_cases hs : side = gs.opp
          · subst hs
            obtain ⟨near, far, rfl⟩ := ht.join_of_red gs hn
            obtain ⟨-, hnear, hfar⟩ := ht.of_red_join
            have hturn := stage_cons.1 h
            rw [Shape.join_opp] at hturn
            simp only [Node.joined_child, hn, Bool.false_eq_true, if_false, if_true,
              Bool.not_true]
            apply hturn.rotate.bind
            intro r₁ h₁
            exact settleOuter_spec hup (Shape.root?_join ..) (.red_join ho hnear) hfar hc h₁
          · have hs' : side = gs := by cases side <;> cases gs <;> simp_all
            subst hs'
            have ho' : o.root? ≠ some n := fun hc => h.root_ne (.inl hn) (hn.trans hc.symm)
            simp only [Node.joined_child_opp, ho', Bool.false_eq_true, if_false, Bool.not_true]
            exact settleOuter_spec hup hn ht ho hc (stage_cons.1 h)

/-- Inserting a node puts it into one place of a red-black tree, whatever the comparisons say. -/
theorem insert_spec (h : r.Focus [] t) (ht : t.Balanced true k) (hnew : r.arena[n]? = some new)
    (hn : n ∉ t.inorder)
    (hcmp : ∀ i ∈ t.inorder, ∀ here, r.arena[i]? = some here →
      ∃ o, cmp here.elem new.elem = .ok o) :
    Yields (r.insert cmp n) fun r' =>
      ∃ (p : Path) (t' : Shape) (k' : Nat), p.fill .leaf = t ∧ p.Directed cmp r.arena new.elem ∧
        r'.Focus [] t' ∧ t'.Balanced true k' ∧
        t'.inorder = (p.beyond .left).reverse ++ n :: p.beyond .right ∧
        Touches t'.inorder r r' := by
  have hroot : r.root = t.root? := h.around
  have hsize := h.length_le
  have hheight := t.height_le_length
  have hfuel : t.height ≤ r.arena.size + 1 := by omega
  apply (hroot ▸ descend_spec hnew h hcmp hfuel).bind
  intro place hp
  obtain ⟨p, rfl, hfill, hf, hd⟩ := hp
  rw [List.append_nil] at hf ⊢
  have hperm : p.indices.Perm t.inorder := by
    rw [← hfill]
    exact (Path.inorder_fill_perm p .leaf).symm
  have hn' : n ∉ p.indices := fun hc => hn (hperm.mem_iff.1 hc)
  refine (hf.attach hn' (Array.getElem?_eq_some_iff.1 hnew).1).bind fun r₁ h₁ => ?_
  obtain ⟨c, k₀, hleaf, hp⟩ := Path.Balanced.of_fill (hfill ▸ ht)
  cases hleaf
  have hlen : p.length < repairSteps r₁.arena.size := by
    have hle := p.length_le_indices
    have hsteps := succ_lt_repairSteps r.arena.size
    rw [h₁.touches.size]
    rw [hperm.length_eq] at hle
    omega
  apply (settleRed_spec h₁ rfl (.red .leaf .leaf) hp hlen).mono
  intro r₂ hr₂
  obtain ⟨t', k', h₂, ht'⟩ := hr₂
  have hin : t'.inorder = (p.fill (.node false .leaf n .leaf)).inorder := h₂.inorder
  have horder : t'.inorder = (p.beyond .left).reverse ++ n :: p.beyond .right := by
    rw [hin, Path.inorder_fill]
    simp [Shape.inorder]
  exact ⟨p, t', k', hfill, hd, h₂.focus, ht', horder, hin ▸ h₂.touches⟩

theorem insert_perm (h : r.Focus [] t) (ht : t.Balanced true k) (hnew : r.arena[n]? = some new)
    (hn : n ∉ t.inorder)
    (hcmp : ∀ i ∈ t.inorder, ∀ here, r.arena[i]? = some here →
      ∃ o, cmp here.elem new.elem = .ok o) :
    Yields (r.insert cmp n) fun r' =>
      ∃ t' k', r'.Focus [] t' ∧ t'.Balanced true k' ∧ t'.inorder.Perm (n :: t.inorder) ∧
        Touches t'.inorder r r' := by
  apply (insert_spec h ht hnew hn hcmp).mono
  intro r' hr'
  obtain ⟨p, t', k', rfl, -, hf, ht', horder, htouch⟩ := hr'
  refine ⟨t', k', hf, ht', ?_, htouch⟩
  rw [horder, Path.inorder_fill_leaf]
  exact List.perm_middle

/-- A node that is not in a red-black tree can be inserted, whatever links and colour it has and
whatever the comparisons answer: it takes one place among the nodes of the tree, and neither
elements nor other nodes outside of the tree have changed. -/
theorem insert_isRedBlack (c : α → α → Ordering) {nodes : List Nat} (h : r.IsRedBlack nodes)
    (hn : n ∉ nodes) (hlt : n < r.arena.size) :
    ∃ r' before after, r.insert (.always c) n = .ok r' ∧ nodes = before ++ after ∧
      r'.IsRedBlack (before ++ n :: after) ∧ r'.arena.size = r.arena.size ∧
      (∀ i : Nat, r'.arena[i]?.map Node.elem = r.arena[i]?.map Node.elem) ∧
      ∀ i : Nat, i ∉ nodes → i ≠ n → r'.arena[i]? = r.arena[i]? := by
  obtain ⟨t, k, hf, ht, rfl⟩ := h
  have hnew := Array.getElem?_eq_getElem hlt
  have hcmp : ∀ i ∈ t.inorder, ∀ here, r.arena[i]? = some here →
      ∃ o, Comparator.always c here.elem r.arena[n].elem = .ok o :=
    fun _ _ here _ => ⟨c here.elem r.arena[n].elem, rfl⟩
  obtain ⟨r', hr', p, t', k', rfl, -, hf', ht', horder, htouch⟩ := insert_spec hf ht hnew hn hcmp
  refine ⟨r', _, _, hr', Path.inorder_fill_leaf p, ⟨t', k', hf', ht', horder⟩, htouch.size,
    htouch.elem, ?_⟩
  intro i hi hin
  apply htouch.other
  rw [horder, List.perm_middle.mem_iff, List.mem_cons, ← Path.inorder_fill_leaf]
  exact not_or.2 ⟨hin, hi⟩

/-- The new node has links of its own, and every element is called greater than every other one,
so that the node goes to the front, below a red node with a red sibling. -/
theorem insert_isRedBlack_in_front :
    let r : Rooted Nat := ⟨#[⟨some 1, none, none, false, 7⟩, ⟨none, some 0, some 2, true, 7⟩,
      ⟨some 1, none, none, false, 7⟩, ⟨some 9, some 3, some 1, true, 8⟩], some 1⟩
    r.IsRedBlack [0, 1, 2] ∧ 3 ∉ [0, 1, 2] ∧ 3 < r.arena.size ∧
      ∃ r' before after, r.insert (.always fun _ _ => .gt) 3 = .ok r' ∧
        [0, 1, 2] = before ++ after ∧ r'.IsRedBlack (before ++ 3 :: after) := by
  intro r
  have h : r.IsRedBlack [0, 1, 2] := by
    refine ⟨.node true (.node false .leaf 0 .leaf) 1 (.node false .leaf 2 .leaf), 1,
      ⟨rfl, ?_, by decide⟩, .black (.red .leaf .leaf) (.red .leaf .leaf), rfl⟩
    exact ⟨⟨7, rfl⟩, ⟨⟨7, rfl⟩, trivial, trivial⟩, ⟨7, rfl⟩, trivial, trivial⟩
  obtain ⟨r', before, after, hr', hnodes, htree, -⟩ :=
    insert_isRedBlack (fun _ _ => .gt) h (n := 3) (by decide) (by decide)
  exact ⟨h, by decide, by decide, r', before, after, hr', hnodes, htree⟩

end Rooted

end InstanceTree.RedBlack
