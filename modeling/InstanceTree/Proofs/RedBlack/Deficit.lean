import InstanceTree.Proofs.RedBlack.Balance
import InstanceTree.RedBlack.Remove

namespace InstanceTree.RedBlack

variable {α : Type}

namespace Rooted

variable {r₀ r : Rooted α} {nodes : List Nat} {path : Path} {s : Side} {b c : Bool} {p k : Nat}
  {t other : Shape}

theorem Stage.sibling (h : Stage r₀ nodes r (⟨s, b, p, other⟩ :: path) t) {i : Nat}
    (hi : other.root? = some i) : r.sibling p s = .ok i := by
  obtain ⟨e, he⟩ := h.node_above
  simp only [Rooted.sibling, he, ok_bind, Node.joined_child_opp, hi]
  rfl

theorem Stage.childrenBlack {i : Nat} {x y : Shape}
    (h : Stage r₀ nodes r path (.join s b i x y)) :
    r.childrenBlack i = .ok (!x.isRed && !y.isRed) := by
  obtain ⟨e, he⟩ := h.node
  have hx := (stage_cons.2 h).isRed
  have hy := (stage_swap.1 (stage_cons.2 h)).isRed
  cases s <;> cases hxr : x.isRed <;> cases hyr : y.isRed <;>
    simp [Rooted.childrenBlack, he, Node.joined, hx, hy, hxr, hyr] <;> rfl

/-- After `blackenSibling` the deficient subtree has a black sibling; unless the node above both
has become red, the way has not changed. -/
theorem blackenSibling_spec (h : Stage r₀ nodes r (⟨s, b, p, other⟩ :: path) t)
    (hp : Path.Balanced (⟨s, b, p, other⟩ :: path) true (k + 1)) :
    Yields (r.blackenSibling p s) fun out => ∃ (b' : Bool) (i : Nat) (x y : Shape) (up : Path),
      Stage r₀ nodes out.1 (⟨s, b', p, .join s true i x y⟩ :: up) t ∧ out.2 = i ∧
        (∃ c c', x.Balanced c k ∧ y.Balanced c' k) ∧
        (b' = false → up.Balanced false (k + 1)) ∧
        (b' = true → up.Balanced true (k + 2) ∧ up = path) := by
  obtain ⟨c, ho, hred, hblack⟩ := hp.red_or_black
  obtain ⟨i, x, y, rfl⟩ := ho.root_of_pos s
  have hsib := h.sibling (Shape.root?_join ..)
  obtain ⟨e, he⟩ := (stage_swap.1 h).node
  simp only [blackenSibling, hsib, he, ok_bind, Node.joined_black]
  cases c with
  | true =>
    obtain ⟨-, c, c', k', hk, hx, hy⟩ := ho.of_black_join
    cases hk
    exact .intro rfl ⟨b, i, x, y, path, h, rfl, ⟨c, c', hx, hy⟩, fun hb => (hred hb).2,
      fun hb => ⟨hblack hb, rfl⟩⟩
  | false =>
    obtain ⟨-, hx, hy⟩ := ho.of_red_join
    have hb : b = true := by
      cases b with
      | false => exact absurd (hred rfl).1 (by simp)
      | true => rfl
    subst hb
    obtain ⟨j, x₁, x₂, rfl⟩ := hx.root_of_pos s
    obtain ⟨-, c₁, c₂, k', hk, hx₁, hx₂⟩ := hx.of_black_join
    cases hk
    simp only [Bool.false_eq_true, if_false]
    apply ((stage_swap.1 h).setBlack true).bind
    intro r₁ h₁
    apply ((stage_cons.1 (stage_swap.2 h₁)).setBlack false).bind
    intro r₂ h₂
    apply h₂.rotate.bind
    intro r₃ h₃
    have h₃' := stage_cons.2 (stage_cons.2 h₃)
    rw [h₃'.sibling (Shape.root?_join ..), ok_bind]
    exact .intro rfl ⟨false, j, x₁, x₂, _, h₃', rfl, ⟨c₁, c₂, hx₁, hx₂⟩,
      fun _ => .black hy (hblack rfl), nofun⟩

theorem reddenOuter_spec {i : Nat} {x y : Shape} {c₁ c₂ : Bool}
    (h : Stage r₀ nodes r (⟨s, b, p, .join s true i x y⟩ :: path) t) (hx : x.Balanced c₁ k)
    (hy : y.Balanced c₂ k) (hc : c₁ = false ∨ c₂ = false) :
    Yields (r.reddenOuter p s i) fun out => ∃ i' x' y' c',
      Stage r₀ nodes out.1 (⟨s, b, p, .join s true i' x' y'⟩ :: path) t ∧ out.2 = i' ∧
        x'.Balanced c' k ∧ y'.Balanced false k := by
  have hother := stage_swap.1 h
  obtain ⟨e, he⟩ := hother.node
  have hyr := (stage_swap.1 (stage_cons.2 hother)).isRed
  simp only [reddenOuter, he, ok_bind, Node.joined_child_opp, hyr, hy.isRed_eq]
  cases c₂ with
  | false => exact .intro rfl ⟨i, x, y, c₁, h, rfl, hx, hy⟩
  | true =>
    obtain rfl : c₁ = false := by simpa using hc
    simp only [Node.joined_child, Bool.not_true, Bool.false_eq_true, if_false]
    apply (stage_cons.2 hother).blacken.bind
    intro r₁ h₁
    apply ((stage_cons.1 h₁).setBlack false).bind
    intro r₂ h₂
    obtain ⟨j, hj⟩ : ∃ j, x.root? = some j := by
      cases hx
      exact ⟨_, rfl⟩
    obtain ⟨x₁, x₂, rfl⟩ := hx.join_of_red s hj
    obtain ⟨-, hx₁, hx₂⟩ := hx.of_red_join
    rw [Shape.blacken_join, ← Shape.join_opp, ← Shape.join_opp s true] at h₂
    apply h₂.rotate.bind
    intro r₃ h₃
    rw [Shape.join_opp, Shape.join_opp] at h₃
    have h₃' := stage_swap.2 h₃
    rw [h₃'.sibling (Shape.root?_join ..), ok_bind]
    exact .intro rfl ⟨j, x₁, _, true, h₃', rfl, hx₁, .red_join hx₂ hy⟩

theorem closeDeficit_spec {i : Nat} {x y : Shape} {c' : Bool}
    (h : Stage r₀ nodes r (⟨s, b, p, .join s true i x y⟩ :: path) t) (ht : t.Balanced c k)
    (hx : x.Balanced c' k) (hy : y.Balanced false k) :
    Yields (r.closeDeficit p s i) fun r' => ∃ t',
      Stage r₀ nodes r' path t' ∧ t'.Balanced b (if b then k + 2 else k + 1) := by
  obtain ⟨e, he⟩ := h.node_above
  simp only [closeDeficit, he, ok_bind, Node.joined_black]
  apply ((stage_swap.1 h).setBlack b).bind
  intro r₁ h₁
  apply ((stage_cons.1 (stage_swap.2 h₁)).setBlack true).bind
  intro r₂ h₂
  have h₂' := stage_swap.1 (stage_cons.2 h₂)
  obtain ⟨e', he'⟩ := h₂'.node
  simp only [he', ok_bind, Node.joined_child_opp]
  apply (stage_swap.1 (stage_cons.2 h₂')).blacken.bind
  intro r₃ h₃
  have h₃' := stage_cons.1 (stage_swap.2 (stage_cons.1 (stage_swap.2 h₃)))
  apply h₃'.rotate.mono
  intro r₄ h₄
  refine ⟨_, h₄, ?_⟩
  cases b with
  | false => exact .red_join (.black_join ht hx) hy.blacken_red
  | true => exact .black_join (.black_join ht hx) hy.blacken_red

theorem Stage.root_of_nil (h : Stage r₀ nodes r [] t) : r.root = t.root? :=
  h.focus.around

theorem Stage.ne_root {i : Nat} (h : Stage r₀ nodes r (⟨s, b, i, other⟩ :: path) t) :
    t.root? ≠ r.root := by
  obtain ⟨j, hj, hmem⟩ : ∃ j, r.root = some j ∧ j ∈ Path.indices (⟨s, b, i, other⟩ :: path) := by
    have hroot := h.focus.around
    clear h
    generalize t.root? = hole at hroot
    induction path generalizing s b i other hole with
    | nil =>
      obtain ⟨-, -, hu⟩ := hroot
      exact ⟨i, hu, by simp [Path.indices]⟩
    | cons turn up ih =>
      obtain ⟨-, -, hu⟩ := hroot
      obtain ⟨j, hj, hmem⟩ := ih _ hu
      exact ⟨j, hj, by simp_all [Path.indices]⟩
  intro heq
  exact h.focus.nodes_disjoint.2.2 j (Shape.root?_mem (heq.trans hj)) hmem

theorem settleBlack_red {up : Option Nat} {fuel : Nat} (h : Stage r₀ nodes r path t)
    (hred : t.isRed = true) : settleBlack (fuel + 1) r up t.root? = r.blacken t.root? := by
  simp only [settleBlack, h.isRed, ok_bind, hred, if_true]

theorem Stage.blacken_spec (h : Stage r₀ nodes r path t) (ht : t.blacken.Balanced true k)
    (hp : path.Balanced true k) :
    Yields (r.blacken t.root?) fun r' =>
      ∃ t' k', Stage r₀ nodes r' [] t' ∧ t'.Balanced true k' := by
  obtain ⟨k', hk'⟩ := hp.fill ht
  apply h.blacken.mono
  intro r₁ h₁
  exact ⟨_, k', ⟨focus_fill.1 h₁.focus, h₁.inorder, h₁.touches⟩, hk'⟩

theorem endDeficit_spec {i : Nat} {x y : Shape} {c₁ c₂ : Bool}
    (h : Stage r₀ nodes r (⟨s, b, p, .join s true i x y⟩ :: path) t) (ht : t.Balanced true k)
    (hx : x.Balanced c₁ k) (hy : y.Balanced c₂ k) (hc : (c₁ && c₂) = false)
    (hp : path.Balanced b (if b then k + 2 else k + 1)) :
    Yields (do
      let (r, i) ← r.reddenOuter p s i
      let r ← r.closeDeficit p s i
      r.blacken r.root) fun r' => ∃ t' k', Stage r₀ nodes r' [] t' ∧ t'.Balanced true k' := by
  apply (reddenOuter_spec h hx hy (Bool.and_eq_false_iff.1 hc)).bind
  intro out hout
  obtain ⟨r₁, i₁⟩ := out
  obtain ⟨i', x', y', c', h₁, rfl, hx', hy'⟩ := hout
  apply (closeDeficit_spec h₁ ht hx' hy').bind
  intro r₂ h₂
  obtain ⟨t₂, h₂, ht₂⟩ := h₂
  obtain ⟨_, hk'⟩ := hp.fill ht₂
  exact h₂.blacken_root hk'

/-- Repairing the colour rules upwards from a subtree that lacks a black node ends in a red-black
tree. -/
theorem settleBlack_spec {fuel : Nat} (h : Stage r₀ nodes r path t) (ht : t.Balanced c k)
    (hp : path.Balanced true (k + 1)) (hfuel : path.length + 1 < fuel) :
    Yields (settleBlack fuel r path.parent t.root?) fun r' =>
      ∃ t' k', Stage r₀ nodes r' [] t' ∧ t'.Balanced true k' := by
  induction fuel generalizing r path t c k with
  | zero => omega
  | succ fuel ih =>
    cases c with
    | false =>
      rw [settleBlack_red h ht.isRed_eq]
      exact h.blacken_spec ht.blacken_red hp
    | true =>
      have hred := ht.isRed_eq
      cases path with
      | nil =>
        simp only [settleBlack, h.isRed, hred, ok_bind, h.root_of_nil]
        simp only [Bool.not_true, Bool.false_eq_true, if_false, if_true]
        exact h.blacken_spec (ht.blacken_eq.symm ▸ ht) .root
      | cons turn up =>
        obtain ⟨s, b, p, other⟩ := turn
        obtain ⟨c', ho, -⟩ := hp.red_or_black
        obtain ⟨i, x, y, rfl⟩ := ho.root_of_pos s
        have hside := h.sideOf (h.root_ne (.inr (Shape.root?_join ..)))
        simp only [List.length_cons] at hfuel
        simp only [settleBlack, h.isRed, hred, ok_bind, h.ne_root, hside, Path.parent]
        simp only [Bool.not_true, Bool.false_eq_true, if_false]
        apply (blackenSibling_spec h hp).bind
        intro hr₁ hb₁
        obtain ⟨r₁, i₁⟩ := hr₁
        obtain ⟨b₁, i, x, y, up₁, h₁, hi, ⟨c₁, c₂, hx, hy⟩, hredup, hblackup⟩ := hb₁
        dsimp only at h₁ hi ⊢
        subst hi
        have hother := stage_swap.1 h₁
        simp only [hother.childrenBlack, hx.isRed_eq, hy.isRed_eq, ok_bind, Bool.not_not]
        cases hboth : (c₁ && c₂) with
        | true =>
          -- the sibling is reddened, and the deficit passes to the node above
          obtain ⟨rfl, rfl⟩ := Bool.and_eq_true_iff.1 hboth
          simp only [if_true]
          apply (hother.setBlack false).bind
          intro r₂ h₂
          have h₂' := stage_cons.1 (stage_swap.2 h₂)
          obtain ⟨e, he⟩ := h₂'.node
          simp only [he, ok_bind, Node.joined_parent]
          have hpt : ∀ b, (Shape.join s b p t (.join s false i₁ x y)).root? = some p := fun b =>
            Shape.root?_join ..
          have hblack : (Shape.join s true p t (.join s false i₁ x y)).Balanced true (k + 1) :=
            .black_join ht (.red_join hx hy)
          cases b₁ with
          | true =>
            obtain ⟨hup, rfl⟩ := hblackup rfl
            exact hpt true ▸ ih h₂' hblack hup (by omega)
          | false =>
            obtain ⟨fuel, rfl⟩ : ∃ f, fuel = f + 1 := ⟨fuel - 1, by omega⟩
            rw [← hpt false, settleBlack_red h₂' (Shape.isRed_join ..)]
            exact h₂'.blacken_spec (Shape.blacken_join .. ▸ hblack) (hredup rfl).to_black
        | false =>
          simp only [Bool.false_eq_true, if_false]
          apply endDeficit_spec h₁ ht hx hy hboth
          cases b₁ with
          | true => exact (hblackup rfl).1
          | false => exact hredup rfl

end Rooted

end InstanceTree.RedBlack
