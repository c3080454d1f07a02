import InstanceTree.Proofs.RedBlack.Audit
import InstanceTree.Proofs.RedBlack.Unfolding

namespace InstanceTree.RedBlack

open Arena

variable {α β δ : Type}

namespace Audit

/-- A check ends with a verdict, and what it lets pass has a property. -/
def Concludes (x : Audit δ α) (P : α → Prop) : Prop :=
  ∃ verdict : Except δ α, x.run = .ok verdict ∧ ∀ a, verdict = .ok a → P a

namespace Concludes

variable {x : Audit δ α} {f : α → Audit δ β} {P : α → Prop} {Q : β → Prop}

theorem pure {a : α} (h : P a) : (Pure.pure a : Audit δ α).Concludes P :=
  ⟨.ok a, rfl, fun b hb => by
    cases hb
    exact h⟩

theorem bind (h : x.Concludes P) (hf : ∀ a, P a → (f a).Concludes Q) : (x >>= f).Concludes Q := by
  obtain ⟨verdict, hx, hP⟩ := h
  have hx' : x = (Except.ok verdict : Except Fault (Except δ α)) := hx
  subst hx'
  cases verdict with
  | error d => exact ⟨.error d, rfl, nofun⟩
  | ok a => exact hf a (hP a rfl)

theorem mono {P' : α → Prop} (h : x.Concludes P) (hP : ∀ a, P a → P' a) : x.Concludes P' := by
  obtain ⟨verdict, hx, hverdict⟩ := h
  exact ⟨verdict, hx, fun a ha => hP a (hverdict a ha)⟩

theorem of_eq {a : α} (h : x.Concludes P) (hx : x = Pure.pure a) : P a := by
  obtain ⟨verdict, hverdict, hP⟩ := h
  subst hx
  cases hverdict
  exact hP a rfl

theorem deny (condition : Bool) (d : δ) :
    (Audit.deny condition d).Concludes fun _ => condition = false := by
  cases condition with
  | false => exact .pure rfl
  | true => exact ⟨.error d, rfl, nofun⟩

end Concludes

end Audit

namespace Arena

variable {a : Arena α}

theorem checkParentLink_concludes (ha : a.InRange) {i : Nat} {n : Node α} (hn : a[i]? = some n)
    (s : Side) : (a.checkParentLink i n s).Concludes fun _ =>
      ∀ j, n.child s = some j → ∃ m : Node α, a[j]? = some m ∧ m.parent = some i := by
  rw [checkParentLink]
  cases hc : n.child s with
  | none => exact .pure (by simp)
  | some j =>
    have hj := Array.getElem?_eq_getElem (ha.child_lt hn hc)
    simp only [node_of_getElem? hj, Audit.lift_ok_bind]
    apply (Audit.Concludes.deny _ _).mono
    intro _ hp k hk
    cases hk
    exact ⟨_, hj, by simpa using hp⟩

theorem isRed_ends (ha : a.InRange) {i : Nat} {n : Node α} (hn : a[i]? = some n) (s : Side) :
    ∃ red, a.isRed (n.child s) = .ok red := by
  cases hc : n.child s with
  | none => exact ⟨false, rfl⟩
  | some j =>
    obtain ⟨m, hm⟩ : ∃ m : Node α, a[j]? = some m :=
      ⟨_, Array.getElem?_eq_getElem (ha.child_lt hn hc)⟩
    exact ⟨!m.black, by rw [isRed, node_of_getElem? hm]; rfl⟩

theorem hasRedChild_ends (ha : a.InRange) {i : Nat} {n : Node α} (hn : a[i]? = some n) :
    Yields (a.hasRedChild n) fun red => red = false →
      a.isRed n.left = .ok false ∧ a.isRed n.right = .ok false := by
  obtain ⟨redl, hl⟩ := isRed_ends ha hn .left
  obtain ⟨redr, hr⟩ := isRed_ends ha hn .right
  simp only [Node.child] at hl hr
  cases redl with
  | true => exact .intro (a := true) (by rw [hasRedChild, hl]; rfl) (by simp)
  | false =>
    refine .intro (a := redr) (by rw [hasRedChild, hl]; exact hr) ?_
    intro hred
    rw [hred] at hr
    exact ⟨hl, hr⟩

theorem checkRed_concludes (ha : a.InRange) {i : Nat} {n : Node α} (hn : a[i]? = some n) {d : δ}
    {x : Audit δ β} {Q : β → Prop}
    (hx : (n.black = false → a.isRed n.left = .ok false ∧ a.isRed n.right = .ok false) →
      x.Concludes Q) :
    (if n.black then x else do
      Audit.deny (← a.hasRedChild n) d
      x).Concludes Q := by
  cases hb : n.black with
  | true => exact hx (by simp [hb])
  | false =>
    obtain ⟨red, hred, himp⟩ := hasRedChild_ends ha hn
    simp only [hred, Audit.lift_ok_bind, Bool.false_eq_true, if_false]
    exact (Audit.Concludes.deny _ _).bind fun _ h => hx fun _ => himp h

theorem black_of_isRed {p : Option Nat} {t : Shape} {c : Bool} {k : Nat} (h : a.Holds p t)
    (ht : t.Balanced c k) (hred : a.isRed t.root? = .ok false) : c = true := by
  have heq : a.isRed t.root? = .ok t.isRed := Rooted.isRed_eq (r := ⟨a, none⟩) h
  have hfalse : t.isRed = false := Except.ok.inj (heq.symm.trans hred)
  simpa [ht.isRed_eq] using hfalse

/-- Correct parent links make the recursion along children end: a way down is a way up backwards,
and meets no node twice. What it lets pass unfolds to a tree that keeps the colour rules. -/
theorem blackHeight_concludes (ha : a.InRange) {up : List Nat} {p link : Option Nat}
    (hup : a.Lineage p up)
    (hlink : ∀ i, link = some i → ∃ n : Node α, a[i]? = some n ∧ n.parent = p)
    {depth : Nat} (hdepth : a.size < up.length + depth) :
    (a.blackHeight depth link).Concludes fun k =>
      ∃ (t : Shape) (c : Bool), t.root? = link ∧ a.Holds p t ∧ t.Balanced c k := by
  induction depth generalizing up p link with
  | zero =>
    have hlen := hup.length_le
    omega
  | succ depth ih =>
    cases link with
    | none => exact .pure ⟨.leaf, true, rfl, trivial, .leaf⟩
    | some i =>
      obtain ⟨n, hn, rfl⟩ := hlink i rfl
      have hup' : a.Lineage (some i) (i :: up) := .up hn hup
      have hdepth' : a.size < (i :: up).length + depth := by
        simp only [List.length_cons]
        omega
      simp only [blackHeight, node_of_getElem? hn, Audit.lift_ok_bind]
      apply (checkParentLink_concludes ha hn .left).bind
      intro _ hl
      apply (checkParentLink_concludes ha hn .right).bind
      intro _ hr
      apply checkRed_concludes ha hn
      intro hred
      apply (ih hup' hl hdepth').bind
      intro kl htl
      obtain ⟨l, cl, hlroot, hlheld, hlbal⟩ := htl
      apply (ih hup' hr hdepth').bind
      intro kr htr
      obtain ⟨right, cr, hrroot, hrheld, hrbal⟩ := htr
      apply (Audit.Concludes.deny _ _).bind
      intro _ hk
      have hk : kl = kr := by simpa using hk
      subst hk
      have hlroot : l.root? = n.left := hlroot
      have hrroot : right.root? = n.right := hrroot
      refine .pure ⟨.node n.black l i right, n.black, rfl, ⟨⟨n.elem, ?_⟩, hlheld, hrheld⟩, ?_⟩
      · rw [hn, hlroot, hrroot]
      · cases hb : n.black with
        | true => exact .black hlbal hrbal
        | false =>
          rw [← hlroot, ← hrroot] at hred
          cases black_of_isRed hlheld hlbal (hred hb).1
          cases black_of_isRed hrheld hrbal (hred hb).2
          exact .red hlbal hrbal

end Arena

namespace Rooted

variable {r : Rooted α} {t : Shape} {c : α → α → Ordering}

/-- The walk along next nodes ends, and lets pass only what no greater element precedes. -/
theorem Unfolds.checkOrder_concludes (h : r.Unfolds [] t) {xs ys : List Nat}
    (ht : t.seen = xs ++ ys) {fuel : Nat} (hfuel : ys.length ≤ fuel) :
    (r.arena.checkOrder (.always c) fuel xs.getLast? ys.head?).Concludes fun _ =>
      r.arena.Rising c (xs.getLast?.toList ++ ys) := by
  have hnode : ∀ i ∈ t.seen, ∃ n : Node α, r.arena[i]? = some n := fun i hi =>
    ⟨_, Array.getElem?_eq_getElem (h.below.lt_size (t.seen_subset hi))⟩
  induction ys generalizing xs fuel with
  | nil =>
    have hend : r.arena.Rising c (xs.getLast?.toList ++ []) := by
      cases xs.getLast? with
      | none => exact .nil
      | some i => exact .singleton i
    cases fuel <;> exact .pure hend
  | cons i ys ih =>
    obtain ⟨fuel, rfl⟩ : ∃ f, fuel = f + 1 := ⟨fuel - 1, by simp at hfuel; omega⟩
    have hnext : r.arena.next i = .ok ys.head? := by simpa [Path.ahead] using h.next_eq ht
    have hpassed : t.seen = (xs ++ [i]) ++ ys := by simpa using ht
    have hrest := ih hpassed (by simpa using hfuel : ys.length ≤ fuel)
    rw [List.getLast?_append, List.getLast?_singleton, Option.some_or] at hrest
    simp only [List.head?_cons, checkOrder, hnext, Audit.lift_ok_bind]
    cases hx : xs.getLast? with
    | none => simpa using hrest
    | some j =>
      obtain ⟨xs, rfl⟩ := List.getLast?_eq_some_iff.1 hx
      obtain ⟨m, hm⟩ := hnode j (by simp [ht])
      obtain ⟨n, hn⟩ := hnode i (by simp [ht])
      simp only [node_of_getElem? hm, node_of_getElem? hn, Audit.lift_ok_bind, Comparator.always]
      apply (Audit.Concludes.deny _ _).bind
      intro _ hle
      apply hrest.mono
      intro _ hrise
      refine List.isChain_cons_cons.2 ⟨?_, hrise⟩
      intro m' n' hm' hn'
      cases hm.symm.trans hm'
      cases hn.symm.trans hn'
      simpa using hle

end Rooted

namespace Arena

variable {a : Arena α} {c : α → α → Ordering} {root : Option Nat}

/-- What a check lets pass unfolds to a tree that keeps the colour rules, and no element that a
walk comes to is greater than the next one. -/
theorem check_concludes (ha : a.InRange) (hroot : ∀ i, root = some i → i < a.size) :
    (a.check (.always c) root).Concludes fun k => ∃ t : Shape,
      (⟨a, root⟩ : Rooted α).Unfolds [] t ∧ t.Balanced true k ∧ a.Rising c t.seen := by
  cases root with
  | none => exact .pure ⟨.leaf, ⟨rfl, trivial⟩, .leaf, .nil⟩
  | some i =>
    obtain ⟨n, hn⟩ : ∃ n : Node α, a[i]? = some n :=
      ⟨_, Array.getElem?_eq_getElem (hroot i rfl)⟩
    simp only [check, node_of_getElem? hn, Audit.lift_ok_bind]
    apply (Audit.Concludes.deny _ _).bind
    intro _ hparent
    apply (Audit.Concludes.deny _ _).bind
    intro _ hblack
    have hp : n.parent = none := by simpa using hparent
    have hlink : ∀ j, some i = some j → ∃ m : Node α, a[j]? = some m ∧ m.parent = none := by
      intro j hj
      cases hj
      exact ⟨n, hn, hp⟩
    have hdepth : a.size < ([] : List Nat).length + (a.size + 1) := by simp
    apply (blackHeight_concludes ha .top hlink hdepth).bind
    intro k htree
    obtain ⟨t, b, hti, hheld, hbal⟩ := htree
    have hu : (⟨a, some i⟩ : Rooted α).Unfolds [] t := ⟨hti.symm, hheld⟩
    have hheight : t.height ≤ a.size + 1 := by
      have hle := hu.height_le
      simp only [List.length_nil] at hle
      omega
    have hfirst : a.first (some i) = .ok t.seen.head? := hu.first_eq
    have hsize := sizeBelow_eq hheld hheight
    have hhigh := heightBelow_eq hheld hheight
    rw [hti] at hsize hhigh
    simp only [treeSize, height, hsize, hhigh, hfirst, Audit.lift_ok_bind]
    apply (Audit.Concludes.deny _ _).bind
    intro _ _
    have hlen : t.seen.length ≤ a.size + 1 := Nat.le_succ_of_le hu.length_seen_le
    apply (hu.checkOrder_concludes (List.nil_append _).symm hlen).bind
    intro _ hrise
    have hb : b = true := by
      apply (hheld.black_root_iff hbal).1
      intro j hj m hm
      cases hti.symm.trans hj
      cases hn.symm.trans hm
      simpa using hblack
    subst hb
    exact .pure ⟨t, hu, hbal, by simpa using hrise⟩

end Arena

end InstanceTree.RedBlack
