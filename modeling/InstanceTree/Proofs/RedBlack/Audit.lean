import InstanceTree.Proofs.RedBlack.Order
import InstanceTree.RedBlack.Check
import Mathlib.Algebra.Ring.Nat
import Mathlib.Data.List.Chain

namespace InstanceTree.RedBlack

open Arena

variable {α β δ : Type}

@[simp] theorem Audit.lift_ok_bind (a : α) (f : α → Audit δ β) :
    ((liftM (Except.ok a : Except Fault α) : Audit δ α) >>= f) = f a := rfl

@[simp] theorem Audit.deny_false (d : δ) : Audit.deny false d = pure () := rfl

namespace Shape.Balanced

variable {t : Shape} {c : Bool} {k : Nat}

theorem height_le (h : t.Balanced c k) : t.height ≤ if c then 2 * k else 2 * k + 1 := by
  induction h with
  | leaf => exact Nat.le_refl _
  | red hl hr ihl ihr =>
    simp only [height, if_true, if_false, Bool.false_eq_true] at *
    omega
  | black hl hr ihl ihr =>
    simp only [height, if_true]
    split at ihl <;> split at ihr <;> omega

theorem two_pow_le (h : t.Balanced c k) : 2 ^ k ≤ t.inorder.length + 1 := by
  induction h with
  | leaf => exact Nat.le_refl _
  | red hl hr ihl ihr =>
    simp only [inorder, List.length_append, List.length_cons]
    omega
  | black hl hr ihl ihr =>
    simp only [inorder, List.length_append, List.length_cons, Nat.pow_succ]
    omega

/-- A red-black tree is at most twice as high as the binary logarithm of its size. -/
theorem two_pow_height_le (h : t.Balanced true k) :
    2 ^ t.height ≤ (t.inorder.length + 1) * (t.inorder.length + 1) := by
  have hheight : t.height ≤ 2 * k := h.height_le
  have hpow := h.two_pow_le
  calc 2 ^ t.height ≤ 2 ^ (2 * k) := Nat.pow_le_pow_right (by decide) hheight
    _ = 2 ^ k * 2 ^ k := by rw [Nat.two_mul, Nat.pow_add]
    _ ≤ (t.inorder.length + 1) * (t.inorder.length + 1) := Nat.mul_le_mul hpow hpow

theorem not_tooHigh (h : t.Balanced true k) : isTooHigh t.height t.inorder.length = false := by
  simpa [isTooHigh] using h.two_pow_height_le

end Shape.Balanced

namespace Arena

variable {a : Arena α} {t : Shape} {c : Bool} {k : Nat}

theorem checkParentLink_eq {i : Nat} {n : Node α} {s : Side}
    (h : a.Holds (some i) t) (hn : n.child s = t.root?) : a.checkParentLink i n s = pure () := by
  rw [checkParentLink, hn]
  cases hr : t.root? with
  | none => rfl
  | some j =>
    obtain ⟨m, hm, hmp⟩ := h.root_node hr
    simp [node_of_getElem? hm, hmp]

theorem blackHeight_eq {p : Option Nat} (h : a.Holds p t) (ht : t.Balanced c k) {depth : Nat}
    (hdepth : t.height ≤ depth) : a.blackHeight depth t.root? = pure k := by
  induction t generalizing p c k depth with
  | leaf =>
    cases ht
    cases depth <;> rfl
  | node b l i right ihl ihr =>
    obtain ⟨⟨e, he⟩, hl, hr⟩ := h
    simp only [Shape.height] at hdepth
    obtain ⟨depth, rfl⟩ : ∃ d, depth = d + 1 := ⟨depth - 1, by omega⟩
    have hdl : l.height ≤ depth := by omega
    have hdr : right.height ≤ depth := by omega
    show a.blackHeight (depth + 1) (some i) = _
    have hredl : a.isRed l.root? = .ok l.isRed := Rooted.isRed_eq (r := ⟨a, none⟩) hl
    have hredr : a.isRed right.root? = .ok right.isRed := Rooted.isRed_eq (r := ⟨a, none⟩) hr
    have hlinkl := checkParentLink_eq (n := ⟨p, l.root?, right.root?, b, e⟩) (s := .left) hl rfl
    have hlinkr := checkParentLink_eq (n := ⟨p, l.root?, right.root?, b, e⟩) (s := .right) hr rfl
    simp only [blackHeight, node_of_getElem? he, Audit.lift_ok_bind, hlinkl, hlinkr, pure_bind]
    cases ht with
    | red htl htr =>
      simp only [hasRedChild, hredl, hredr, htl.isRed_eq, htr.isRed_eq, ok_bind,
        ihl hl htl hdl, ihr hr htr hdr, pure_bind]
      simp
    | black htl htr =>
      simp only [ihl hl htl hdl, ihr hr htr hdr,
        pure_bind]
      simp

def Passes (a : Arena α) (cmp : Comparator α) (nodes : List Nat) : Prop :=
  nodes.IsChain fun i j => ∀ m n : Node α, a[i]? = some m → a[j]? = some n →
    ∃ o, cmp m.elem n.elem = .ok o ∧ o ≠ .gt

theorem Ascending.passes {cmp : Comparator α} {c : α → α → Ordering} {S : α → Prop}
    {nodes : List Nat} (h : a.Ascending c nodes) (hs : cmp.Sorts c S) (hin : a.Within S nodes) :
    a.Passes cmp nodes := by
  refine (h.imp_of_mem ?_).isChain
  intro i j hi hj hle m n hm hn
  exact ⟨c m.elem n.elem, hs.eq_ok (hin i hi m hm) (hin j hj n hn), hle m n hm hn⟩

theorem Rising.passes {c : α → α → Ordering} {nodes : List Nat} (h : a.Rising c nodes) :
    a.Passes (.always c) nodes :=
  h.imp fun _ _ hle m n hm hn => ⟨c m.elem n.elem, rfl, hle m n hm hn⟩

end Arena

namespace Rooted

variable {r : Rooted α} {t : Shape} {cmp : Comparator α} {c : α → α → Ordering} {S : α → Prop}

theorem checkOrder_eq (h : r.Focus [] t) (hpass : r.arena.Passes cmp t.inorder)
    {xs ys : List Nat} (ht : t.inorder = xs ++ ys) {fuel : Nat} (hfuel : ys.length ≤ fuel) :
    r.arena.checkOrder cmp fuel xs.getLast? ys.head? = pure () := by
  induction ys generalizing xs fuel with
  | nil => cases fuel <;> rfl
  | cons i ys ih =>
    obtain ⟨fuel, rfl⟩ : ∃ f, fuel = f + 1 := ⟨fuel - 1, by simp at hfuel; omega⟩
    have hnext : r.arena.next i = .ok ys.head? := neighbour_eq .right h ht
    have hpassed : t.inorder = (xs ++ [i]) ++ ys := by simpa using ht
    have hrest := ih hpassed (by simpa using hfuel)
    rw [List.getLast?_append, List.getLast?_singleton, Option.some_or] at hrest
    simp only [List.head?_cons, checkOrder, hnext, Audit.lift_ok_bind, hrest]
    cases hx : xs.getLast? with
    | none => rfl
    | some j =>
      obtain ⟨m, hm⟩ := h.exists_node (s := .left) (i := j)
        (by simp [Shape.order, ht, List.mem_of_getLast? hx])
      obtain ⟨n, hn⟩ := h.exists_node (s := .left) (i := i) (by simp [Shape.order, ht])
      rw [ht] at hpass
      obtain ⟨o, ho, hle⟩ := (List.isChain_append.1 hpass).2.2 j hx i rfl m n hm hn
      simp [node_of_getElem? hm, node_of_getElem? hn, ho, hle]

theorem check_of_passes {k : Nat} (h : r.Focus [] t) (ht : t.Balanced true k)
    (hpass : r.arena.Passes cmp t.inorder) : r.arena.check cmp r.root = pure k := by
  have hroot : r.root = t.root? := h.around
  have hlen := h.length_lt
  have hheight := t.height_le_length
  cases hi : t.root? with
  | none =>
    rw [Shape.root?_eq_none] at hi
    subst hi
    cases ht
    rw [hroot]
    rfl
  | some i =>
    obtain ⟨m, hm, hmp⟩ := h.below.root_node hi
    have hblack : m.black = true := (h.below.black_root_iff ht).2 rfl i hi m hm
    have hfirst : r.arena.first (some i) = .ok t.inorder.head? := by
      rw [← hi]
      exact Arena.extreme_eq .left h.below (by omega)
    have hdepth : t.height ≤ r.arena.size + 1 := by omega
    have hheights := blackHeight_eq h.below ht hdepth
    have hsize := sizeBelow_eq h.below hdepth
    have hhigh := heightBelow_eq h.below hdepth
    have horder := checkOrder_eq h hpass (List.nil_append _).symm hlen.le
    rw [hi] at hheights hsize hhigh
    rw [hroot, hi]
    simp only [check, treeSize, Arena.height, node_of_getElem? hm, hmp, hblack, hheights, hsize,
      hhigh, hfirst, ht.not_tooHigh, Audit.lift_ok_bind, pure_bind]
    rw [List.getLast?_nil] at horder
    rw [horder]
    rfl

theorem check_eq {k : Nat} (h : r.Focus [] t) (ht : t.Balanced true k) (hs : cmp.Sorts c S)
    (hin : r.arena.Within S t.inorder) (hasc : r.arena.Ascending c t.inorder) :
    r.arena.check cmp r.root = pure k :=
  check_of_passes h ht (hasc.passes hs hin)

end Rooted

end InstanceTree.RedBlack
