import InstanceTree.Group.Leader
import InstanceTree.Proofs.Forest.Linking
import InstanceTree.Proofs.Forest.Unlinking
import InstanceTree.Proofs.Group.Rows

namespace InstanceTree

namespace Forest

def anchorAt (f : Forest) (n : NodeId) : Option Anchor :=
  (f.get? n).bind (·.anchor)

theorem Tidy.anchorAt {f : Forest} (h : f.Tidy) (n : NodeId) : Drops (f.anchorAt n) := by
  cases he : f.get? n with
  | none =>
    rw [Forest.anchorAt, he]
    exact drops_none
  | some e =>
    rw [Forest.anchorAt, he]
    exact h n e he

def anchored (f : Forest) (a : NodeId → Option Anchor) : Forest :=
  f.retouch (fun i e => { e with anchor := a i }) id

def bare (f : Forest) : Forest :=
  f.anchored fun _ => none

variable {f g : Forest} {a b : NodeId → Option Anchor} {k : Layout} {n : NodeId} {e : Element}
  {p : Option NodeId} {t : SchemaId}

@[simp] theorem get?_anchored (f : Forest) (a : NodeId → Option Anchor) (n : NodeId) :
    (f.anchored a).get? n = (f.get? n).map fun e => { e with anchor := a n } :=
  get?_retouch ..

theorem anchored_anchored : (f.anchored a).anchored b = f.anchored b :=
  retouch_retouch ..

theorem anchored_anchorAt (f : Forest) : f.anchored f.anchorAt = f :=
  retouch_id (fun n e he => by simp [anchorAt, he]) rfl

theorem anchored_self (h : ∀ n e, f.get? n = some e → a n = e.anchor) : f.anchored a = f :=
  retouch_id (fun n e he => by rw [h n e he]) rfl

@[simp] theorem bare_anchored (f : Forest) (a : NodeId → Option Anchor) :
    (f.anchored a).bare = f.bare :=
  anchored_anchored

theorem anchorAt_anchored (he : f.get? n = some e) : (f.anchored a).anchorAt n = a n := by
  simp [anchorAt, he]

@[simp] theorem kind?_anchored (f : Forest) (a : NodeId → Option Anchor) :
    (f.anchored a).kind? = f.kind? :=
  funext (kind?_retouch fun _ _ => rfl)

@[simp] theorem isOf_anchored (f : Forest) (a : NodeId → Option Anchor) :
    (f.anchored a).isOf = f.isOf :=
  funext (isOf_retouch fun _ _ => rfl)

theorem keepsPlace_anchor (a : NodeId → Option Anchor) :
    KeepsPlace fun i e => { e with anchor := a i } := by
  constructor <;> exact fun _ _ => rfl

@[simp] theorem group_anchored (f : Forest) (a : NodeId → Option Anchor) :
    (f.anchored a).group = f.group :=
  group_retouch (keepsPlace_anchor a)

@[simp] theorem row_anchored (f : Forest) (a : NodeId → Option Anchor) :
    (f.anchored a).row = f.row :=
  row_retouch (keepsPlace_anchor a)

@[simp] theorem valueAt_anchored (f : Forest) (a : NodeId → Option Anchor) :
    (f.anchored a).valueAt = f.valueAt :=
  valueAt_retouch (keepsPlace_anchor a)

@[simp] theorem rowOrder_anchored (f : Forest) (a : NodeId → Option Anchor) :
    (f.anchored a).rowOrder = f.rowOrder := by
  funext k node n m
  simp [rowOrder]

theorem update_anchor_eq (he : f.get? n = some e) (h : Option Anchor → Option Anchor) :
    (f.anchored a).update n (fun e => { e with anchor := h e.anchor }) =
      .ok (f.anchored (Function.update a n (h (a n)))) := by
  have hn : (f.anchored a).get? n = some { e with anchor := a n } := by simp [he]
  rw [update_eq hn, anchored, retouch_retouch]
  refine congrArg Except.ok (retouch_congr (fun i e' _ => ?_) rfl)
  by_cases hi : i = n
  · subst hi
    simp [touch]
  · simp [touch, hi]

theorem anchored_rewired {relink : NodeId → Element → Element} {note : Children → Children}
    (h : ∀ i e x, relink i { e with anchor := x } = { relink i e with anchor := x }) :
    (f.anchored a).rewired p relink note = (f.rewired p relink note).anchored a := by
  rw [anchored, anchored, rewired, rewired, retouch_retouch, retouch_retouch]
  refine retouch_congr (fun i e _ => ?_) rfl
  rw [h]
  simp only [touchChain, Element.mapChildren]
  split
  · split <;> rfl
  · rfl

theorem anchored_placed (prev next : Option NodeId) :
    (f.anchored a).placed t p prev n next = (f.placed t p prev n next).anchored a := by
  have hentering : (f.anchored a).entering t prev n next = f.entering t prev n next := by
    funext c
    simp [entering]
  rw [placed, hentering]
  apply anchored_rewired
  intro i e x
  unfold linkage
  repeat' split
  all_goals rfl

theorem anchored_removed (prev next : Option NodeId) :
    (f.anchored a).removed t p prev n next = (f.removed t p prev n next).anchored a := by
  apply anchored_rewired
  intro i e x
  unfold unlinkage
  repeat' split
  all_goals rfl

end Forest

open Forest

theorem Laid.anchored {s : Schema} {f : Forest} {k : Layout} (h : Laid s f k)
    (a : NodeId → Option Anchor) : Laid s (f.anchored a) k :=
  h.retouch (keepsPlace_anchor a)

theorem Laid.startsRun_eq {s : Schema} {f : Forest} {k : Layout} (h : Laid s f k)
    {p : Option NodeId} {n : NodeId} {e : Element} {xs ys : List NodeId} (hk : k p = xs ++ n :: ys)
    (he : f.get? n = some e) (hfirst : ∀ m ∈ xs, f.isOf e.schema m = false) :
    f.startsRun n = .ok true := by
  obtain ⟨e', he', -, -, hprev, -⟩ := h.links p xs n ys hk
  cases he.symm.trans he'
  simp only [startsRun, element_of_get? he, ok_bind, hprev, bounds_eq (h.alive_last hk),
    any_getLast?_eq_false hfirst]
  rfl

theorem Keyed.anchored {s : Schema} {f : Forest} {k : Layout} (h : Keyed s f k)
    (a : NodeId → Option Anchor) : Keyed s (f.anchored a) k := by
  simpa [Keyed] using h

end InstanceTree
