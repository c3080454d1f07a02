import InstanceTree.Proofs.Edit
import InstanceTree.Proofs.Erasure.Anchored

namespace InstanceTree

open Forest

namespace Edit

variable {α β : Type} {a : NodeId → Option Anchor} {f : Forest}

/-- With the anchors `a`, the second edit does what the first one does with those of `f`, and it
leaves them alone. -/
def Mirrors (a : NodeId → Option Anchor) (op op' : Edit α) (f : Forest) : Prop :=
  op'.perform (f.anchored a) = Prod.map id (·.anchored a) <$> op.perform f

namespace Mirrors

variable {op op' : Edit α} {next next' : α → Edit β}

theorem pure (x : α) : Mirrors a (pure x : Edit α) (Pure.pure x) f := rfl

theorem refuse (why : Refusal) :
    Mirrors a (Edit.refuse why : Edit α) (Edit.refuse why) f := rfl

theorem look {view : Forest → Except Fault α} (h : view (f.anchored a) = view f) :
    Mirrors a (Edit.look view) (Edit.look view) f := by
  rw [Mirrors, perform_look, perform_look, h]
  cases view f <;> rfl

theorem change {c c' : Forest → Except Fault Forest}
    (h : c' (f.anchored a) = (·.anchored a) <$> c f) :
    Mirrors a (Edit.change c) (Edit.change c') f := by
  rw [Mirrors, perform_change, perform_change, h]
  cases c f <;> rfl

theorem bind (h : Mirrors a op op' f)
    (hnext : ∀ x g, op.perform f = .ok (.ok x, g) → Mirrors a (next x) (next' x) g) :
    Mirrors a (op >>= next) (op' >>= next') f := by
  rw [Mirrors, perform_bind, perform_bind, show op'.perform (f.anchored a) = _ from h]
  cases hop : op.perform f with
  | error _ => rfl
  | ok out =>
    obtain ⟨r, g⟩ := out
    cases r with
    | error _ => rfl
    | ok x => exact hnext x g hop

theorem tryCatch {handle handle' : Refusal → Edit α} (h : Mirrors a op op' f)
    (hhandle : ∀ why g, op.perform f = .ok (.error why, g) →
      Mirrors a (handle why) (handle' why) g) :
    Mirrors a (tryCatch op handle) (tryCatch op' handle') f := by
  rw [Mirrors, perform_tryCatch, perform_tryCatch, show op'.perform (f.anchored a) = _ from h]
  cases hop : op.perform f with
  | error _ => rfl
  | ok out =>
    obtain ⟨r, g⟩ := out
    cases r with
    | ok _ => rfl
    | error why => exact hhandle why g hop

theorem bind_element {n : NodeId} {next next' : Element → Edit β}
    (hnext : ∀ e, f.element n = .ok e → Mirrors a (next e) (next' (e.anchored (a n))) f) :
    Mirrors a (Edit.look (element · n) >>= next) (Edit.look (element · n) >>= next') f := by
  rw [Mirrors, perform_bind, perform_bind, perform_look, perform_look, element_anchored]
  cases he : f.element n with
  | error _ => rfl
  | ok e => exact hnext e he

theorem bind_look {view : Forest → Except Fault α} (h : view (f.anchored a) = view f)
    (hnext : ∀ x, view f = .ok x → Mirrors a (next x) (next' x) f) :
    Mirrors a (Edit.look view >>= next) (Edit.look view >>= next') f := by
  apply (look h).bind
  intro x g hg
  rw [perform_look, bind_eq_ok] at hg
  obtain ⟨y, hy, heq⟩ := hg
  cases heq
  exact hnext x hy

theorem guard {c : Prop} [Decidable c] {why : Refusal} {rest rest' : Edit β}
    (h : ¬c → Mirrors a rest rest' f) :
    Mirrors a (if c then Edit.refuse why >>= fun _ : Unit => rest else rest)
      (if c then Edit.refuse why >>= fun _ : Unit => rest' else rest') f := by
  by_cases hc : c
  · rw [if_pos hc, if_pos hc]
    exact bind (refuse why) nofun
  · rw [if_neg hc, if_neg hc]
    exact h hc

theorem mapM_look {ι : Type} {link : Option ι} {view : ι → Forest → Except Fault α}
    (h : ∀ i, view i (f.anchored a) = view i f) :
    Mirrors a (link.mapM fun i => Edit.look (view i)) (link.mapM fun i => Edit.look (view i))
      f := by
  cases link with
  | none => exact pure none
  | some i =>
    rw [mapM_look_some]
    exact bind_look (h i) fun x _ => pure (some x)

end Mirrors

/-- An edit that does with the anchors `a` what it does with any others, and leaves them alone. -/
def Blind (a : NodeId → Option Anchor) (op : Edit α) : Prop :=
  ∀ f, Mirrors a op op f

namespace Blind

variable {op : Edit α} {next : α → Edit β}

theorem pure (x : α) : Blind a (pure x : Edit α) := fun _ => .pure x

theorem refuse (why : Refusal) : Blind a (Edit.refuse why : Edit α) := fun _ => .refuse why

theorem look {view : Forest → Except Fault α} (h : ∀ f : Forest, view (f.anchored a) = view f) :
    Blind a (Edit.look view) :=
  fun f => .look (h f)

theorem change {c : Forest → Except Fault Forest}
    (h : ∀ f : Forest, c (f.anchored a) = (·.anchored a) <$> c f) : Blind a (Edit.change c) :=
  fun f => .change (h f)

theorem bind (h : Blind a op) (hnext : ∀ x, Blind a (next x)) : Blind a (op >>= next) :=
  fun f => (h f).bind fun x g _ => hnext x g

theorem bind_element {n : NodeId} {next : Element → Edit β}
    (h : ∀ (e : Element) x, next (e.anchored x) = next e) (hnext : ∀ e, Blind a (next e)) :
    Blind a (Edit.look (element · n) >>= next) :=
  fun f => .bind_element fun e _ => (h e (a n)).symm ▸ hnext e f

theorem guard {c : Prop} [Decidable c] {why : Refusal} {rest : Edit β} (h : Blind a rest) :
    Blind a (if c then Edit.refuse why >>= fun _ : Unit => rest else rest) :=
  fun f => .guard fun _ => h f

theorem mapM_look {ι : Type} {link : Option ι} {view : ι → Forest → Except Fault α}
    (h : ∀ i (f : Forest), view i (f.anchored a) = view i f) :
    Blind a (link.mapM fun i => Edit.look (view i)) :=
  fun f => .mapM_look fun i => h i f

end Blind

end Edit

end InstanceTree
