import InstanceTree.Fault

namespace InstanceTree

variable {α β ε : Type}

/-- The computation meets no fault, and what it results in has a property. -/
def Yields (x : Except ε α) (P : α → Prop) : Prop :=
  ∃ a, x = .ok a ∧ P a

@[simp] theorem ok_bind (a : α) (f : α → Except ε β) : (Except.ok a >>= f) = f a := rfl

@[simp] theorem error_bind (e : ε) (f : α → Except ε β) :
    (Except.error e >>= f) = .error e := rfl

@[simp] theorem map_ok (f : α → β) (a : α) : (f <$> (Except.ok a : Except ε α)) = .ok (f a) := rfl

theorem bind_eq_ok {x : Except ε α} {f : α → Except ε β} {b : β} :
    (x >>= f) = .ok b ↔ ∃ a, x = .ok a ∧ f a = .ok b := by
  cases x with
  | ok a => simp
  | error e => simp

namespace Yields

variable {x : Except ε α} {f : α → Except ε β} {P : α → Prop} {Q : β → Prop}

theorem intro {a : α} (hx : x = .ok a) (hP : P a) : Yields x P :=
  ⟨a, hx, hP⟩

theorem mono {P' : α → Prop} (h : Yields x P) (hP : ∀ a, P a → P' a) : Yields x P' := by
  obtain ⟨a, ha, hPa⟩ := h
  exact ⟨a, ha, hP a hPa⟩

theorem bind (h : Yields x P) (hf : ∀ a, P a → Yields (f a) Q) : Yields (x >>= f) Q := by
  obtain ⟨a, ha, hPa⟩ := h
  subst ha
  exact hf a hPa

theorem of_eq {a : α} (h : Yields x P) (hx : x = .ok a) : P a := by
  obtain ⟨b, hb, hP⟩ := h
  cases hb.symm.trans hx
  exact hP

end Yields

end InstanceTree
