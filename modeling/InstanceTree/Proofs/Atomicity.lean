import InstanceTree.Proofs.ChainInvariant
import InstanceTree.Proofs.Operations.Slots

namespace InstanceTree

open Edit Forest

variable {ctx : Context} {f : Forest} {k : Layout}

/-- Every operation but the import, which links one element after the other, is refused before it
has changed anything, or takes back what it has changed. -/
theorem Operation.perform_atomic (h : Sound ctx f k) (hs : ctx.schema.Built) (op : Operation)
    (hop : ∀ parent document, op ≠ .importDocument parent document) :
    Atomic (op.perform ctx) f fun _ => True := by
  by_cases hfree : ∃ n, op = .free n
  · obtain ⟨n, rfl⟩ := hfree
    have hatomic := (free_atomic h hs n).mono fun _ _ => trivial
    exact Ensures.bind hatomic (fun _ _ hg => Ensures.pure hg) fun _ _ hg => hg
  · refine (op.perform_stores h hs (by simpa using hfree) hop).mono fun r g hr => ?_
    cases r with
    | ok _ => trivial
    | error _ => exact hr

/-- In a reachable forest a refused operation changes nothing: neither elements nor free slots,
links, metadata, or anchors with their indexes. -/
theorem Reachable.refused_unchanged (h : Reachable ctx f) (hs : ctx.schema.Built) (op : Operation)
    (hop : ∀ parent document, op ≠ .importDocument parent document) {why : Refusal} {g : Forest}
    (hrefused : (op.perform ctx).perform f = .ok (.error why, g)) : g = f := by
  obtain ⟨k, hsound⟩ := h.sound hs
  exact op.perform_atomic hsound hs hop _ g hrefused

def Context.ofFewNumbers (limit : Nat) : Context :=
  { ofNumbers true with options := { indexLimit := some limit } }

/-- An index that is full when a third number comes stays as it is. -/
theorem Reachable.refused_unchanged_of_full_index : ∃ f, Reachable (.ofFewNumbers 2) f ∧
    f.anchorState 0 = .ok (.materialized 2) ∧
      ((Operation.insertChild none 2).perform (.ofFewNumbers 2)).perform f =
        .ok (.error .indexFull, f) := by
  have hthree := (((Reachable.empty : Reachable (.ofFewNumbers 2) .empty).step
    (.createTerm 0 (.uint 5)) rfl).step (.createTerm 0 (.uint 7)) rfl).step
      (.createTerm 0 (.uint 6)) rfl
  have h := (hthree.step (.insertChild none 0) rfl).step (.insertChild none 1) rfl
  obtain ⟨f, g, h, hstate, hrefused⟩ : ∃ f g, Reachable (.ofFewNumbers 2) f ∧
      f.anchorState 0 = .ok (.materialized 2) ∧
        ((Operation.insertChild none 2).perform (.ofFewNumbers 2)).perform f =
          .ok (.error .indexFull, g) := ⟨_, _, h, rfl, rfl⟩
  cases Reachable.refused_unchanged h Schema.numbers_built (.insertChild none 2) nofun hrefused
  exact ⟨f, h, hstate, hrefused⟩

end InstanceTree
