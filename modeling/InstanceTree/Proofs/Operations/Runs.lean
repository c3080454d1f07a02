import InstanceTree.Proofs.Operations.Creation
import InstanceTree.Proofs.Operations.Metadata
import InstanceTree.Proofs.Operations.Removal
import InstanceTree.Proofs.Operations.Stepwise

namespace InstanceTree

open Edit Forest

/-- The forests that operations lead to from the empty one, refused operations included. -/
inductive Reachable (ctx : Context) : Forest → Prop
  | empty : Reachable ctx .empty
  | step {f g : Forest} {r : Except Refusal Outcome} (op : Operation) : Reachable ctx f →
      (op.perform ctx).perform f = .ok (r, g) → Reachable ctx g

theorem get?_empty (n : NodeId) : Forest.empty.get? n = none := by
  simp [Forest.empty, get?]

theorem chain?_empty {p : Option NodeId} {c : Children} (hc : Forest.empty.chain? p = some c) :
    c = {} := by
  cases p with
  | none => exact (Option.some.inj hc).symm
  | some i => simp [chain?, get?_empty] at hc

theorem laid_empty (s : Schema) : Laid s .empty fun _ => [] := by
  have hget : ∀ {n e}, Forest.empty.get? n ≠ some e := by
    intro n e he
    cases (get?_empty n).symm.trans he
  constructor
  case slots_le => exact Nat.zero_le _
  case vacant_nodup => exact List.nodup_nil
  case vacant_empty => simp [Forest.empty]
  case empty_vacant => simp [Forest.empty]
  case typed => exact fun n e he => absurd he hget
  case nodup => exact fun _ => List.nodup_nil
  case links =>
    intro p xs n ys hk
    simp at hk
  case placed => exact fun n e he => absurd he hget
  case loose => exact fun n e he => absurd he hget
  case childless => exact fun _ _ => rfl
  case first =>
    intro p c hc
    rw [chain?_empty hc]
    rfl
  case last =>
    intro p c hc
    rw [chain?_empty hc]
    rfl
  case runs =>
    intro p c t hc
    rw [chain?_empty hc]
    rfl
  case contiguous => exact fun p t => ⟨[], [], [], rfl, by simp, by simp, by simp⟩
  case below =>
    intro p n e hn
    cases hn

theorem keyLed_empty (s : Schema) : KeyLed s .empty fun _ => [] := by
  intro p
  refine ⟨[], [], rfl, ?_, by simp⟩
  cases p <;> simp [keysBelow, kind?, get?_empty]

theorem sound_empty (ctx : Context) :
    Sound ctx .empty (fun _ => []) ∧ KeyLed ctx.schema .empty fun _ => [] := by
  refine ⟨?_, keyLed_empty ctx.schema⟩
  constructor
  case laid => exact laid_empty ctx.schema
  case keyed =>
    intro n t node hn
    simp [kind?, get?_empty] at hn
  case ascending =>
    intro p t node _ _
    exact List.Pairwise.nil
  case anchored =>
    constructor
    · intro p t node kind _ _ n hn
      cases hn
    · intro n x hx
      simp [anchorAt, get?_empty] at hx

theorem Forest.stepwise_keeps {ctx : Context} (hs : ctx.schema.Built) :
    Stepwise ctx ctx fun op _ => Keeps (IsSound ctx) op where
  schema_eq := rfl
  pure := Keeps.pure
  refuse := Keeps.refuse
  fixed := fun x => Keeps.look fun _ => x
  kind := fun i => Keeps.look (schemaOf · i)
  bind := Keeps.bind
  tryCatch := Keeps.tryCatch
  createTerm := createTerm_keeps ctx hs
  createContainer := createContainer_keeps ctx hs
  createList := createList_keeps ctx hs
  insertChild p n := by
    apply Atomic.keeps
    intro f hsound
    obtain ⟨k, h, hled⟩ := hsound
    exact (insertChild_atomic h hs p n).mono fun g ⟨e, node, xs, ys, _, hplacing, _⟩ =>
      ⟨_, hplacing.sound, hplacing.keyLed hled⟩
  insertBefore pivot n := by
    apply Atomic.keeps
    intro f hsound
    obtain ⟨k, h, hled⟩ := hsound
    exact (insertBefore_atomic h hs pivot n).mono fun g ⟨p, e, xs, ys, hplacing⟩ =>
      ⟨_, hplacing.sound, hplacing.keyLed hled⟩
  insertAfter pivot n := by
    apply Atomic.keeps
    intro f hsound
    obtain ⟨k, h, hled⟩ := hsound
    exact (insertAfter_atomic h hs pivot n).mono fun g ⟨p, e, xs, ys, hplacing⟩ =>
      ⟨_, hplacing.sound, hplacing.keyLed hled⟩
  appendSibling sibling n := by
    apply Atomic.keeps
    intro f hsound
    obtain ⟨k, h, hled⟩ := hsound
    exact (appendSibling_atomic h hs sibling n).mono fun g ⟨p, e, node, xs, ys, _, hplacing, _⟩ =>
      ⟨_, hplacing.sound, hplacing.keyLed hled⟩
  unlink n := by
    apply Atomic.keeps
    intro f hsound
    obtain ⟨k, h, hled⟩ := hsound
    exact (unlink_atomic h hs n).mono fun g ⟨p, e, xs, ys, hremoving⟩ =>
      ⟨_, hremoving.sound, hremoving.keyLed hled⟩
  free n := by
    apply Atomic.keeps
    intro f hsound
    obtain ⟨k, h, hled⟩ := hsound
    exact free_keepsKeys h hled hs n
  addMetadata := addMetadata_keeps ctx
  removeMetadata := removeMetadata_keeps ctx

theorem perform_keeps {ctx : Context} (hs : ctx.schema.Built) (op : Operation) :
    Keeps (IsSound ctx) (op.perform ctx) :=
  perform_stepwise (stepwise_keeps hs) op

/-- Every reachable forest is sound. -/
theorem Reachable.isSound {ctx : Context} (hs : ctx.schema.Built) {f : Forest}
    (h : Reachable ctx f) : IsSound ctx f := by
  induction h with
  | empty => exact ⟨_, sound_empty ctx⟩
  | step op _ hop ih => exact perform_keeps hs op _ ih _ _ hop

theorem Reachable.sound {ctx : Context} (hs : ctx.schema.Built) {f : Forest}
    (h : Reachable ctx f) : ∃ k, Sound ctx f k := by
  obtain ⟨k, hsound, -⟩ := h.isSound hs
  exact ⟨k, hsound⟩

/-- A schema of one leaf-list of numbers, which is kept sorted. -/
def Schema.numbers : Schema where
  nodes := #[⟨"number", .leafList .uint, none, .system, false, []⟩]
  roots := [0]

theorem Schema.numbers_built : numbers.Built := by
  have hadd : Schema.empty.add none "number" (.leafList .uint) .system false =
      .ok (numbers, 0) := by decide
  exact .leafList .empty hadd

def Context.ofNumbers (indexed : Bool) : Context where
  options := {}
  modules := if indexed then [yangModule] else []
  schema := .numbers

end InstanceTree
