import InstanceTree.Proofs.Erasure.Twins
import InstanceTree.Proofs.Operations.Runs

namespace InstanceTree

open Edit Forest

namespace Forest

variable {ctx ctx' : Context}

theorem stepwise_mirrors (hs : ctx.schema.Built) (twins : ctx.Twins ctx') :
    Stepwise ctx ctx' fun op op' =>
      Keeps (IsSound ctx) op ∧ ∀ f, IsSound ctx f → Mirrors (fun _ => none) op op' f where
  schema_eq := twins.schema_eq
  pure a := ⟨Keeps.pure a, fun f _ => .pure a⟩
  refuse why := ⟨Keeps.refuse why, fun f _ => .refuse why⟩
  fixed x := ⟨(stepwise_keeps hs).fixed x, fun f _ => .look rfl⟩
  kind i := ⟨(stepwise_keeps hs).kind i, fun f _ => .look (schemaOf_anchored f i)⟩
  bind := by
    intro α β op op' next next' hkeeps' hnext
    obtain ⟨hkeeps, hop⟩ := hkeeps'
    refine ⟨hkeeps.bind fun a => (hnext a).1, fun f hf => (hop f hf).bind fun a g hg => ?_⟩
    exact (hnext a).2 g (hkeeps f hf _ _ hg)
  tryCatch := by
    intro α op op' handle handle' hkeeps' hhandle
    obtain ⟨hkeeps, hop⟩ := hkeeps'
    refine ⟨hkeeps.tryCatch fun why => (hhandle why).1, fun f hf =>
      (hop f hf).tryCatch fun why g hg => ?_⟩
    exact (hhandle why).2 g (hkeeps f hf _ _ hg)
  createTerm t v := by
    rw [createTerm_congr twins.schema_eq]
    exact ⟨createTerm_keeps ctx hs t v, fun f _ => createTerm_blind ctx t v f⟩
  createContainer t := by
    rw [createContainer_congr twins.schema_eq]
    exact ⟨createContainer_keeps ctx hs t, fun f _ => createContainer_blind ctx t f⟩
  createList t values := by
    rw [createList_congr twins.schema_eq]
    exact ⟨createList_keeps ctx hs t values, fun f _ => createList_blind ctx t values f⟩
  insertChild p n := by
    refine ⟨(stepwise_keeps hs).insertChild p n, ?_⟩
    intro f hsound
    obtain ⟨k, h, -⟩ := hsound
    exact insertChild_mirrors h hs twins p n
  insertBefore pivot n := by
    rw [insertBefore_congr twins.schema_eq]
    exact ⟨(stepwise_keeps hs).insertBefore pivot n, fun f _ => insertBefore_blind ctx n pivot f⟩
  insertAfter pivot n := by
    rw [insertAfter_congr twins.schema_eq]
    exact ⟨(stepwise_keeps hs).insertAfter pivot n, fun f _ => insertAfter_blind ctx n pivot f⟩
  appendSibling sibling n := by
    refine ⟨(stepwise_keeps hs).appendSibling sibling n, ?_⟩
    intro f hsound
    obtain ⟨k, h, -⟩ := hsound
    exact appendSibling_mirrors h hs twins sibling n
  unlink n := by
    refine ⟨(stepwise_keeps hs).unlink n, ?_⟩
    intro f hsound
    obtain ⟨k, h, -⟩ := hsound
    exact unlink_mirrors h hs twins n
  free n := by
    refine ⟨(stepwise_keeps hs).free n, ?_⟩
    intro f hsound
    obtain ⟨k, h, -⟩ := hsound
    exact free_mirrors h hs twins n
  addMetadata n name value :=
    ⟨addMetadata_keeps ctx n name value, fun f _ => addMetadata_blind n name value f⟩
  removeMetadata n name :=
    ⟨removeMetadata_keeps ctx n name, fun f _ => removeMetadata_blind n name f⟩

end Forest

inductive Command where
  | perform (op : Operation)
  | document (parent : Option NodeId)

inductive Reply where
  | performed (outcome : Except Refusal Outcome)
  | document (j : Json)

def Command.run (ctx : Context) (f : Forest) : Command → Except Fault (Reply × Forest)
  | perform op => Prod.map .performed id <$> (op.perform ctx).perform f
  | document parent => (fun j => (.document j, f)) <$> f.toJson ctx parent

/-- The replies to a script of commands, each with the forest after it, up to the first fault. -/
def trace (ctx : Context) : List Command → Forest → List (Except Fault (Reply × Forest))
  | [], _ => []
  | c :: script, f =>
    match c.run ctx f with
    | .error why => [.error why]
    | .ok (reply, g) => .ok (reply, g) :: trace ctx script g

variable {ctx ctx' : Context}

theorem Command.run_bare (hs : ctx.schema.Built) (twins : ctx.Twins ctx') {f : Forest}
    (hf : IsSound ctx f) (c : Command) :
    c.run ctx' f.bare = Prod.map id Forest.bare <$> c.run ctx f := by
  cases c with
  | perform op =>
    obtain ⟨-, hop⟩ := perform_stepwise (stepwise_mirrors hs twins) op
    have hperform : (op.perform ctx').perform f.bare = _ := hop f hf
    rw [run, run, hperform]
    cases (op.perform ctx).perform f <;> rfl
  | document parent =>
    rw [run, run, toJson_congr twins.schema_eq, Forest.bare, toJson_anchored]
    cases f.toJson ctx parent <;> rfl

theorem Command.run_sound (hs : ctx.schema.Built) {f g : Forest} {reply : Reply} {c : Command}
    (hf : IsSound ctx f) (hc : c.run ctx f = .ok (reply, g)) : IsSound ctx g := by
  cases c with
  | perform op =>
    rw [run] at hc
    cases hop : (op.perform ctx).perform f with
    | error why =>
      rw [hop] at hc
      cases hc
    | ok out =>
      rw [hop] at hc
      cases hc
      exact perform_keeps hs op f hf _ _ hop
  | document parent =>
    rw [run] at hc
    cases hj : f.toJson ctx parent with
    | error why =>
      rw [hj] at hc
      cases hc
    | ok j =>
      rw [hj] at hc
      cases hc
      exact hf

theorem trace_bare (hs : ctx.schema.Built) (twins : ctx.Twins ctx') (script : List Command)
    {f : Forest} (hf : IsSound ctx f) :
    trace ctx' script f.bare = (trace ctx script f).map (Prod.map id Forest.bare <$> ·) := by
  induction script generalizing f with
  | nil => rfl
  | cons c script ih =>
    rw [trace, trace, c.run_bare hs twins hf]
    cases hc : c.run ctx f with
    | error why => rfl
    | ok out =>
      simp only [map_ok, Prod.map_fst, Prod.map_snd, id_eq, List.map_cons, Prod.map_apply]
      rw [ih (Command.run_sound hs hf hc)]

/-- Whether there are indexes or not, commands get the same replies and lead to the same forests,
but for anchors. -/
theorem trace_without_indexes (hschema : ctx'.schema = ctx.schema) (hs : ctx.schema.Built)
    (hunlimited : ctx.options.indexLimit = none) (hplain : ctx'.indexes = false)
    (script : List Command) :
    trace ctx' script .empty =
      (trace ctx script .empty).map (Prod.map id Forest.bare <$> ·) :=
  trace_bare hs ⟨hschema, hunlimited, hplain⟩ script ⟨_, sound_empty ctx⟩

/-- A number that comes second and goes first is found in front, through an index or without. -/
theorem trace_without_indexes_of_two_numbers :
    let script := [.perform (.createTerm 0 (.uint 5)), .perform (.insertChild none 0),
      .perform (.createTerm 0 (.uint 3)), .perform (.insertChild none 1), .document none]
    Context.indexes (.ofNumbers true) = true ∧ trace (.ofNumbers false) script .empty =
      (trace (.ofNumbers true) script .empty).map (Prod.map id Forest.bare <$> ·) :=
  ⟨rfl, trace_without_indexes rfl Schema.numbers_built rfl rfl _⟩

end InstanceTree
