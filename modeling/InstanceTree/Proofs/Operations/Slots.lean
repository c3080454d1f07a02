import InstanceTree.Operation
import InstanceTree.Proofs.Operations.Metadata
import InstanceTree.Proofs.Operations.Removal

namespace InstanceTree

open Edit Forest

namespace Forest

variable {ctx : Context} {f g : Forest} {k : Layout} {n : NodeId}

theorem slots_of_bare (h : g.bare = f.bare) :
    g.vacant = f.vacant ∧ g.slots.size = f.slots.size := by
  have hvacant := congrArg Forest.vacant h
  have hsize := congrArg (·.slots.size) h
  exact ⟨hvacant, by simpa [bare, anchored] using hsize⟩

theorem draws_of_bare {p : Option NodeId} {relink : NodeId → Element → Element}
    {note : Children → Children} (h : g.bare = (f.rewired p relink note).bare) : Draws f [] g := by
  obtain ⟨hvacant, hsize⟩ := slots_of_bare h
  exact Draws.refl.congr hvacant (hsize.trans (slots_size_retouch ..))

/-- A new element is stored first, and its keys behind it; what is refused is not stored. -/
def Stores (create : Edit NodeId) (f : Forest) : Prop :=
  Ensures create f fun r g => match r with
    | .ok n => ∃ keys, Draws f (n :: keys) g
    | .error _ => g = f

section Creation

variable (h : Laid ctx.schema f k)

include h

theorem createTerm_stores (t : SchemaId) (v : Value) : Stores (createTerm ctx t v) f := by
  apply Ensures.of_look
  intro node hnode
  have hcreate := createTerm_fits h.length_vacant_le (Schema.get_eq_ok.1 hnode) v
  refine hcreate.ensures.mono fun r g hr => ?_
  cases r with
  | error why => exact hr.2
  | ok n => exact ⟨[], .store hr.2 .refl⟩

theorem createContainer_stores (t : SchemaId) : Stores (createContainer ctx t) f := by
  apply Ensures.of_look
  intro node hnode
  have hcreate := createContainer_fits h.length_vacant_le (Schema.get_eq_ok.1 hnode)
  refine hcreate.ensures.mono fun r g hr => ?_
  cases r with
  | error why => exact hr.2
  | ok n => exact ⟨[], .store hr.2 .refl⟩

theorem createList_stores (hs : ctx.schema.Built) (t : SchemaId) (values : List Value) :
    Stores (createList ctx t values) f := by
  apply Ensures.of_look
  intro node hnode
  refine (createList_fits h hs (Schema.get_eq_ok.1 hnode) values).ensures.mono fun r g hr => ?_
  cases r with
  | error why => exact hr.1
  | ok n =>
    obtain ⟨-, -, k', keys, hgrown⟩ := hr
    exact ⟨keys, hgrown.draws⟩

end Creation

theorem updateMetadata_draws (n : NodeId) (m : List Metadata → List Metadata) (f : Forest) :
    Atomic (change (update · n fun e => { e with metadata := m e.metadata })) f (Draws f []) := by
  apply Ensures.change
  intro g hg
  obtain ⟨e, -, rfl⟩ := update_eq_ok.1 hg
  exact Draws.refl.congr rfl (by simp)

theorem addMetadata_draws (n : NodeId) (name value : String) (f : Forest) :
    Atomic (addMetadata n name value) f (Draws f []) := by
  have hadd := updateMetadata_draws n (fun l => l ++ [⟨name, value⟩]) f
  unfold addMetadata
  apply Ensures.guard
  · intro _
    rfl
  · exact fun _ => hadd

theorem removeMetadata_draws (n : NodeId) (name : String) (f : Forest) :
    Atomic (removeMetadata n name) f (Draws f []) := by
  have herase := updateMetadata_draws n (fun l => l.eraseP fun m => m.name = name) f
  apply Ensures.bind_look
  intro e _
  exact Ensures.bind herase (fun _ _ hg => Ensures.pure hg) fun _ _ hg => hg

end Forest

def Forest.Stored (f g : Forest) : Except Refusal Outcome → Prop
  | .ok (.created n) => ∃ keys, Draws f (n :: keys) g
  | .ok _ => Draws f [] g
  | .error _ => g = f

/-- Slots are taken by new elements only, unless a whole document is imported, and given back only
where elements are freed. -/
theorem Operation.perform_stores {ctx : Context} {f : Forest} {k : Layout} (h : Sound ctx f k)
    (hs : ctx.schema.Built) (op : Operation) (hfree : ∀ n, op ≠ .free n)
    (himport : ∀ parent document, op ≠ .importDocument parent document) :
    Ensures (op.perform ctx) f fun r g => Stored f g r := by
  have hcreate : ∀ {create : Edit NodeId}, Stores create f →
      Ensures (create >>= fun n => pure (Outcome.created n)) f fun r g => Stored f g r :=
    fun hstores => Ensures.bind hstores (fun _ _ hg => Ensures.pure hg) fun _ _ hg => hg
  have hdone : ∀ {edit : Edit Unit} {P : Forest → Prop}, Atomic edit f P →
      (∀ g, P g → Draws f [] g) →
        Ensures (edit >>= fun _ => pure Outcome.done) f fun r g => Stored f g r :=
    fun hedit hP => Ensures.bind hedit (fun _ g hg => Ensures.pure (hP g hg)) fun _ _ hg => hg
  have hremoved : ∀ {edit : Edit (Option Metadata)}, Atomic edit f (Draws f []) →
      Ensures (edit >>= fun entry => pure (Outcome.removed entry)) f fun r g => Stored f g r :=
    fun hedit => Ensures.bind hedit (fun _ _ hg => Ensures.pure hg) fun _ _ hg => hg
  cases op with
  | createTerm t v => exact hcreate (createTerm_stores h.laid t v)
  | createContainer t => exact hcreate (createContainer_stores h.laid t)
  | createList t values => exact hcreate (createList_stores h.laid hs t values)
  | insertChild p n =>
    apply hdone (insertChild_atomic h hs p n)
    intro g hg
    obtain ⟨e, node, xs, ys, -, hplacing, -⟩ := hg
    exact draws_of_bare hplacing.bare_eq
  | insertBefore pivot n =>
    apply hdone (insertBefore_atomic h hs pivot n)
    intro g hg
    obtain ⟨p, e, xs, ys, hplacing⟩ := hg
    exact draws_of_bare hplacing.bare_eq
  | insertAfter pivot n =>
    apply hdone (insertAfter_atomic h hs pivot n)
    intro g hg
    obtain ⟨p, e, xs, ys, hplacing⟩ := hg
    exact draws_of_bare hplacing.bare_eq
  | appendSibling sibling n =>
    apply hdone (appendSibling_atomic h hs sibling n)
    intro g hg
    obtain ⟨p, e, node, xs, ys, -, hplacing, -⟩ := hg
    exact draws_of_bare hplacing.bare_eq
  | unlink n =>
    apply hdone (unlink_atomic h hs n)
    intro g hg
    obtain ⟨p, e, xs, ys, hremoving⟩ := hg
    exact draws_of_bare hremoving.bare_eq
  | free n => exact absurd rfl (hfree n)
  | addMetadata n name value => exact hdone (addMetadata_draws n name value f) fun _ hg => hg
  | removeMetadata n name => exact hremoved (removeMetadata_draws n name f)
  | importDocument parent document => exact absurd rfl (himport parent document)

end InstanceTree
