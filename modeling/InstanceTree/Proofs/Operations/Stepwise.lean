import InstanceTree.Operation
import InstanceTree.Proofs.Edit

namespace InstanceTree.Forest

open Edit

/-- A relation between edits in two contexts of one schema in which single operations stand, and
which goes along with the ways in which edits are put together. -/
structure Stepwise (ctx ctx' : Context) (C : ∀ {α : Type}, Edit α → Edit α → Prop) : Prop where
  schema_eq : ctx'.schema = ctx.schema
  pure : ∀ {α : Type} (a : α), C (pure a : Edit α) (pure a)
  refuse : ∀ {α : Type} (why : Refusal), C (Edit.refuse why : Edit α) (Edit.refuse why)
  fixed : ∀ {α : Type} (x : Except Fault α), C (look fun _ => x) (look fun _ => x)
  kind : ∀ i : NodeId, C (look (schemaOf · i)) (look (schemaOf · i))
  bind : ∀ {α β : Type} {op op' : Edit α} {next next' : α → Edit β}, C op op' →
    (∀ a, C (next a) (next' a)) → C (op >>= next) (op' >>= next')
  tryCatch : ∀ {α : Type} {op op' : Edit α} {handle handle' : Refusal → Edit α}, C op op' →
    (∀ why, C (handle why) (handle' why)) → C (tryCatch op handle) (tryCatch op' handle')
  createTerm : ∀ (t : SchemaId) (v : Value), C (createTerm ctx t v) (createTerm ctx' t v)
  createContainer : ∀ t : SchemaId, C (createContainer ctx t) (createContainer ctx' t)
  createList : ∀ (t : SchemaId) (values : List Value),
    C (createList ctx t values) (createList ctx' t values)
  insertChild : ∀ (p : Option NodeId) (n : NodeId), C (insertChild ctx p n) (insertChild ctx' p n)
  insertBefore : ∀ pivot n : NodeId, C (insertBefore ctx pivot n) (insertBefore ctx' pivot n)
  insertAfter : ∀ pivot n : NodeId, C (insertAfter ctx pivot n) (insertAfter ctx' pivot n)
  appendSibling : ∀ sibling n : NodeId,
    C (appendSibling ctx sibling n) (appendSibling ctx' sibling n)
  unlink : ∀ n : NodeId, C (unlink ctx n) (unlink ctx' n)
  free : ∀ n : NodeId, C (free ctx n) (free ctx' n)
  addMetadata : ∀ (n : NodeId) (name value : String),
    C (addMetadata n name value) (addMetadata n name value)
  removeMetadata : ∀ (n : NodeId) (name : String), C (removeMetadata n name) (removeMetadata n name)

section Stepwise

variable {ctx ctx' : Context} {C : ∀ {α : Type}, Edit α → Edit α → Prop} (h : Stepwise ctx ctx' C)

include h

theorem linkNew_stepwise (p : Option NodeId) (n : NodeId) :
    C (linkNew ctx p n) (linkNew ctx' p n) :=
  h.tryCatch (h.insertChild p n) fun why => h.bind (h.free n) fun _ => h.refuse why

theorem readValue_stepwise (type : ValueType) (j : Json) :
    C (readValue type j) (readValue type j) := by
  unfold readValue
  split
  · exact h.pure _
  · exact h.refuse _

theorem importTerm_stepwise (p : Option NodeId) (t : SchemaId) (type : ValueType) (j : Json) :
    C (importTerm ctx p t type j) (importTerm ctx' p t type j) :=
  h.bind (readValue_stepwise h type j) fun v => h.bind (h.createTerm t v) fun n =>
    h.bind (linkNew_stepwise h p n) fun _ => h.pure _

theorem importTerms_stepwise (p : Option NodeId) (t : SchemaId) (type : ValueType)
    (js : List Json) : C (importTerms ctx p t type js) (importTerms ctx' p t type js) := by
  induction js with
  | nil => exact h.pure _
  | cons j js ih =>
    exact h.bind (importTerm_stepwise h p t type j) fun n => h.bind ih fun _ => h.pure _

theorem readKeys_stepwise (list : String) (fields : Json.Members) (keys : List SchemaId) :
    C (readKeys ctx list fields keys) (readKeys ctx' list fields keys) := by
  induction keys with
  | nil => exact h.pure _
  | cons key keys ih =>
    rw [readKeys, readKeys, h.schema_eq]
    apply h.bind (h.fixed _)
    intro node
    cases fields.get? node.name with
    | none => exact h.refuse _
    | some j =>
      cases node.valueType? with
      | none => exact h.refuse _
      | some type =>
        exact h.bind (readValue_stepwise h type j) fun v => h.bind ih fun _ => h.pure _

theorem importFlat_stepwise (p : Option NodeId) (t : SchemaId) (node : SchemaNode) (j : Json) :
    C (importFlat ctx p t node j) (importFlat ctx' p t node j) := by
  unfold importFlat
  split
  · next type _ =>
    split
    · exact h.pure _
    · exact h.bind (importTerm_stepwise h p t type j) fun _ => h.pure _
  · next type _ =>
    split
    · exact importTerms_stepwise h p t type _
    · exact h.refuse _
  · exact h.bind (h.createContainer t) fun n => h.bind (linkNew_stepwise h p n) fun _ =>
      h.refuse _
  · exact h.refuse _

theorem importNode_stepwise (p : Option NodeId) (t : SchemaId) (j : Json) :
    C (look (fun _ => ctx.schema.get t) >>= fun node => importFlat ctx p t node j)
      (look (fun _ => ctx'.schema.get t) >>= fun node => importFlat ctx' p t node j) := by
  rw [h.schema_eq]
  exact h.bind (h.fixed _) fun node => importFlat_stepwise h p t node j

mutual

theorem importMember_stepwise (p : Option NodeId) (t : SchemaId) :
    (j : Json) → C (importMember ctx p t j) (importMember ctx' p t j)
  | .obj members => by
    rw [importMember, importMember, h.schema_eq]
    apply h.bind (h.fixed _)
    intro node
    split
    · exact h.bind (h.createContainer t) fun n => h.bind (linkNew_stepwise h p n) fun _ =>
        h.bind (importMembers_stepwise (some n) (some t) members) fun _ => h.pure _
    · exact importFlat_stepwise h p t node _
  | .arr items => by
    rw [importMember, importMember, h.schema_eq]
    apply h.bind (h.fixed _)
    intro node
    split
    · exact importEntries_stepwise p t node.name _ items
    · exact importFlat_stepwise h p t node _
  | .null => importNode_stepwise h p t _
  | .bool _ => importNode_stepwise h p t _
  | .num _ => importNode_stepwise h p t _
  | .str _ => importNode_stepwise h p t _

theorem importEntries_stepwise (p : Option NodeId) (t : SchemaId) (name : String)
    (keys : List SchemaId) : (items : List Json) →
      C (importEntries ctx p t name keys items) (importEntries ctx' p t name keys items)
  | [] => h.pure _
  | .obj fields :: rest => by
    rw [importEntries, importEntries]
    exact h.bind (readKeys_stepwise h name fields keys) fun values =>
      h.bind (h.createList t values) fun n => h.bind (linkNew_stepwise h p n) fun _ =>
        h.bind (importMembers_stepwise (some n) (some t) fields) fun _ =>
          h.bind (importEntries_stepwise p t name keys rest) fun _ => h.pure _
  | .null :: _ => h.refuse _
  | .bool _ :: _ => h.refuse _
  | .num _ :: _ => h.refuse _
  | .str _ :: _ => h.refuse _
  | .arr _ :: _ => h.refuse _

theorem importMembers_stepwise (p : Option NodeId) (t : Option SchemaId) :
    (members : List (String × Json)) →
      C (importMembers ctx p t members) (importMembers ctx' p t members)
  | [] => h.pure _
  | (name, j) :: rest => by
    rw [importMembers, importMembers, h.schema_eq]
    apply h.bind (h.fixed _)
    intro child
    cases child with
    | none => exact h.refuse _
    | some child =>
      exact h.bind (importMember_stepwise p child j) fun _ =>
        h.bind (importMembers_stepwise p t rest) fun _ => h.pure _

end

theorem ofJson_stepwise (p : Option NodeId) (j : Json) : C (ofJson ctx p j) (ofJson ctx' p j) := by
  unfold ofJson
  split
  · next members =>
    cases p with
    | none => exact importMembers_stepwise h none none members
    | some i =>
      rw [mapM_look_some fun i f => schemaOf f i]
      exact h.bind (h.bind (h.kind i) fun t => h.pure (some t)) fun t =>
        importMembers_stepwise h (some i) t members
  · exact h.refuse _

/-- Whatever is asked for stands in the relation if single operations do. -/
theorem perform_stepwise (op : Operation) : C (op.perform ctx) (op.perform ctx') := by
  cases op with
  | createTerm t v => exact h.bind (h.createTerm t v) fun _ => h.pure _
  | createContainer t => exact h.bind (h.createContainer t) fun _ => h.pure _
  | createList t keys => exact h.bind (h.createList t keys) fun _ => h.pure _
  | insertChild p n => exact h.bind (h.insertChild p n) fun _ => h.pure _
  | insertBefore pivot n => exact h.bind (h.insertBefore pivot n) fun _ => h.pure _
  | insertAfter pivot n => exact h.bind (h.insertAfter pivot n) fun _ => h.pure _
  | appendSibling sibling n => exact h.bind (h.appendSibling sibling n) fun _ => h.pure _
  | unlink n => exact h.bind (h.unlink n) fun _ => h.pure _
  | free n => exact h.bind (h.free n) fun _ => h.pure _
  | addMetadata n name value => exact h.bind (h.addMetadata n name value) fun _ => h.pure _
  | removeMetadata n name => exact h.bind (h.removeMetadata n name) fun _ => h.pure _
  | importDocument p j => exact h.bind (ofJson_stepwise h p j) fun _ => h.pure _

end Stepwise

end InstanceTree.Forest
