import InstanceTree.Forest.Metadata
import InstanceTree.Proofs.Erasure.Mirrors
import InstanceTree.Proofs.Operations.Creation

namespace InstanceTree.Forest

open Edit

variable {a : NodeId → Option Anchor} (ctx : Context) (p : Option NodeId) (t : SchemaId)
  (n : NodeId)

section Guards

theorem requireUnlinked_blind : Blind a (requireUnlinked n) := by
  apply Blind.bind_element (fun _ _ => rfl)
  intro e
  cases e.linked with
  | true => exact .refuse _
  | false => exact .pure _

theorem requireLinked_blind : Blind a (requireLinked n) := by
  apply Blind.bind_element (fun _ _ => rfl)
  intro e
  cases e.linked with
  | true => exact .pure _
  | false => exact .refuse _

theorem requireParent_blind : Blind a (requireParent ctx p n) := by
  apply (Blind.mapM_look fun i f => schemaOf_anchored f i).bind
  intro expected
  apply (Blind.look fun f => schemaNode_anchored f ctx n).bind
  intro node
  split
  · exact (Blind.mapM_look fun _ _ => rfl).bind fun _ => .refuse _
  · exact .pure _

theorem neighbourSchema_blind (link : Option NodeId) : Blind a (neighbourSchema link) :=
  .mapM_look fun i f => schemaOf_anchored f i

theorem requirePlace_blind (prev next : Option NodeId) :
    Blind a (requirePlace ctx prev next n) := by
  refine (Blind.look fun f => schemaNode_anchored f ctx n).bind fun node => .guard (.guard ?_)
  extract_lets besideNeighbours
  have hrest : Blind a (besideNeighbours ()) := by
    apply (Blind.look fun f => schemaOf_anchored f n).bind
    intro t
    apply (neighbourSchema_blind prev).bind
    intro before
    apply (neighbourSchema_blind next).bind
    intro after
    apply Blind.guard
    extract_lets nearRun
    have hlast : ∀ q, Blind a (nearRun q) := by
      intro q
      apply (Blind.look fun f => runStart_anchored f q t).bind
      intro leader
      split
      · exact .refuse _
      · exact .pure _
    cases prev.or next with
    | none => exact hlast none
    | some sibling => exact .bind_element (fun _ _ => rfl) fun e => hlast e.parent
  cases next with
  | none => exact hrest
  | some x =>
    exact (Blind.look fun f => schemaNode_anchored f ctx x).bind fun following => .guard hrest

end Guards

section Creation

theorem create_blind (content : Content) : Blind (fun _ => none) (create t content) := by
  intro f
  rw [Mirrors, perform_create, perform_create,
    allocate_anchored f t content fun _ _ _ => rfl]
  cases f.allocate t content <;> rfl

theorem createTerm_blind (v : Value) : Blind (fun _ => none) (createTerm ctx t v) := by
  apply (Blind.look fun _ => rfl).bind
  intro node
  split
  · exact .refuse _
  · split
    · exact create_blind t _
    · exact .refuse _

theorem createContainer_blind : Blind (fun _ => none) (createContainer ctx t) := by
  apply (Blind.look fun _ => rfl).bind
  intro node
  split
  · exact create_blind t _
  · exact .refuse _

theorem requireKeyTypes_blind (keys : List SchemaId) (values : List Value) :
    Blind (fun _ => none) (requireKeyTypes ctx keys values) := by
  induction keys generalizing values with
  | nil => exact .pure _
  | cons key keys ih =>
    cases values with
    | nil => exact .pure _
    | cons v values => exact (Blind.look fun _ => rfl).bind fun node => .guard (ih values)

theorem createKeys_blind (list : NodeId) (keys : List SchemaId) (values : List Value) :
    Blind (fun _ => none) (createKeys list keys values) := by
  induction keys generalizing values with
  | nil => exact .pure _
  | cons key keys ih =>
    cases values with
    | nil => exact .pure _
    | cons v values =>
      apply (create_blind key _).bind
      intro leaf
      exact (Blind.change fun f => spliceLast_anchored f _ leaf).bind fun _ => ih values

theorem createList_blind (values : List Value) :
    Blind (fun _ => none) (createList ctx t values) := by
  apply (Blind.look fun _ => rfl).bind
  intro node
  split
  · refine .guard ((requireKeyTypes_blind ctx _ values).bind fun _ => ?_)
    apply (create_blind t _).bind
    intro list
    exact (createKeys_blind list _ values).bind fun _ => .pure _
  · exact .refuse _

end Creation

section Placement

theorem insertBefore_blind (pivot : NodeId) : Blind a (insertBefore ctx pivot n) := by
  apply (requireUnlinked_blind n).bind
  intro _
  apply (requireLinked_blind pivot).bind
  intro _
  apply Blind.bind_element (fun _ _ => rfl)
  intro e
  apply (requireParent_blind ctx e.parent n).bind
  intro _
  apply (requirePlace_blind ctx n e.prev (some pivot)).bind
  intro _
  exact .change fun f => spliceBefore_anchored f pivot n

theorem insertAfter_blind (pivot : NodeId) : Blind a (insertAfter ctx pivot n) := by
  apply (requireUnlinked_blind n).bind
  intro _
  apply (requireLinked_blind pivot).bind
  intro _
  apply Blind.bind_element (fun _ _ => rfl)
  intro e
  apply (requireParent_blind ctx e.parent n).bind
  intro _
  apply (requirePlace_blind ctx n (some pivot) e.next).bind
  intro _
  exact .change fun f => spliceAfter_anchored f pivot n

theorem appendInstance_blind : Blind a (appendInstance p t n) := by
  apply Blind.change
  intro f
  rw [runEnd_anchored]
  apply bind_eq_map_bind
  intro last
  cases last with
  | none => exact spliceLast_anchored f p n
  | some last => exact spliceAfter_anchored f last n

theorem release_mirrors (ha : ∀ m, Drops (a m)) {f : Forest} (hf : f.Tidy) :
    Mirrors a (change (release · n)) (change (release · n)) f :=
  .change (release_anchored ha hf n)

end Placement

section Metadata

theorem updateMetadata_blind (m : List Metadata → List Metadata) :
    Blind a (change (update · n fun e => { e with metadata := m e.metadata })) :=
  .change fun f =>
    update_anchored (g := fun e => { e with metadata := m e.metadata }) (fun _ _ => rfl) f n

theorem addMetadata_blind (name value : String) : Blind a (addMetadata n name value) := by
  have hadd := updateMetadata_blind (a := a) n fun l => l ++ [⟨name, value⟩]
  unfold addMetadata
  generalize isReserved name = reserved
  exact .guard hadd

theorem removeMetadata_blind (name : String) : Blind a (removeMetadata n name) := by
  apply Blind.bind_element (fun _ _ => rfl)
  intro e
  have herase := updateMetadata_blind (a := a) n fun l => l.eraseP fun m => m.name = name
  exact herase.bind fun _ => .pure _

end Metadata

end InstanceTree.Forest
