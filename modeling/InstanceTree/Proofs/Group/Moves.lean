import InstanceTree.Proofs.Group.Soundness

namespace InstanceTree

namespace Forest

/-- What an element is and holds, whatever stands around it. -/
structure Payload where
  schema : SchemaId
  value : Option Value
  metadata : List Metadata

def payload (f : Forest) (n : NodeId) : Option Payload :=
  (f.get? n).map fun e => ⟨e.schema, e.value?, e.metadata⟩

theorem kind?_eq_of_payload {f g : Forest} {i : NodeId} (h : g.payload i = f.payload i) :
    g.kind? i = f.kind? i := by
  have hschema := congrArg (Option.map Payload.schema) h
  simpa [payload, kind?, Function.comp_def] using hschema

theorem valueAt_eq_of_payload {f g : Forest} {i : NodeId} (h : g.payload i = f.payload i) :
    g.valueAt i = f.valueAt i := by
  have hvalue := congrArg (Option.bind · Payload.value) h
  simpa [payload, valueAt, Option.bind_map, Function.comp_def] using hvalue

theorem KeepsContent.value? {relink : NodeId → Element → Element} (h : KeepsContent relink)
    (i : NodeId) (e : Element) : (relink i e).value? = e.value? := by
  rw [Element.value?, Element.value?, h.content]

section Rewired

variable (f : Forest) (p : Option NodeId) {relink : NodeId → Element → Element}
  (note : Children → Children) (n : NodeId)

theorem valueAt_rewired (h : KeepsContent relink) :
    (f.rewired p relink note).valueAt n = f.valueAt n := by
  rw [valueAt, valueAt, get?_rewired]
  cases f.get? n with
  | none => rfl
  | some e => simp [h.value?]

theorem anchorAt_rewired (h : KeepsContent relink) :
    (f.rewired p relink note).anchorAt n = f.anchorAt n := by
  rw [anchorAt, anchorAt, get?_rewired]
  cases f.get? n with
  | none => rfl
  | some e => simp [h.anchor]

theorem payload_rewired (h : KeepsContent relink) :
    (f.rewired p relink note).payload n = f.payload n := by
  rw [payload, payload, get?_rewired]
  cases f.get? n with
  | none => rfl
  | some e => simp [h.value?, h.schema, h.metadata]

end Rewired

theorem regrouped_rewired {f : Forest} {k : Layout} {p : Option NodeId}
    {t : SchemaId} {relink : NodeId → Element → Element} {note : Children → Children}
    {l : List NodeId} (h : KeepsContent relink)
    (hl : ∀ t', t' ≠ t → l.filter (f.isOf t') = (k p).filter (f.isOf t')) :
    Regrouped f k (f.rewired p relink note) (Function.update k p l) p t := by
  refine ⟨kind?_rewired f p note h, funext fun m => valueAt_rewired f p note m h, ?_⟩
  intro q t' hne
  rw [group, group, isOf_rewired f p note h]
  by_cases hq : q = p
  · subst hq
    rw [Function.update_self]
    exact hl t' (hne.resolve_left (by simp))
  · rw [Function.update_of_ne hq]

variable {f : Forest} {k : Layout} {p : Option NodeId} {n : NodeId} {e : Element}
  {xs ys : List NodeId}

theorem filter_middle_of_ne (he : f.get? n = some e) {t : SchemaId} (ht : t ≠ e.schema) :
    (xs ++ n :: ys).filter (f.isOf t) = (xs ++ ys).filter (f.isOf t) := by
  simp [isOf_of_get? he, Ne.symm ht]

theorem filter_middle (he : f.get? n = some e) :
    (xs ++ n :: ys).filter (f.isOf e.schema) =
      xs.filter (f.isOf e.schema) ++ n :: ys.filter (f.isOf e.schema) := by
  simp [isOf_of_get? he]

theorem regrouped_placed (hk : k p = xs ++ ys) (he : f.get? n = some e)
    (prev next : Option NodeId) :
    Regrouped f k (f.placed e.schema p prev n next) (Function.update k p (xs ++ n :: ys)) p
      e.schema := by
  apply regrouped_rewired (linkage_keepsContent ..)
  intro t ht
  rw [hk, filter_middle_of_ne he ht]

theorem group_placed (he : f.get? n = some e) (prev next : Option NodeId) :
    (f.placed e.schema p prev n next).group (Function.update k p (xs ++ n :: ys)) p e.schema =
      xs.filter (f.isOf e.schema) ++ n :: ys.filter (f.isOf e.schema) := by
  rw [group, Function.update_self, placed, isOf_rewired _ _ _ (linkage_keepsContent ..),
    filter_middle he]

theorem kind?_placed (t : SchemaId) (prev next : Option NodeId) :
    (f.placed t p prev n next).kind? = f.kind? :=
  kind?_rewired _ _ _ (linkage_keepsContent ..)

theorem valueAt_placed (t : SchemaId) (prev next : Option NodeId) (m : NodeId) :
    (f.placed t p prev n next).valueAt m = f.valueAt m :=
  valueAt_rewired _ _ _ _ (linkage_keepsContent ..)

theorem payload_placed (t : SchemaId) (prev next : Option NodeId) (m : NodeId) :
    (f.placed t p prev n next).payload m = f.payload m :=
  payload_rewired _ _ _ _ (linkage_keepsContent ..)

theorem anchorAt_placed (t : SchemaId) (prev next : Option NodeId) (m : NodeId) :
    (f.placed t p prev n next).anchorAt m = f.anchorAt m :=
  anchorAt_rewired _ _ _ _ (linkage_keepsContent ..)

theorem regrouped_removed (hk : k p = xs ++ n :: ys) (he : f.get? n = some e)
    (prev next : Option NodeId) :
    Regrouped f k (f.removed e.schema p prev n next) (Function.update k p (xs ++ ys)) p
      e.schema := by
  apply regrouped_rewired (unlinkage_keepsContent ..)
  intro t ht
  rw [hk, filter_middle_of_ne he ht]

theorem group_removed (t : SchemaId) (prev next : Option NodeId) :
    (f.removed t p prev n next).group (Function.update k p (xs ++ ys)) p t =
      xs.filter (f.isOf t) ++ ys.filter (f.isOf t) := by
  rw [group, Function.update_self, removed, isOf_rewired _ _ _ (unlinkage_keepsContent ..),
    List.filter_append]

theorem anchorAt_removed (t : SchemaId) (prev next : Option NodeId) (m : NodeId) :
    (f.removed t p prev n next).anchorAt m = f.anchorAt m :=
  anchorAt_rewired _ _ _ _ (unlinkage_keepsContent ..)

end Forest

namespace Sound

open Forest

variable {ctx : Context} {f : Forest} {k : Layout} {p : Option NodeId} {n : NodeId} {e : Element}
  {xs ys : List NodeId} {node : SchemaNode}

theorem place_unsorted (h : Sound ctx f k) (hk : k p = xs ++ ys)
    (he : f.get? n = some e) (hnode : ctx.schema.nodes[e.schema]? = some node)
    (hkey : ctx.schema.NoKey e.schema) (hunsorted : node.sortKind? = none)
    (hlaid : Laid ctx.schema (f.placed e.schema p xs.getLast? n ys.head?)
      (Function.update k p (xs ++ n :: ys))) :
    Sound ctx (f.placed e.schema p xs.getLast? n ys.head?)
      (Function.update k p (xs ++ n :: ys)) := by
  have hre := regrouped_placed hk he xs.getLast? ys.head?
  refine ⟨hlaid, hre.keyed hkey h.keyed, ?_, ?_⟩
  · exact hre.ascending hkey hnode h.ascending fun hsorted => by simp [hunsorted] at hsorted
  · exact hre.anchored_of_unsorted hnode hunsorted (anchorAt_placed _ _ _) h.anchored

theorem remove_unsorted (h : Sound ctx f k) (hk : k p = xs ++ n :: ys)
    (he : f.get? n = some e) (hnode : ctx.schema.nodes[e.schema]? = some node)
    (hkey : ctx.schema.NoKey e.schema) (hunsorted : node.sortKind? = none) :
    Sound ctx (f.removed e.schema p xs.getLast? n ys.head?)
      (Function.update k p (xs ++ ys)) := by
  have hre := regrouped_removed hk he xs.getLast? ys.head?
  refine ⟨h.laid.remove hk he, hre.keyed hkey h.keyed, ?_, ?_⟩
  · exact hre.ascending hkey hnode h.ascending fun hsorted => by simp [hunsorted] at hsorted
  · exact hre.anchored_of_unsorted hnode hunsorted (anchorAt_removed _ _ _) h.anchored

end Sound

end InstanceTree
