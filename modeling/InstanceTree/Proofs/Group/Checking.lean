import InstanceTree.Proofs.Group.Indexing
import InstanceTree.Proofs.RedBlack.Contents

namespace InstanceTree

open Forest RedBlack

namespace Laid

variable {s : Schema} {f : Forest} {k : Layout} {p : Option NodeId} {past g bs : List NodeId}

theorem checkSiblings_eq (h : Laid s f k) (i : Index) (hk : k p = past ++ (g ++ bs)) :
    i.checkSiblings f g (g ++ bs).head? = pure bs.head? := by
  induction g generalizing past with
  | nil => rfl
  | cons m g ih =>
    obtain ⟨e, he, -, -, -, hnext⟩ := h.links p past m (g ++ bs) hk
    have hpast : k p = (past ++ [m]) ++ (g ++ bs) := by simpa using hk
    have hrest := ih hpast
    simp only [List.cons_append, List.head?_cons, Index.checkSiblings, if_true,
      element_of_get? he, Audit.lift_ok_bind, hnext]
    exact hrest

end Laid

namespace Index.Has

variable {ctx : Context} {f : Forest} {k : Layout} {p : Option NodeId} {t : SchemaId}
  {node : SchemaNode} {kind : SortKind} {leader : NodeId} {g as bs : List NodeId} {i : Index}

/-- An index that has the members of its group passes the check. -/
theorem check_eq (h : i.Has ctx kind g) (hsound : Sound ctx f k) (hs : ctx.schema.Built)
    (hnode : ctx.schema.nodes[t]? = some node) (hkind : node.sortKind? = some kind)
    (htogether : Together (f.isOf t) (k p) as g bs) (hleader : g.head? = some leader) :
    ∃ blacks, i.check ctx f leader = pure blacks := by
  have hmembers := h.members_eq
  obtain ⟨rfl, -, -, es, hes, rfl⟩ := h
  have hmem : ∀ m ∈ es.map (·.2), f.kind? m = some t := fun m hm => by
    simpa [isOf] using htogether.within m hm
  have hasc := hsound.ascending p t node hnode (by simp [hkind])
  rw [group, htogether.filter_eq, List.pairwise_map] at hasc
  obtain ⟨blacks, hblacks⟩ := hes.check_eq (hsound.laid.sorts hs hsound.keyed hnode hkind)
    (fun x hx => hmem x.2 (List.mem_map_of_mem hx)) hasc
  obtain ⟨el, hel, hschema⟩ := get?_of_kind? (hmem leader (List.mem_of_head? hleader))
  have hsiblings := hsound.laid.checkSiblings_eq i htogether.eq
  rw [List.head?_append, hleader, Option.some_or] at hsiblings
  have hadapt : ExceptT.adapt IndexDefect.tree (i.bag.check (f.compareBy ctx i.kind)) =
      pure blacks := by
    rw [hblacks]
    rfl
  refine ⟨blacks, ?_⟩
  simp only [check, hadapt, pure_bind, schemaOf_of_get? hel, Audit.lift_ok_bind, hmembers,
    hsiblings]
  cases bs with
  | nil => rfl
  | cons b bs =>
    obtain ⟨eb, heb, -⟩ := hsound.laid.exists_of_mem (p := p) (n := b) (by simp [htogether.eq])
    have hother : decide (eb.schema = el.schema) = false := by
      rw [hschema, ← isOf_of_get? heb]
      exact htogether.after b (by simp)
    simp only [List.head?_cons, schemaOf_of_get? heb, Audit.lift_ok_bind, Audit.deny, hother]
    rfl

end Index.Has

end InstanceTree
