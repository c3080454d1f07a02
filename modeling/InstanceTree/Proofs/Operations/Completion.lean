import InstanceTree.Proofs.Forest.Completion
import InstanceTree.Proofs.Operations.Metadata
import InstanceTree.Proofs.Operations.Removal

namespace InstanceTree

open Edit Forest

namespace Forest

variable {ctx : Context} {f : Forest} {k : Layout} {p : Option NodeId} {n pivot : NodeId}
  {e ep : Element} {xs ys : List NodeId}

section Sound

variable (h : Sound ctx f k) (hs : ctx.schema.Built)

include h hs

theorem insertChild_ends (hp : f.Alive p) (he : f.get? n = some e) :
    Ends (insertChild ctx p n) f := by
  obtain ⟨node, hlook, hnode⟩ := schemaNode_ok h.laid he
  apply (requireUnlinked_checks he).bind_ends
  intro hloose
  apply (requireParent_checks h.laid hp he hnode).bind_ends
  intro hparent
  apply Ends.bind_look hlook
  apply Ends.guard
  intro hkey
  apply Ends.bind_look (schemaOf_of_get? he)
  apply Ends.bind_look (h.laid.runStart_eq hp e.schema)
  cases hkind : node.sortKind? with
  | none =>
    rw [if_pos Option.isNone_none]
    exact (appendInstance_decides h hs hp he hloose hnode hparent (by simpa using hkey) hkind).ends
  | some kind =>
    rw [if_neg (by simp)]
    cases hleader : (f.group k p e.schema).head? with
    | none =>
      have hnone : ∀ m ∈ k p, f.isOf e.schema m = false := by
        simpa using List.filter_eq_nil_iff.1 (List.head?_eq_none_iff.1 hleader)
      exact (startGroup_decides h hs hp he hloose hnode hparent hkind hnone).ends
    | some leader =>
      exact (insertIntoGroup_decides h hs he hloose hnode hparent hkind hleader).ends

theorem place_ends (hk : k p = xs ++ ys) (hne : xs ++ ys ≠ []) (he : f.get? n = some e)
    (splice : Forest → Except Fault Forest)
    (hsplice : splice f = .ok (f.placed e.schema p xs.getLast? n ys.head?)) :
    Ends (do
      requireParent ctx p n
      requirePlace ctx xs.getLast? ys.head? n
      change splice) f := by
  obtain ⟨m, hm⟩ := List.exists_mem_of_ne_nil _ hne
  have hp := h.laid.alive_of_mem (hk ▸ hm)
  obtain ⟨node, -, hnode⟩ := schemaNode_ok h.laid he
  apply (requireParent_checks h.laid hp he hnode).bind_ends
  intro _
  exact (requirePlace_checks h.laid hs hk hne he hnode).bind_ends fun _ => Ends.change hsplice

theorem insertBefore_ends (hep : f.get? pivot = some ep) (he : f.get? n = some e) :
    Ends (insertBefore ctx pivot n) f := by
  apply (requireUnlinked_checks he).bind_ends
  intro hloose
  apply (requireLinked_checks hep).bind_ends
  intro hlinked
  apply Ends.bind_look (element_of_get? hep)
  obtain ⟨xs, ys, hk⟩ := List.append_of_mem (h.laid.placed pivot ep hep hlinked)
  obtain ⟨-, -, hprev, -⟩ := h.laid.links_of_get? hk hep
  rw [hprev]
  exact place_ends h hs hk (by simp) he (spliceBefore · pivot n)
    (h.laid.spliceBefore_eq hk rfl he hloose)

theorem insertAfter_ends (hep : f.get? pivot = some ep) (he : f.get? n = some e) :
    Ends (insertAfter ctx pivot n) f := by
  apply (requireUnlinked_checks he).bind_ends
  intro hloose
  apply (requireLinked_checks hep).bind_ends
  intro hlinked
  apply Ends.bind_look (element_of_get? hep)
  obtain ⟨xs, ys, hk⟩ := List.append_of_mem (h.laid.placed pivot ep hep hlinked)
  obtain ⟨-, -, -, hnext⟩ := h.laid.links_of_get? hk hep
  have hk' : k ep.parent = (xs ++ [pivot]) ++ ys := by simpa using hk
  rw [hnext, ← List.getLast?_concat (l := xs) (a := pivot)]
  exact place_ends h hs hk' (by simp) he (spliceAfter · pivot n)
    (h.laid.spliceAfter_eq hk' List.getLast?_concat he hloose)

theorem appendSibling_ends (hep : f.get? pivot = some ep) (he : f.get? n = some e) :
    Ends (appendSibling ctx pivot n) f := by
  apply (requireLinked_checks hep).bind_ends
  intro hlinked
  apply Ends.bind_look (element_of_get? hep)
  exact insertChild_ends h hs (h.laid.alive_of_mem (h.laid.placed pivot ep hep hlinked)) he

theorem unlink_lands (he : f.get? n = some e) {node : SchemaNode}
    (hnode : ctx.schema.nodes[e.schema]? = some node) :
    Lands (unlink ctx n) f fun r _ =>
      (r = .ok () ↔ e.linked = true ∧ ¬(node.isKey = true ∧ e.parent.isSome = true)) := by
  apply Lands.bind_look (element_of_get? he)
  cases hlinked : e.linked with
  | false => exact Lands.guard (c := True) (fun _ => by simp) fun hc => absurd trivial hc
  | true =>
    apply Lands.bind_look (schemaNode_eq (t := e.schema) (by simp [kind?, he]) hnode)
    apply Lands.guard (fun hkey => by simp [hkey])
    intro hkey
    obtain ⟨xs, ys, hk⟩ := List.append_of_mem (h.laid.placed n e he hlinked)
    have hfree := noKey_of_place h.laid hs (p := e.parent) (by simp [hk]) he hnode hkey
    obtain ⟨g, hg, -⟩ := h.detach_spec hs hk he hnode hfree
    exact Lands.change hg (iff_of_true rfl ⟨rfl, hkey⟩)

theorem unlink_ends (he : f.get? n = some e) : Ends (unlink ctx n) f := by
  obtain ⟨node, -, hnode⟩ := schemaNode_ok h.laid he
  exact (unlink_lands h hs he hnode).ends

theorem free_lands (he : f.get? n = some e) {node : SchemaNode}
    (hnode : ctx.schema.nodes[e.schema]? = some node) :
    Lands (free ctx n) f fun r _ =>
      (r = .ok () ↔ ¬(e.linked = true ∧ node.isKey = true ∧ e.parent.isSome = true)) := by
  apply Lands.bind_look (element_of_get? he)
  cases hlinked : e.linked with
  | false =>
    obtain ⟨g, hg⟩ := h.laid.release_ok h.tidy he fun q => h.laid.not_mem_of_loose he hlinked
    exact Lands.change hg (by simp)
  | true =>
    refine ((unlink_lands h hs he hnode).and_ensures (unlink_atomic h hs n)).bind ?_ ?_
    · intro _ g hg
      obtain ⟨hiff, p, e', xs, ys, hremoving⟩ := hg
      have hkind := (congrFun hremoving.kind?_eq n).trans (by simp [kind?, he] : _ = some e.schema)
      obtain ⟨e'', he'', -⟩ := get?_of_kind? hkind
      obtain ⟨g', hg'⟩ :=
        hremoving.sound.laid.release_ok hremoving.sound.tidy he'' (hremoving.loose h.laid)
      exact Lands.change hg' (by simpa using (hiff.1 rfl).2)
    · intro why g hg
      obtain ⟨hiff, -⟩ := hg
      apply iff_of_false (by simp)
      intro hfree
      cases hiff.2 ⟨hlinked, fun hkey => hfree ⟨rfl, hkey⟩⟩

theorem free_ends (he : f.get? n = some e) : Ends (free ctx n) f := by
  obtain ⟨node, -, hnode⟩ := schemaNode_ok h.laid he
  exact (free_lands h hs he hnode).ends

end Sound

theorem addMetadata_ends (he : f.get? n = some e) (name value : String) :
    Ends (addMetadata n name value) f := by
  unfold addMetadata
  split
  · exact ⟨_, perform_bind_error (perform_refuse _ f)⟩
  · exact Ends.change (update_eq he _)

theorem removeMetadata_ends (he : f.get? n = some e) (name : String) :
    Ends (removeMetadata n name) f :=
  Ends.bind_look (element_of_get? he) (Ends.bind_change (update_eq he _) (Ends.pure _))

end Forest

end InstanceTree
