import InstanceTree.Proofs.Agreement
import InstanceTree.Proofs.SubtreeRelease

namespace InstanceTree

open Edit Forest

namespace Forest

variable {ctx : Context} {f g h : Forest} {k : Layout} {p : Option NodeId} {n : NodeId}
  {e : Element} {xs ys : List NodeId}

theorem Placing.erase_eq (h : Placing ctx f k p n e xs ys g) (hf : Laid ctx.schema f k)
    (q : Option NodeId) : (Function.update k p (xs ++ n :: ys) q).erase n = k q := by
  have hnot : ∀ q, n ∉ k q := fun q => hf.not_mem_of_loose h.lives h.loose
  by_cases hq : q = p
  · subst hq
    have hxs : n ∉ xs := by
      intro hn
      apply hnot q
      rw [h.split]
      exact List.mem_append_left _ hn
    rw [Function.update_self, List.erase_append_right _ hxs, List.erase_cons_head, h.split]
  · rw [Function.update_of_ne hq, List.erase_of_not_mem (hnot q)]

theorem Placing.agrees (h : Placing ctx f k p n e xs ys g) (hf : Sound ctx f k) {g' : Forest}
    {k' : Layout} (hloosens : Loosens ctx g (Function.update k p (xs ++ n :: ys)) n g' k') :
    f.Agrees g' := by
  have hlayout : k' = k := by
    funext q
    rw [hloosens.layout, h.erase_eq hf.laid]
  have hsound := hloosens.sound
  rw [hlayout] at hsound
  obtain ⟨hvacant, hslots⟩ := slots_of_bare h.bare_eq
  apply hf.agrees hsound
  · exact fun i => (hloosens.payload i).trans (h.payload_eq i)
  · exact hloosens.vacant.trans hvacant
  · exact (hloosens.slots.trans hslots).trans (slots_size_retouch ..)

/-- What has been placed can be unlinked, which undoes the placement. -/
theorem Placing.undone (h : Placing ctx f k p n e xs ys g) (hf : Sound ctx f k)
    (hs : ctx.schema.Built) : ∃ g', (unlink ctx n).perform g = .ok (.ok (), g') ∧ f.Agrees g' := by
  have hn : n ∈ Function.update k p (xs ++ n :: ys) p := by simp
  obtain ⟨e', he', hlinked, -⟩ := h.sound.laid.exists_of_mem hn
  have hschema : e'.schema = e.schema := by
    have hkind := congrFun h.kind?_eq n
    simpa [kind?, he', h.lives] using hkind
  obtain ⟨node, -, hnode⟩ := schemaNode_ok h.sound.laid he'
  have hkey : node.isKey = false := by
    rw [← hs.noKey_iff hnode, hschema]
    exact h.free
  obtain ⟨r, g', hr, hiff⟩ := unlink_lands h.sound hs he' hnode
  have hok : r = .ok () := hiff.2 ⟨hlinked, fun hkeyed => by simp [hkey] at hkeyed⟩
  subst hok
  obtain ⟨q, e'', xs', ys', hremoving⟩ := unlink_atomic h.sound hs n _ _ hr
  exact ⟨g', hr, h.agrees hf (hremoving.loosens h.sound.laid)⟩

end Forest

/-- In a reachable forest, what has been inserted can be unlinked at once, and the forest is then
the same as before in every link, chain, run, value, remark and anchor, but for the shape of the
index of the group. -/
theorem Reachable.unlink_undoes_insertChild {ctx : Context} {f g : Forest} (h : Reachable ctx f)
    (hs : ctx.schema.Built) {p : Option NodeId} {n : NodeId}
    (hg : (insertChild ctx p n).perform f = .ok (.ok (), g)) :
    ∃ g', (unlink ctx n).perform g = .ok (.ok (), g') ∧ f.Agrees g' := by
  obtain ⟨hsound, -⟩ := isSound_iff.1 (h.isSound hs)
  obtain ⟨e, node, xs, ys, -, hplacing, -⟩ := insertChild_atomic hsound hs p n _ _ hg
  exact hplacing.undone hsound hs

/-- A number that took the lead of a group hands it back. -/
theorem Reachable.unlink_undoes_insertChild_of_leader : ∃ f g, Reachable (.ofNumbers true) f ∧
    (insertChild (.ofNumbers true) none 1).perform f = .ok (.ok (), g) ∧
      g.children none = .ok [1, 0] ∧
        ∃ g', (unlink (.ofNumbers true) 1).perform g = .ok (.ok (), g') ∧ f.Agrees g' := by
  have hfirst := ((Reachable.empty : Reachable (.ofNumbers true) .empty).step
    (.createTerm 0 (.uint 5)) rfl).step (.insertChild none 0) rfl
  have h := hfirst.step (.createTerm 0 (.uint 3)) rfl
  obtain ⟨f, g, h, hg, hchildren⟩ : ∃ f g, Reachable (.ofNumbers true) f ∧
      (insertChild (.ofNumbers true) none 1).perform f = .ok (.ok (), g) ∧
        g.children none = .ok [1, 0] := ⟨_, _, h, rfl, rfl⟩
  exact ⟨f, g, h, hg, hchildren, h.unlink_undoes_insertChild Schema.numbers_built hg⟩

end InstanceTree
