import InstanceTree.Proofs.Document.Counting
import InstanceTree.Proofs.Document.Outline
import InstanceTree.Proofs.Document.RoundTrip

namespace InstanceTree

open Edit Forest

def Forest.checkSingular (ctx : Context) (f : Forest) : Bool :=
  (none :: (List.range f.slots.size).map some).all fun p => match f.children p with
    | .ok ns => (List.range ctx.schema.nodes.size).all fun t =>
      (ctx.schema.nodes[t]?).all fun node =>
        !node.isSingle || (ns.filter (f.isOf t)).length ≤ 1
    | .error _ => true

theorem Forest.singular_of_check {ctx : Context} {f : Forest} (h : Laid ctx.schema f f.layout)
    (hcheck : f.checkSingular ctx = true) : f.Singular ctx := by
  intro p ns _ hns t node hnode hsingle
  obtain ⟨halive, -⟩ := h.eq_of_children hns
  have hp : p ∈ none :: (List.range f.slots.size).map some := by
    cases p with
    | none => exact List.mem_cons_self
    | some i =>
      obtain ⟨e, he⟩ := halive i rfl
      have hi := (Array.getElem?_eq_some_iff.1 (slot_of_get? he)).1
      exact List.mem_cons_of_mem _ (List.mem_map_of_mem (List.mem_range.2 hi))
  have ht : t < ctx.schema.nodes.size := (Array.getElem?_eq_some_iff.1 hnode).1
  have hall := List.all_eq_true.1 hcheck p hp
  simp only [hns, List.all_eq_true, List.mem_range] at hall
  simpa [hnode, hsingle] using hall t ht

/-- A reachable forest without two sibling leaves or containers of one schema node is exported, and
a fresh forest into which the document is imported has the same outline: the same instances in the
same order, with anchors in the same state. This holds of any codec of byte strings. -/
theorem Reachable.import_of_export [ByteCodec] {ctx : Context} {f : Forest}
    (h : Reachable ctx f) (hs : ctx.schema.Built) (hone : f.Singular ctx) :
    ∃ document, f.toJson ctx none = .ok document ∧ ∃ ns g,
      (ofJson ctx none document).perform .empty = .ok (.ok ns, g) ∧
        ∃ outlines, f.outline none = .ok outlines ∧ g.outline none = .ok outlines := by
  obtain ⟨hsound, hled⟩ := isSound_iff.1 (h.isSound hs)
  obtain ⟨a, ha, hexport⟩ := hsound.laid.exists_export hs f.alive_none
  have hfits : Grove.Fits ctx none a :=
    Bears.fits hsound hled hs hone a .top (List.nil_append _).symm (by simp) ha
  have hplain : Grove.plain ctx.schema a = a := by
    refine List.filter_eq_self.2 fun group hgroup => ?_
    obtain ⟨node, hnode, hparent, -⟩ := hfits.of_mem hgroup
    -- no key stands at the top
    cases hkey : node.isKey with
    | false => simp [hnode, hkey]
    | true =>
      obtain ⟨-, hsome⟩ := hs.leaf_of_isKey hnode hkey
      simp [hparent] at hsome
  have hread := Grove.Fits.readMembers hs a hfits (by rintro _ ⟨⟩)
  rw [hplain] at hread
  have hdistinct : (Json.obj (Grove.members ctx.schema a)).distinct = true :=
    Json.distinct_obj.2 ⟨hfits.names_nodup hs, Grove.members_distinct hs a hfits⟩
  have hempty : IsSound ctx .empty := (Reachable.empty : Reachable ctx .empty).isSound hs
  have hpasses := ofJson_reads hs hempty rfl hdistinct
  -- there are no more instances than slots
  have hroom : Forest.empty.size + ctx.schema.membersDemand none (Grove.members ctx.schema a) ≤
      handleCount := by
    rw [Context.demand_of_readMembers hs (q := none) nofun _ hread]
    exact Nat.le_trans (Nat.le_of_eq (Nat.zero_add _))
      (Nat.le_trans (hsound.laid.count_le hs ha) hsound.laid.slots_le)
  obtain ⟨r, g, hr, -⟩ :=
    (ofJson_grows hs hempty (alive_none _) (.obj (Grove.members ctx.schema a))).lands hroom
  refine ⟨_, hexport, ?_⟩
  cases r with
  | error why => cases (hpasses _ _ hr).symm.trans hread
  | ok ns =>
    obtain ⟨hg, b, hb, hbears⟩ := hpasses _ _ hr
    cases hread.symm.trans hb
    exact ⟨ns, g, hr, _, hsound.outline_eq hs f.alive_none ha,
      (isSound_iff.1 hg).1.outline_eq hs g.alive_none hbears⟩

/-- Two entries of one number come back in the order that they stand in. -/
theorem Reachable.import_of_export_of_entries : ∃ f, Reachable (.ofEntries true) f ∧
    f.Singular (.ofEntries true) ∧ f.children none = .ok [0, 2] ∧
    ∃ document, f.toJson (.ofEntries true) none = .ok document ∧ ∃ ns g,
      (ofJson (.ofEntries true) none document).perform .empty = .ok (.ok ns, g) ∧
        ∃ outlines, f.outline none = .ok outlines ∧ g.outline none = .ok outlines := by
  have hfirst := ((Reachable.empty : Reachable (.ofEntries true) .empty).step
    (.createList 0 [.uint 7]) rfl).step (.insertChild none 0) rfl
  have hsecond := (hfirst.step (.createList 0 [.uint 7]) rfl).step (.insertChild none 2) rfl
  obtain ⟨f, h, hcheck, hchildren⟩ : ∃ f, Reachable (.ofEntries true) f ∧
      f.checkSingular (.ofEntries true) = true ∧ f.children none = .ok [0, 2] :=
    ⟨_, hsecond, by decide +kernel, rfl⟩
  have hone := singular_of_check (isSound_iff.1 (h.isSound Schema.entries_built)).1.laid hcheck
  exact ⟨f, h, hone, hchildren, h.import_of_export Schema.entries_built hone⟩

end InstanceTree
