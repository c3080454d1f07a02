import InstanceTree.Proofs.Document.Completion
import InstanceTree.Proofs.SubtreeRelease

namespace InstanceTree

open Edit Forest

namespace Forest

def elements (f : Forest) : List NodeId :=
  (List.range f.slots.size).filter f.lives

theorem nodup_elements (f : Forest) : f.elements.Nodup :=
  List.nodup_range.filter _

theorem mem_elements {f : Forest} {i : NodeId} : i ∈ f.elements ↔ f.lives i = true := by
  rw [elements, List.mem_filter, List.mem_range, and_iff_right_iff_imp]
  intro hi
  obtain ⟨e, he⟩ := alive_some.1 (alive_iff_lives.2 hi)
  exact (Array.getElem?_eq_some_iff.1 (slot_of_get? he)).1

/-- The elements `new` have been added to `f` below `p`, where a way down leads to each of them. All
other elements are what they were and have the parents and, but for the new ones, the siblings that
they had. -/
structure Added (f : Forest) (p : Option NodeId) (new : List NodeId) (g : Forest) : Prop where
  nodup : new.Nodup
  new_iff : ∀ i, i ∈ new ↔ g.Alive (some i) ∧ ¬f.Alive (some i)
  reached : ∀ i ∈ new, ∃ l, g.children p = .ok l ∧
    ∃ r ∈ l, Relation.ReflTransGen g.ParentOf r i
  size : g.size = f.size + new.length
  kept : ∀ i e, f.element i = .ok e → ∃ e', g.element i = .ok e' ∧ e.Alike e'
  siblings : ∀ q l, f.children q = .ok l → ∃ l', g.children q = .ok l' ∧
    l'.filter (· ∉ new) = l

end Forest

namespace Laid

variable {s : Schema} {f : Forest} {k : Layout}

theorem dead_perm_vacant (h : Laid s f k) :
    ((List.range f.slots.size).filter (!f.lives ·)).Perm f.vacant := by
  rw [List.perm_ext_iff_of_nodup (List.nodup_range.filter _) h.vacant_nodup]
  intro i
  rw [List.mem_filter, List.mem_range]
  constructor
  · intro hi
    obtain ⟨hlt, hdead⟩ := hi
    refine (h.mem_vacant_or_get? hlt).resolve_right fun hlive => ?_
    obtain ⟨e, he⟩ := hlive
    simp [lives, kind?, he] at hdead
  · intro hi
    have hempty := h.vacant_empty i hi
    exact ⟨(Array.getElem?_eq_some_iff.1 hempty).1, by simp [lives, kind?, get?, hempty]⟩

theorem length_elements (h : Laid s f k) : f.elements.length = f.size := by
  have hsplit := List.length_eq_length_filter_add (l := List.range f.slots.size) f.lives
  rw [List.length_range, h.dead_perm_vacant.length_eq] at hsplit
  rw [elements, size]
  omega

end Laid

namespace Accrues

variable {s : Schema} {f g : Forest} {p : Option NodeId} (h : Accrues f p g)

include h

theorem elements_perm : (g.elements.filter f.lives).Perm f.elements := by
  rw [List.perm_ext_iff_of_nodup (g.nodup_elements.filter _) f.nodup_elements]
  intro i
  rw [List.mem_filter, mem_elements, mem_elements, and_iff_right_iff_imp]
  exact h.lives

theorem added (hf : Laid s f f.layout) (hg : Laid s g g.layout) (hp : f.Alive p) :
    Added f p (g.elements.filter (!f.lives ·)) g := by
  have hnew : ∀ i, i ∈ g.elements.filter (!f.lives ·) ↔ g.lives i = true ∧ f.lives i = false := by
    intro i
    rw [List.mem_filter, mem_elements, Bool.not_eq_true']
  constructor
  case nodup => exact g.nodup_elements.filter _
  case new_iff =>
    intro i
    rw [hnew, alive_iff_lives, alive_iff_lives, Bool.not_eq_true]
  case reached =>
    intro i hi
    obtain ⟨hlives, hdead⟩ := (hnew i).1 hi
    obtain ⟨r, hr, hpath⟩ := h.reached i hdead hlives
    have hstep : (fun a b => b ∈ g.layout (some a)) = g.ParentOf := by
      funext a b
      exact propext hg.parentOf_iff.symm
    exact ⟨_, hg.children_eq (h.alive hp), r, hr, hstep ▸ hpath⟩
  case size =>
    have hsplit := List.length_eq_length_filter_add (l := g.elements) f.lives
    rw [hg.length_elements, h.elements_perm.length_eq, hf.length_elements] at hsplit
    exact hsplit
  case kept =>
    intro i e he
    have hget := element_eq_some.1 he
    have hi : f.lives i = true := alive_iff_lives.1 (alive_some.2 ⟨e, hget⟩)
    obtain ⟨e', he', halike⟩ := hf.exists_alike hg (h.payload i hi) (h.mem_iff hi) hget
    exact ⟨e', element_of_get? he', halike⟩
  case siblings =>
    intro q l hl
    obtain ⟨hq, rfl⟩ := hf.eq_of_children hl
    refine ⟨_, hg.children_eq (h.alive hq), ?_⟩
    rw [← h.standing q]
    apply List.filter_congr
    intro i hi
    have hlives : g.lives i = true := hg.isSome_of_mem hi
    simp [hnew, hlives]

end Accrues

/-- Whether a document is refused or not, an import adds elements below the parent and does nothing
else: none of them is lost, and all others are as they were. It has a result unless there are no
handles for what it stores. -/
theorem Reachable.import_adds {ctx : Context} {f : Forest} {p : Option NodeId}
    (h : Reachable ctx f) (hs : ctx.schema.Built) (hp : f.Alive p) (document : Json) :
    (∃ r g new, (ofJson ctx p document).perform f = .ok (r, g) ∧ Added f p new g) ∨
      ((ofJson ctx p document).perform f = .error .storeFull ∧
        handleCount < f.size + ctx.schema.demand (p.bind f.kind?) document) := by
  have hsound := h.isSound hs
  refine (ofJson_grows hs hsound hp document).imp_left ?_
  rintro ⟨r, g, hr, ⟨hsound', haccrues⟩, -⟩
  have hf := (isSound_iff.1 hsound).1.laid
  have hg := (isSound_iff.1 hsound').1.laid
  exact ⟨r, g, _, hr, haccrues.added hf hg hp⟩

def Json.entriesToRefuse : Json :=
  .obj [("entry", .arr [
    .obj [("number", .num (.natural 8)), ("remark", .str "eight")],
    .obj [("number", .num (.natural 5)), ("remark", .num (.natural 5))]])]

/-- When the import is refused, both entries are there, before and behind the one that had been
there. -/
theorem Reachable.import_adds_refused_entries : ∃ f why g new, Reachable (.ofEntries true) f ∧
    f.children none = .ok [0] ∧
    (ofJson (.ofEntries true) none .entriesToRefuse).perform f = .ok (.error why, g) ∧
    Added f none new g ∧ g.children none = .ok [5, 0, 2] := by
  have h := ((Reachable.empty : Reachable (.ofEntries true) .empty).step
    (.createList 0 [.uint 7]) rfl).step (.insertChild none 0) rfl
  obtain ⟨f, h, hchildren, hrefused⟩ : ∃ f, Reachable (.ofEntries true) f ∧
      f.children none = .ok [0] ∧
      ((ofJson (.ofEntries true) none .entriesToRefuse).perform f).toOption.any (fun out =>
        !out.1.isOk && decide (out.2.children none = .ok [5, 0, 2])) = true := by
    refine ⟨_, h, rfl, ?_⟩
    decide +kernel
  rcases h.import_adds Schema.entries_built f.alive_none .entriesToRefuse with hadds | hfull
  rotate_left
  · rw [hfull.1] at hrefused
    cases hrefused
  obtain ⟨r, g, new, himport, hadded⟩ := hadds
  rw [himport] at hrefused
  obtain ⟨hr, hchildren'⟩ := Bool.and_eq_true_iff.1 hrefused
  cases r with
  | ok ns => cases hr
  | error why => exact ⟨f, why, g, new, h, hchildren, himport, hadded, of_decide_eq_true hchildren'⟩

end InstanceTree
