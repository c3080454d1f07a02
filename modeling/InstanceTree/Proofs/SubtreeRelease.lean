import InstanceTree.Proofs.ChainInvariant
import InstanceTree.Proofs.OrderedForest
import InstanceTree.Proofs.Operations.Completion
import InstanceTree.Proofs.Operations.Slots

namespace InstanceTree

open Edit Forest

/-- Two states of an element that may differ in its neighbours, its children and its anchor. -/
structure Element.Alike (e e' : Element) : Prop where
  schema : e'.schema = e.schema
  value : e'.value? = e.value?
  metadata : e'.metadata = e.metadata
  parent : e'.parent = e.parent

theorem Laid.exists_alike {s : Schema} {f g : Forest} {k k' : Layout} {i : NodeId} {e : Element}
    (hf : Laid s f k) (hg : Laid s g k') (hpayload : g.payload i = f.payload i)
    (hmem : ∀ p, i ∈ k' p ↔ i ∈ k p) (he : f.get? i = some e) :
    ∃ e', g.get? i = some e' ∧ e.Alike e' := by
  simp only [Forest.payload, he, Option.map_some, Option.map_eq_some_iff, Payload.mk.injEq]
    at hpayload
  obtain ⟨e', he', hschema, hvalue, hmetadata⟩ := hpayload
  refine ⟨e', he', hschema, hvalue, hmetadata, ?_⟩
  cases hlinked : e.linked with
  | true =>
    have hmem' := (hmem _).2 (hf.placed i e he hlinked)
    exact (hg.linked_of_mem hmem' he').2
  | false =>
    rw [(hf.loose i e he hlinked).1]
    cases hlinked' : e'.linked with
    | true =>
      have hmem' := (hmem _).1 (hg.placed i e' he' hlinked')
      exact absurd hmem' (hf.not_mem_of_loose he hlinked)
    | false => exact (hg.loose i e' he' hlinked').1

namespace Forest

/-- The forest `g` is `f` without `n` and all that stood below it: the slots of `order`, in
pre-order, are free, and the next elements are stored in them from the last one back. -/
structure Freed (f g : Forest) (n : NodeId) (order : List NodeId) : Prop where
  preorder : f.layout.Preorder [n] order
  subtree : ∀ i, i ∈ order ↔ Relation.ReflTransGen f.ParentOf n i
  nodup : order.Nodup
  lived : ∀ i ∈ order, f.Alive (some i)
  lives : ∀ i, g.Alive (some i) ↔ f.Alive (some i) ∧ i ∉ order
  vacant : g.vacant = order.reverse ++ f.vacant
  size : g.size + order.length = f.size
  kept : ∀ i e, i ∉ order → f.element i = .ok e → ∃ e', g.element i = .ok e' ∧ e.Alike e'
  children : ∀ p l, p.any (· ∈ order) = false → f.children p = .ok l →
    g.children p = .ok (l.erase n)
  reused : ∀ ids h, Draws g ids h → ids.take order.length = order.reverse.take ids.length ∧
    (ids.length ≤ order.length → h.slots.size = g.slots.size)

/-- The sound forest `f'` is `f` with `n` standing nowhere. -/
structure Loosens (ctx : Context) (f : Forest) (k : Layout) (n : NodeId) (f' : Forest)
    (k' : Layout) : Prop where
  sound : Sound ctx f' k'
  layout : ∀ p, k' p = (k p).erase n
  vacant : f'.vacant = f.vacant
  slots : f'.slots.size = f.slots.size
  payload : ∀ i, f'.payload i = f.payload i

variable {ctx : Context} {f g f' : Forest} {k k' : Layout} {n : NodeId} {gone : List NodeId}

theorem Removing.loosens {p : Option NodeId} {e : Element} {xs ys : List NodeId}
    (h : Removing ctx f k p n e xs ys g) (hf : Laid ctx.schema f k) :
    Loosens ctx f k n g (Function.update k p (xs ++ ys)) where
  sound := h.sound
  layout := by
    intro q
    by_cases hq : q = p
    · subst hq
      have hnd := hf.nodup q
      rw [h.split, List.nodup_middle, List.nodup_cons, List.mem_append, not_or] at hnd
      rw [Function.update_self, h.split, List.erase_append_right _ hnd.1.1, List.erase_cons_head]
    · rw [Function.update_of_ne hq]
      refine (List.erase_of_not_mem fun hn => hq ?_).symm
      exact hf.unique_parent hn (by simp [h.split])
  vacant := (slots_of_bare h.bare_eq).1
  slots := (slots_of_bare h.bare_eq).2.trans (slots_size_retouch ..)
  payload := h.payload_eq

theorem Loosens.refl (h : Sound ctx f k) (hloose : ∀ q, n ∉ k q) : Loosens ctx f k n f k :=
  ⟨h, fun p => (List.erase_of_not_mem (hloose p)).symm, rfl, rfl, fun _ => rfl⟩

namespace Loosens

theorem exists_kept (h : Loosens ctx f k n f' k') (hf : Laid ctx.schema f k) {i : NodeId}
    {e : Element} (hi : i ≠ n) (he : f.get? i = some e) :
    ∃ e', f'.get? i = some e' ∧ e.Alike e' := by
  apply hf.exists_alike h.sound.laid (h.payload i) ?_ he
  intro p
  rw [h.layout, List.mem_erase_of_ne hi]

/-- Nothing below `n` stands above it, so that its subtree is the same before and after it is taken
out. -/
theorem preorder (h : Loosens ctx f k n f' k') (hf : Laid ctx.schema f k) (hs : ctx.schema.Built)
    {order : List NodeId} (horder : k'.Preorder [n] order) : k.Preorder [n] order := by
  apply horder.congr
  intro m hm
  rw [h.layout]
  refine (List.erase_of_not_mem fun hn => ?_).symm
  obtain ⟨r, hr, hpath⟩ := horder.mem_iff.1 hm
  cases List.mem_singleton.1 hr
  have hstep : (fun a b => b ∈ k' (some a)) ≤ f.ParentOf := by
    intro a b hb
    rw [h.layout] at hb
    exact hf.parentOf_iff.2 (List.mem_of_mem_erase hb)
  have hpath := Relation.ReflTransGen.mono hstep _ _ hpath
  exact hf.acyclic hs (.tail' hpath (hf.parentOf_iff.2 hn))

section Releasing

variable (h : Loosens ctx f k n f' k') (hf : Laid ctx.schema f k)
  (hreleasing : Releasing ctx f' k' n gone g)

include h hreleasing

theorem vacant_eq : g.vacant = gone ++ f.vacant := by
  rw [hreleasing.eq, ← h.vacant]
  rfl

theorem slots_eq : g.slots.size = f.slots.size := by
  rw [hreleasing.eq, ← h.slots]
  simp [without]

theorem size_add : g.size + gone.length = f.size := by
  have hle := hreleasing.sound.laid.length_vacant_le
  rw [h.vacant_eq hreleasing, h.slots_eq hreleasing, List.length_append] at hle
  rw [size, size, h.vacant_eq hreleasing, h.slots_eq hreleasing, List.length_append]
  omega

theorem lived {i : NodeId} (hi : i ∈ gone) : f.Alive (some i) :=
  alive_of_payload (fun j => (h.payload j).symm) (alive_some.2 (hreleasing.live.2 i hi))

include hf

theorem exists_alike {i : NodeId} {e : Element} (hi : i ∉ gone) (he : f.get? i = some e) :
    ∃ e', g.get? i = some e' ∧ e.Alike e' := by
  have hne : i ≠ n := by
    intro heq
    subst heq
    exact hi (hreleasing.below.within i (by simp))
  obtain ⟨e', he', halike⟩ := h.exists_kept hf hne he
  rw [hreleasing.eq]
  exact ⟨e', get?_without_eq_some.2 ⟨hi, he'⟩, halike⟩

theorem alive_iff_freed {i : NodeId} :
    g.Alive (some i) ↔ f.Alive (some i) ∧ i ∉ gone := by
  constructor
  · intro hi
    obtain ⟨e, he⟩ := alive_some.1 hi
    rw [hreleasing.eq, get?_without_eq_some] at he
    have hi' : f'.Alive (some i) := alive_some.2 ⟨e, he.2⟩
    exact ⟨alive_of_payload (fun j => (h.payload j).symm) hi', he.1⟩
  · intro hi
    obtain ⟨e, he⟩ := alive_some.1 hi.1
    obtain ⟨e', he', -⟩ := h.exists_alike hf hreleasing hi.2 he
    exact alive_some.2 ⟨e', he'⟩

theorem children_erase {p : Option NodeId} {l : List NodeId} (hp : p.any (· ∈ gone) = false)
    (hl : f.children p = .ok l) : g.children p = .ok (l.erase n) := by
  obtain ⟨hlive, rfl⟩ := hf.eq_of_children hl
  have hlive' : g.Alive p := by
    cases p with
    | none => exact nofun
    | some i => exact (h.alive_iff_freed hf hreleasing).2 ⟨hlive, by simpa using hp⟩
  rw [hreleasing.sound.laid.children_eq hlive', Laid.without_eq hp, h.layout]

theorem freed (hs : ctx.schema.Built) : Freed f g n gone.reverse := by
  have horder := h.preorder hf hs hreleasing.preorder
  have hvacant := h.vacant_eq hreleasing
  constructor
  case preorder => exact hf.eq_layout ▸ horder
  case subtree =>
    intro i
    have hstep : (fun a b => b ∈ k (some a)) = f.ParentOf := by
      funext a b
      exact propext hf.parentOf_iff.symm
    rw [horder.mem_iff, hstep]
    simp
  case nodup => exact List.nodup_reverse.2 hreleasing.live.1
  case lived => exact fun i hi => h.lived hreleasing (List.mem_reverse.1 hi)
  case lives =>
    intro i
    rw [List.mem_reverse]
    exact h.alive_iff_freed hf hreleasing
  case vacant => rw [List.reverse_reverse, hvacant]
  case size =>
    rw [List.length_reverse]
    exact h.size_add hreleasing
  case kept =>
    intro i e hi he
    rw [List.mem_reverse] at hi
    obtain ⟨e', he', halike⟩ := h.exists_alike hf hreleasing hi (element_eq_some.1 he)
    exact ⟨e', element_of_get? he', halike⟩
  case children =>
    intro p l hp hl
    simp only [List.mem_reverse] at hp
    exact h.children_erase hf hreleasing hp hl
  case reused =>
    intro ids g' hdraws
    rw [List.length_reverse, List.reverse_reverse]
    exact hdraws.reuses hvacant

end Releasing

end Loosens

end Forest

/-- All that is no key of a list instance can be freed: it and what stands below it are gone, their
slots are free for reuse, and all others are as they were. -/
theorem Reachable.frees_subtree {ctx : Context} {f : Forest} {n : NodeId} (h : Reachable ctx f)
    (hs : ctx.schema.Built) (hn : f.Alive (some n))
    (hkey : ¬(f.IsKey ctx n ∧ ∃ p, f.ParentOf p n)) :
    ∃ g order, (free ctx n).perform f = .ok (.ok (), g) ∧ Freed f g n order := by
  obtain ⟨k, hsound⟩ := h.sound hs
  obtain ⟨e, he⟩ := hn n rfl
  obtain ⟨node, hlook, hnode⟩ := schemaNode_ok hsound.laid he
  have hfree : ¬(e.linked = true ∧ node.isKey = true ∧ e.parent.isSome = true) := by
    intro hlinkedKey
    obtain ⟨-, hisKey, hparent⟩ := hlinkedKey
    obtain ⟨p, hp⟩ := Option.isSome_iff_exists.1 hparent
    exact hkey ⟨⟨node, hlook, hisKey⟩, p, e, element_of_get? he, hp⟩
  obtain ⟨r, g, hperform, hiff⟩ : Lands _ _ _ := free_lands hsound hs he hnode
  cases hiff.2 hfree
  obtain ⟨f', k', gone, hsound', hreleasing, hwhence⟩ := free_atomic hsound hs n _ _ hperform
  refine ⟨g, gone.reverse, hperform, ?_⟩
  rcases hwhence with ⟨rfl, rfl⟩ | ⟨p, e, xs, ys, rfl, hremoving⟩
  · exact (Loosens.refl hsound hreleasing.loose).freed hsound.laid hreleasing hs
  · exact (hremoving.loosens hsound.laid).freed hsound.laid hreleasing hs

/-- An entry is freed with its number and its remark, and the slot of the remark is reused first. -/
theorem Reachable.frees_subtree_of_entry : ∃ f g, Reachable (.ofEntries true) f ∧
    f.Alive (some 0) ∧ ¬(f.IsKey (.ofEntries true) 0 ∧ ∃ p, f.ParentOf p 0) ∧
      (free (.ofEntries true) 0).perform f = .ok (.ok (), g) ∧ Freed f g 0 [0, 1, 2] ∧
        g.vacant = [2, 1, 0] := by
  have hlist := ((Reachable.empty : Reachable (.ofEntries true) .empty).step
    (.createList 0 [.uint 7]) rfl).step (.insertChild none 0) rfl
  have h := (hlist.step (.createTerm 2 (.string "first")) rfl).step (.insertChild (some 0) 2) rfl
  obtain ⟨f, h, ⟨e, he, hroot⟩, hentry, hnumber, hremark, hvacant⟩ :
      ∃ f, Reachable (.ofEntries true) f ∧ (∃ e, f.get? 0 = some e ∧ e.parent = none) ∧
        f.layout (some 0) = [1, 2] ∧ f.layout (some 1) = [] ∧ f.layout (some 2) = [] ∧
          f.vacant = [] := ⟨_, h, ⟨_, rfl, rfl⟩, rfl, rfl, rfl, rfl⟩
  have hn : f.Alive (some 0) := alive_some.2 ⟨e, he⟩
  have hkey : ¬(f.IsKey (.ofEntries true) 0 ∧ ∃ p, f.ParentOf p 0) := by
    intro hkey
    obtain ⟨-, p, e', he', hparent⟩ := hkey
    cases he.symm.trans (element_eq_some.1 he')
    cases hroot.symm.trans hparent
  obtain ⟨g, order, hg, hfreed⟩ := h.frees_subtree Schema.entries_built hn hkey
  have hleaf : ∀ i, f.layout (some i) = [] → f.layout.Preorder [i] [i] := by
    intro i hi
    apply Layout.Preorder.singleton
    rw [hi]
    exact .nil
  have hbelow : f.layout.Preorder (f.layout (some 0)) [1, 2] := by
    rw [hentry]
    exact (hleaf 1 hnumber).append (hleaf 2 hremark)
  cases hfreed.preorder.unique hbelow.singleton
  exact ⟨f, g, h, hn, hkey, hg, hfreed, by simpa [hvacant] using hfreed.vacant⟩

end InstanceTree
