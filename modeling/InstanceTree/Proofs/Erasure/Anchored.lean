import InstanceTree.Document.Export
import InstanceTree.Proofs.Group.Anchors

namespace InstanceTree

def Element.anchored (e : Element) (x : Option Anchor) : Element :=
  { e with anchor := x }

section Except

variable {α α' β β' ε : Type} {φ : α → α'} {ψ : β → β'} {x : Except ε α}

theorem map_bind_eq {k : α → Except ε β} {k' : α' → Except ε β'}
    (h : ∀ a, k' (φ a) = ψ <$> k a) : (φ <$> x >>= k') = ψ <$> (x >>= k) := by
  cases x with
  | ok a => exact h a
  | error _ => rfl

theorem bind_eq_map_bind {k : α → Except ε β} {k' : α → Except ε β'}
    (h : ∀ a, k' a = ψ <$> k a) : (x >>= k') = ψ <$> (x >>= k) := by
  cases x with
  | ok a => exact h a
  | error _ => rfl

end Except

namespace Forest

variable {f : Forest} {a : NodeId → Option Anchor} {n : NodeId} {p : Option NodeId}

theorem element_anchored (f : Forest) (a : NodeId → Option Anchor) (n : NodeId) :
    (f.anchored a).element n = (·.anchored (a n)) <$> f.element n := by
  cases he : f.get? n with
  | none =>
    have hdead : (f.anchored a).get? n = none := by rw [get?_anchored, he]; rfl
    rw [element_of_dead he, element_of_dead hdead]
    rfl
  | some e =>
    have hanchored : (f.anchored a).get? n = some (e.anchored (a n)) := by
      rw [get?_anchored, he]
      rfl
    rw [element_of_get? he, element_of_get? hanchored, map_ok]

section Views

variable (f : Forest) (ctx : Context) (n : NodeId) (p : Option NodeId) (t : SchemaId)

theorem schemaOf_anchored : (f.anchored a).schemaOf n = f.schemaOf n := by
  rw [schemaOf, schemaOf, element_anchored]
  cases f.element n <;> rfl

theorem children?_anchored : (f.anchored a).children? p = f.children? p := by
  cases p with
  | none => rfl
  | some i =>
    rw [children?, children?, element_anchored]
    cases f.element i <;> rfl

theorem steps_anchored : (f.anchored a).steps = f.steps := by
  simp [steps, anchored]

theorem lastChild_anchored : (f.anchored a).lastChild p = f.lastChild p := by
  rw [lastChild, lastChild, children?_anchored]

theorem runStart_anchored : (f.anchored a).runStart p t = f.runStart p t := by
  rw [runStart, runStart, run?, run?, children?_anchored]

theorem runEnd_anchored : (f.anchored a).runEnd p t = f.runEnd p t := by
  rw [runEnd, runEnd, run?, run?, children?_anchored]

theorem schemaNode_anchored : (f.anchored a).schemaNode ctx n = f.schemaNode ctx n := by
  rw [schemaNode, schemaNode, schemaOf_anchored]

theorem bounds_anchored : (f.anchored a).bounds t p = f.bounds t p := by
  cases p with
  | none => rfl
  | some i => rw [bounds, bounds, schemaOf_anchored]

theorem startsRun_anchored : (f.anchored a).startsRun n = f.startsRun n := by
  rw [startsRun, startsRun, element_anchored]
  cases f.element n with
  | error _ => rfl
  | ok e => exact bounds_anchored ..

theorem siblingsFrom_anchored (fuel : Nat) :
    (f.anchored a).siblingsFrom fuel p = f.siblingsFrom fuel p := by
  induction fuel generalizing p with
  | zero => cases p <;> rfl
  | succ fuel ih =>
    cases p with
    | none => rfl
    | some i =>
      rw [siblingsFrom, siblingsFrom, element_anchored]
      cases f.element i with
      | error _ => rfl
      | ok e =>
        simp only [map_ok, ok_bind, ih]
        rfl

theorem children_anchored : (f.anchored a).children p = f.children p := by
  rw [children, children, firstChild, firstChild, children?_anchored, steps_anchored]
  simp only [siblingsFrom_anchored]

theorem exportBelow_anchored (depth : Nat) :
    (f.anchored a).exportBelow ctx depth p = f.exportBelow ctx depth p := by
  induction depth generalizing p with
  | zero => rfl
  | succ depth ih =>
    rw [exportBelow, exportBelow, children_anchored]
    refine congrArg (f.children p >>= ·) (funext fun l => ?_)
    apply congrArg (· >>= fun members => pure (Json.obj members))
    refine congrArg (List.foldlM · [] l) (funext fun ms => funext fun i => ?_)
    rw [schemaNode_anchored, element_anchored]
    refine congrArg (f.schemaNode ctx i >>= ·) (funext fun node => ?_)
    cases f.element i with
    | error _ => rfl
    | ok e =>
      simp only [map_ok, ok_bind, Element.anchored]
      cases e.content with
      | term v => rfl
      | inner c => simp only [ih]

theorem toJson_anchored : (f.anchored a).toJson ctx p = f.toJson ctx p := by
  rw [toJson, toJson, steps_anchored, exportBelow_anchored]

end Views

theorem allocate_anchored (f : Forest) (t : SchemaId) (content : Content)
    (ha : ∀ g n, f.allocate t content = .ok (g, n) → a n = none) :
    (f.anchored a).allocate t content =
      (fun stored => (stored.1.anchored a, stored.2)) <$> f.allocate t content := by
  unfold allocate at ha ⊢
  cases hv : f.vacant with
  | nil =>
    simp only [hv] at ha
    simp only [anchored, vacant_retouch, hv, slots_size_retouch]
    unfold slotFor at ha ⊢
    split
    · next hroom =>
      rw [if_pos hroom] at ha
      have hnone := ha _ _ rfl
      simp [retouch, Array.mapIdx_push, hnone]
    · rfl
  | cons id rest =>
    simp only [hv] at ha
    have hnone := ha _ _ rfl
    simp only [anchored, vacant_retouch, hv]
    simp [retouch, Array.mapIdx_setIfInBounds, hnone]

theorem update_anchored {g : Element → Element}
    (hg : ∀ e x, g (e.anchored x) = (g e).anchored x) (f : Forest) (n : NodeId) :
    (f.anchored a).update n g = (·.anchored a) <$> f.update n g := by
  cases he : f.get? n with
  | none =>
    have hdead : (f.anchored a).get? n = none := by rw [get?_anchored, he]; rfl
    rw [update_of_dead he, update_of_dead hdead]
    rfl
  | some e =>
    have hanchored : (f.anchored a).get? n = some (e.anchored (a n)) := by
      rw [get?_anchored, he]
      rfl
    rw [update_eq he, update_eq hanchored, map_ok, anchored, anchored, retouch_retouch,
      retouch_retouch]
    refine congrArg Except.ok (retouch_congr (fun i e' _ => ?_) rfl)
    unfold touch
    split
    · exact hg e' (a i)
    · rfl

theorem updateLinked_anchored {g : Element → Element}
    (hg : ∀ e x, g (e.anchored x) = (g e).anchored x) (f : Forest) (link : Option NodeId) :
    (f.anchored a).updateLinked link g = (·.anchored a) <$> f.updateLinked link g := by
  cases link with
  | none => rfl
  | some i => exact update_anchored hg f i

theorem updateChildren_anchored (f : Forest) (p : Option NodeId) (g : Children → Children) :
    (f.anchored a).updateChildren p g = (·.anchored a) <$> f.updateChildren p g := by
  cases p with
  | none => rfl
  | some i =>
    rw [updateChildren, updateChildren, element_anchored]
    apply map_bind_eq
    intro e
    simp only [Element.anchored]
    cases e.content with
    | term v => rfl
    | inner c =>
      exact update_anchored (g := fun e => { e with content := .inner (g c) }) (fun _ _ => rfl) f i

theorem enroll_anchored (f : Forest) (n : NodeId) :
    (f.anchored a).enroll n = (·.anchored a) <$> f.enroll n := by
  rw [enroll, enroll, element_anchored]
  apply map_bind_eq
  intro e
  simp only [bounds_anchored]
  apply bind_eq_map_bind
  intro starts
  apply bind_eq_map_bind
  intro ends
  exact updateChildren_anchored ..

section Splices

variable {c c' : Forest → Except Fault Forest} {g : Element → Element}

theorem update_bind_anchored (hg : ∀ e x, g (e.anchored x) = (g e).anchored x)
    (hc : ∀ f, c' (f.anchored a) = (·.anchored a) <$> c f) :
    ((f.anchored a).update n g >>= c') = (·.anchored a) <$> (f.update n g >>= c) := by
  rw [update_anchored hg]
  exact map_bind_eq hc

theorem updateLinked_bind_anchored (hg : ∀ e x, g (e.anchored x) = (g e).anchored x)
    (hc : ∀ f, c' (f.anchored a) = (·.anchored a) <$> c f) :
    ((f.anchored a).updateLinked p g >>= c') = (·.anchored a) <$> (f.updateLinked p g >>= c) := by
  rw [updateLinked_anchored hg]
  exact map_bind_eq hc

end Splices

theorem spliceAfter_anchored (f : Forest) (pivot n : NodeId) :
    (f.anchored a).spliceAfter pivot n = (·.anchored a) <$> f.spliceAfter pivot n := by
  rw [spliceAfter, spliceAfter, element_anchored]
  refine map_bind_eq fun e => updateLinked_bind_anchored (fun _ _ => rfl) fun f => ?_
  refine update_bind_anchored (fun _ _ => rfl) fun f => ?_
  refine update_bind_anchored (fun _ _ => rfl) fun f => ?_
  exact enroll_anchored f n

theorem spliceBefore_anchored (f : Forest) (pivot n : NodeId) :
    (f.anchored a).spliceBefore pivot n = (·.anchored a) <$> f.spliceBefore pivot n := by
  rw [spliceBefore, spliceBefore, element_anchored]
  refine map_bind_eq fun e => updateLinked_bind_anchored (fun _ _ => rfl) fun f => ?_
  refine update_bind_anchored (fun _ _ => rfl) fun f => ?_
  refine update_bind_anchored (fun _ _ => rfl) fun f => ?_
  exact enroll_anchored f n

theorem spliceLast_anchored (f : Forest) (p : Option NodeId) (n : NodeId) :
    (f.anchored a).spliceLast p n = (·.anchored a) <$> f.spliceLast p n := by
  rw [spliceLast, spliceLast, lastChild_anchored]
  apply bind_eq_map_bind
  intro last
  cases last with
  | some last => exact spliceAfter_anchored f last n
  | none => exact update_bind_anchored (fun _ _ => rfl) fun f => enroll_anchored f n

theorem freed_anchored (f : Forest) (n : NodeId) :
    ({ f.anchored a with
      slots := (f.anchored a).slots.setIfInBounds n none
      vacant := n :: (f.anchored a).vacant } : Forest) =
      anchored { f with slots := f.slots.setIfInBounds n none, vacant := n :: f.vacant } a := by
  simp [anchored, retouch, Array.mapIdx_setIfInBounds]

theorem get?_of_freed {m : NodeId} {e : Element}
    (he : ({ f with
      slots := f.slots.setIfInBounds n none
      vacant := n :: f.vacant } : Forest).get? m = some e) : f.get? m = some e := by
  rw [get?, Array.getElem?_setIfInBounds] at he
  split at he
  · split at he <;> cases he
  · exact he

theorem releaseBelow_subset (fuel : Nat) :
    (∀ (f : Forest) (n : NodeId) (g : Forest), releaseBelow fuel f n = .ok g →
      ∀ m e, g.get? m = some e → f.get? m = some e) ∧
    ∀ (f : Forest) (link : Option NodeId) (g : Forest), releaseChain fuel f link = .ok g →
      ∀ m e, g.get? m = some e → f.get? m = some e := by
  induction fuel with
  | zero =>
    refine ⟨fun _ _ _ hg => (by cases hg), fun _ link _ hg m e he => ?_⟩
    cases link with
    | none =>
      cases hg
      exact he
    | some _ => cases hg
  | succ fuel ih =>
    constructor
    · intro f n g hg m e he
      obtain ⟨e', -, hg⟩ := bind_eq_ok.1 hg
      obtain ⟨_, -, hg⟩ := bind_eq_ok.1 hg
      apply get?_of_freed (n := n)
      cases hcontent : e'.content with
      | term v =>
        rw [hcontent] at hg
        cases hg
        exact he
      | inner c =>
        rw [hcontent] at hg
        exact ih.2 _ _ g hg m e he
    · intro f link g hg m e he
      cases link with
      | none =>
        cases hg
        exact he
      | some n =>
        obtain ⟨e', -, hg⟩ := bind_eq_ok.1 hg
        obtain ⟨f', hf', hg⟩ := bind_eq_ok.1 hg
        exact ih.1 f n f' hf' m e (ih.2 f' _ g hg m e he)

/-- Where every index can be taken apart, a release does the same whatever the anchors are. -/
theorem releaseBelow_anchored (ha : ∀ n, Drops (a n)) (fuel : Nat) :
    (∀ (f : Forest) (n : NodeId), f.Tidy →
      releaseBelow fuel (f.anchored a) n = (·.anchored a) <$> releaseBelow fuel f n) ∧
    ∀ (f : Forest) (link : Option NodeId), f.Tidy →
      releaseChain fuel (f.anchored a) link = (·.anchored a) <$> releaseChain fuel f link := by
  induction fuel with
  | zero =>
    refine ⟨fun _ _ _ => rfl, fun _ link _ => ?_⟩
    cases link <;> rfl
  | succ fuel ih =>
    refine ⟨fun f n hf => ?_, fun f link hf => ?_⟩
    · cases he : f.get? n with
      | none =>
        have hdead : (f.anchored a).get? n = none := by rw [get?_anchored, he]; rfl
        rw [releaseBelow, releaseBelow, element_of_dead he, element_of_dead hdead]
        rfl
      | some e =>
        have hanchored : (f.anchored a).get? n = some (e.anchored (a n)) := by
          rw [get?_anchored, he]
          rfl
        rw [releaseBelow, releaseBelow, element_of_get? he, element_of_get? hanchored]
        simp only [ok_bind, freed_anchored, Element.anchored, (ha n).eq, (hf n e he).eq]
        cases e.content with
        | term v => rfl
        | inner c => exact ih.2 _ c.first fun m e' he' => hf m e' (get?_of_freed he')
    · cases link with
      | none => rfl
      | some n =>
        rw [releaseChain, releaseChain, element_anchored]
        apply map_bind_eq
        intro e
        rw [ih.1 f n hf]
        cases hg : releaseBelow fuel f n with
        | error _ => rfl
        | ok g =>
          exact ih.2 g e.next fun m e' he' => hf m e' ((releaseBelow_subset fuel).1 f n g hg m e' he')

theorem release_anchored (ha : ∀ n, Drops (a n)) {f : Forest} (hf : f.Tidy) (n : NodeId) :
    (f.anchored a).release n = (·.anchored a) <$> f.release n := by
  rw [release, release, steps_anchored, (releaseBelow_anchored ha _).1 f n hf]

end Forest

end InstanceTree
