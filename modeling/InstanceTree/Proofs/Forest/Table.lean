import InstanceTree.Forest.Chain
import InstanceTree.Proofs.Yields

namespace InstanceTree

def Element.mapChildren (g : Children → Children) (e : Element) : Element :=
  match e.content with
  | .term _ => e
  | .inner c => { e with content := .inner (g c) }

section MapChildren

variable (g : Children → Children) (e : Element)

@[simp] theorem Element.mapChildren_schema : (e.mapChildren g).schema = e.schema := by
  unfold mapChildren
  split <;> rfl

@[simp] theorem Element.mapChildren_parent : (e.mapChildren g).parent = e.parent := by
  unfold mapChildren
  split <;> rfl

@[simp] theorem Element.mapChildren_prev : (e.mapChildren g).prev = e.prev := by
  unfold mapChildren
  split <;> rfl

@[simp] theorem Element.mapChildren_next : (e.mapChildren g).next = e.next := by
  unfold mapChildren
  split <;> rfl

@[simp] theorem Element.mapChildren_linked : (e.mapChildren g).linked = e.linked := by
  unfold mapChildren
  split <;> rfl

@[simp] theorem Element.mapChildren_metadata : (e.mapChildren g).metadata = e.metadata := by
  unfold mapChildren
  split <;> rfl

@[simp] theorem Element.mapChildren_anchor : (e.mapChildren g).anchor = e.anchor := by
  unfold mapChildren
  split <;> rfl

@[simp] theorem Element.mapChildren_value? : (e.mapChildren g).value? = e.value? := by
  unfold mapChildren value?
  cases h : e.content <;> simp [h]

@[simp] theorem Element.mapChildren_children? :
    (e.mapChildren g).children? = e.children?.map g := by
  unfold mapChildren children?
  cases h : e.content <;> simp [h]

end MapChildren

/-- The index in an anchor can be taken apart, if there is one. -/
def Drops (anchor : Option Anchor) : Prop :=
  dropAnchor anchor = .ok ()

theorem Drops.eq {anchor : Option Anchor} (h : Drops anchor) : dropAnchor anchor = .ok () := h

theorem drops_none : Drops none := rfl

theorem drops_bare : Drops (some ⟨none⟩) := rfl

namespace Forest

def get? (f : Forest) (n : NodeId) : Option Element :=
  f.slots[n]?.join

def Tidy (f : Forest) : Prop :=
  ∀ n e, f.get? n = some e → Drops e.anchor

def kind? (f : Forest) (n : NodeId) : Option SchemaId :=
  (f.get? n).map (·.schema)

def isOf (f : Forest) (t : SchemaId) (n : NodeId) : Bool :=
  f.kind? n = some t

def chain? (f : Forest) : Option NodeId → Option Children
  | none => some f.top
  | some p => (f.get? p).bind (·.children?)

/-- The forest with every element changed by a rule that knows its slot, and with a change to
the chain at the top. -/
def retouch (f : Forest) (h : NodeId → Element → Element) (t : Children → Children) : Forest :=
  { f with slots := f.slots.mapIdx fun i => Option.map (h i), top := t f.top }

section Retouch

variable (f : Forest) (h h' : NodeId → Element → Element) (t t' : Children → Children)
  (n : NodeId)

@[simp] theorem get?_retouch : (f.retouch h t).get? n = (f.get? n).map (h n) := by
  simp only [get?, retouch, Array.getElem?_mapIdx]
  cases f.slots[n]? with
  | none => rfl
  | some slot => cases slot <;> rfl

@[simp] theorem top_retouch : (f.retouch h t).top = t f.top := rfl

@[simp] theorem vacant_retouch : (f.retouch h t).vacant = f.vacant := rfl

theorem get?_retouch_eq_some {e : Element} :
    (f.retouch h t).get? n = some e ↔ ∃ e', f.get? n = some e' ∧ h n e' = e := by
  rw [get?_retouch, Option.map_eq_some_iff]

@[simp] theorem slots_size_retouch : (f.retouch h t).slots.size = f.slots.size := by
  simp [retouch]

theorem empty_retouch (hn : f.slots[n]? = some none) :
    (f.retouch h t).slots[n]? = some none := by
  simp [retouch, hn]

theorem empty_of_retouch (hn : (f.retouch h t).slots[n]? = some none) :
    f.slots[n]? = some none := by
  simp only [retouch, Array.getElem?_mapIdx] at hn
  cases hslot : f.slots[n]? with
  | none => simp [hslot] at hn
  | some slot => cases slot <;> simp_all

theorem retouch_retouch :
    (f.retouch h t).retouch h' t' = f.retouch (fun i e => h' i (h i e)) (t' ∘ t) := by
  simp only [retouch, Array.mapIdx_mapIdx, Function.comp_apply]
  congr 2
  funext i slot
  cases slot <;> rfl

end Retouch

variable {f : Forest} {n : NodeId} {e : Element}

theorem element_eq_some : f.element n = .ok e ↔ f.get? n = some e := by
  rw [element_eq_ok, get?]
  cases f.slots[n]? <;> simp

theorem element_of_get? (h : f.get? n = some e) : f.element n = .ok e :=
  element_eq_some.2 h

theorem slot_of_dead (h : f.get? n = none) : ∀ e, f.slots[n]? ≠ some (some e) := by
  intro e he
  simp [get?, he] at h

theorem element_of_dead (h : f.get? n = none) : f.element n = .error (.notLive n) := by
  unfold element
  split
  · next e he => exact absurd he (slot_of_dead h e)
  · rfl

theorem update_of_dead (h : f.get? n = none) (g : Element → Element) :
    f.update n g = .error (.notLive n) := by
  unfold update
  split
  · next e he => exact absurd he (slot_of_dead h e)
  · rfl

theorem schemaOf_of_get? (h : f.get? n = some e) : f.schemaOf n = .ok e.schema := by
  simp only [schemaOf, element_of_get? h, ok_bind]
  rfl

theorem slot_of_get? (h : f.get? n = some e) : f.slots[n]? = some (some e) := by
  rw [get?] at h
  cases hs : f.slots[n]? with
  | none => simp [hs] at h
  | some slot => simp_all

theorem isOf_of_get? (h : f.get? n = some e) (t : SchemaId) :
    f.isOf t n = decide (e.schema = t) := by
  simp [isOf, kind?, h]

/-- A link leads nowhere, or to an element that lives. -/
def Alive (f : Forest) (link : Option NodeId) : Prop :=
  ∀ i, link = some i → ∃ e, f.get? i = some e

theorem alive_some : f.Alive (some n) ↔ ∃ e, f.get? n = some e :=
  ⟨fun h => h n rfl, fun h _ hi => Option.some.inj hi ▸ h⟩

theorem children?_eq {p : Option NodeId} (hp : f.Alive p) : f.children? p = .ok (f.chain? p) := by
  cases p with
  | none => rfl
  | some i =>
    obtain ⟨e, he⟩ := hp i rfl
    simp only [children?, element_of_get? he, ok_bind, chain?, he]
    rfl

section Same

variable {h : NodeId → Element → Element} {t : Children → Children}

theorem kind?_retouch (hh : ∀ i e, (h i e).schema = e.schema) (n : NodeId) :
    (f.retouch h t).kind? n = f.kind? n := by
  rw [kind?, kind?, get?_retouch]
  cases f.get? n <;> simp [hh]

theorem isOf_retouch (hh : ∀ i e, (h i e).schema = e.schema) (s : SchemaId) :
    (f.retouch h t).isOf s = f.isOf s := by
  funext n
  rw [isOf, isOf, kind?_retouch hh]

theorem alive_retouch {link : Option NodeId} (hl : f.Alive link) : (f.retouch h t).Alive link := by
  intro i hi
  obtain ⟨e, he⟩ := hl i hi
  exact ⟨h i e, by rw [get?_retouch, he]; rfl⟩

theorem chain?_retouch (hh : ∀ i e, (h i e).content = e.content) (p : Option NodeId) :
    (f.retouch h id).chain? p = f.chain? p := by
  cases p with
  | none => rfl
  | some i =>
    rw [chain?, chain?, get?_retouch]
    cases f.get? i with
    | none => rfl
    | some e => simp [Element.children?, hh]

end Same

theorem ext_get? {f g : Forest} (hsize : f.slots.size = g.slots.size)
    (hget : ∀ n, f.get? n = g.get? n) (hvacant : f.vacant = g.vacant) (htop : f.top = g.top) :
    f = g := by
  obtain ⟨slots, vacant, top⟩ := f
  obtain ⟨slots', vacant', top'⟩ := g
  cases hvacant
  cases htop
  have hslots : slots = slots' := by
    apply Array.ext hsize
    intro i hi hi'
    have hi := hget i
    simpa [get?, *] using hi
  rw [hslots]

theorem retouch_congr {h h' : NodeId → Element → Element} {t t' : Children → Children}
    (hh : ∀ i e, f.get? i = some e → h i e = h' i e) (ht : t f.top = t' f.top) :
    f.retouch h t = f.retouch h' t' := by
  refine ext_get? (by simp) ?_ rfl ht
  intro i
  simp only [get?_retouch]
  cases he : f.get? i with
  | none => rfl
  | some e => simp [hh i e he]

theorem retouch_id {h : NodeId → Element → Element} {t : Children → Children}
    (hh : ∀ i e, f.get? i = some e → h i e = e) (ht : t f.top = f.top) : f.retouch h t = f := by
  refine ext_get? (by simp) ?_ rfl ht
  intro i
  rw [get?_retouch]
  cases he : f.get? i with
  | none => rfl
  | some e => simp [hh i e he]

def touch (n : NodeId) (g : Element → Element) (i : NodeId) (e : Element) : Element :=
  if i = n then g e else e

def touchLinked (link : Option NodeId) (g : Element → Element) (i : NodeId) (e : Element) :
    Element :=
  if link = some i then g e else e

def touchChain (p : Option NodeId) (g : Children → Children) (i : NodeId) (e : Element) :
    Element :=
  if p = some i then e.mapChildren g else e

def topChain (p : Option NodeId) (g : Children → Children) : Children → Children :=
  if p = none then g else id

section TouchChain

variable (p : Option NodeId) (g : Children → Children) (i : NodeId) (e : Element)

@[simp] theorem touchChain_schema : (touchChain p g i e).schema = e.schema := by
  unfold touchChain
  split <;> simp

@[simp] theorem touchChain_parent : (touchChain p g i e).parent = e.parent := by
  unfold touchChain
  split <;> simp

@[simp] theorem touchChain_prev : (touchChain p g i e).prev = e.prev := by
  unfold touchChain
  split <;> simp

@[simp] theorem touchChain_next : (touchChain p g i e).next = e.next := by
  unfold touchChain
  split <;> simp

@[simp] theorem touchChain_linked : (touchChain p g i e).linked = e.linked := by
  unfold touchChain
  split <;> simp

@[simp] theorem touchChain_metadata : (touchChain p g i e).metadata = e.metadata := by
  unfold touchChain
  split <;> simp

@[simp] theorem touchChain_anchor : (touchChain p g i e).anchor = e.anchor := by
  unfold touchChain
  split <;> simp

@[simp] theorem touchChain_value? : (touchChain p g i e).value? = e.value? := by
  unfold touchChain
  split <;> simp

theorem touchChain_children? :
    (touchChain p g i e).children? = if p = some i then e.children?.map g else e.children? := by
  unfold touchChain
  split <;> simp

end TouchChain

theorem update_eq (he : f.get? n = some e) (g : Element → Element) :
    f.update n g = .ok (f.retouch (touch n g) id) := by
  refine update_eq_ok.2 ⟨e, element_of_get? he, ?_⟩
  have hslot := slot_of_get? he
  obtain ⟨hlt, -⟩ := Array.getElem?_eq_some_iff.1 hslot
  refine ext_get? (by simp) ?_ rfl rfl
  intro i
  rw [get?_retouch]
  by_cases hi : i = n
  · subst hi
    rw [he]
    simp [get?, hlt, touch]
  · have hfix : (f.get? i).map (touch n g i) = f.get? i := by
      cases f.get? i <;> simp [touch, hi]
    rw [hfix, get?, get?, Array.getElem?_setIfInBounds_ne (Ne.symm hi)]

theorem updateLinked_eq {link : Option NodeId} (h : f.Alive link)
    (g : Element → Element) :
    f.updateLinked link g = .ok (f.retouch (touchLinked link g) id) := by
  cases link with
  | none => exact congrArg Except.ok (retouch_id (fun _ _ _ => rfl) rfl).symm
  | some i =>
    obtain ⟨e, he⟩ := h i rfl
    rw [updateLinked, update_eq he]
    refine congrArg Except.ok (retouch_congr (fun j _ _ => ?_) rfl)
    simp [touch, touchLinked, eq_comm]

theorem updateChildren_eq {p : Option NodeId} {c : Children} (h : f.chain? p = some c)
    (g : Children → Children) :
    f.updateChildren p g = .ok (f.retouch (touchChain p g) (topChain p g)) := by
  cases p with
  | none =>
    apply congrArg Except.ok
    refine ext_get? (by simp) ?_ rfl rfl
    intro i
    have hfix : (f.get? i).map (touchChain none g i) = f.get? i := by
      cases f.get? i <;> simp [touchChain]
    rw [get?_retouch, hfix]
    rfl
  | some p =>
    obtain ⟨e, he, hc⟩ := Option.bind_eq_some_iff.1 h
    have hcontent : e.content = .inner c := by
      unfold Element.children? at hc
      split at hc
      · cases hc
      · next c' heq =>
        cases hc
        exact heq
    simp only [updateChildren, element_of_get? he, ok_bind, hcontent, update_eq he]
    refine congrArg Except.ok (retouch_congr (fun i e' he' => ?_) rfl)
    by_cases hi : i = p
    · subst hi
      cases he.symm.trans he'
      simp [touch, touchChain, Element.mapChildren, hcontent]
    · simp [touch, touchChain, hi, Ne.symm hi]

theorem bounds_eq {link : Option NodeId} (h : f.Alive link)
    (t : SchemaId) : f.bounds t link = .ok (!link.any (f.isOf t)) := by
  cases link with
  | none => rfl
  | some i =>
    obtain ⟨e, he⟩ := h i rfl
    simp only [bounds, schemaOf_of_get? he, ok_bind]
    simp [isOf, kind?, he]
    rfl

theorem enroll_eq (he : f.get? n = some e)
    (hprev : f.Alive e.prev) (hnext : f.Alive e.next) {c : Children}
    (hc : f.chain? e.parent = some c) {g : Children → Children}
    (hg : g = fun c => c.enter n e.schema e.prev e.next (!e.prev.any (f.isOf e.schema))
      (!e.next.any (f.isOf e.schema))) :
    f.enroll n = .ok (f.retouch (touchChain e.parent g) (topChain e.parent g)) := by
  simp only [enroll, element_of_get? he, ok_bind, bounds_eq hprev, bounds_eq hnext,
    updateChildren_eq hc, hg]

end Forest

end InstanceTree
