import InstanceTree.RedBlack.Bag
import InstanceTree.Schema
import InstanceTree.Value.Basic

namespace InstanceTree

/-- An element of a forest, by the slot that it lives in. -/
abbrev NodeId := Nat

structure Metadata where
  name : String
  value : String
deriving DecidableEq, Repr

/-- The first and the last instance of one schema node among the children of a parent. -/
structure Run where
  first : NodeId
  last : NodeId
deriving DecidableEq, Repr

abbrev Runs := List (SchemaId × Run)

namespace Runs

def get? : Runs → SchemaId → Option Run
  | [], _ => none
  | (s, run) :: rest, schema => if s = schema then some run else get? rest schema

def erase : Runs → SchemaId → Runs
  | [], _ => []
  | (s, run) :: rest, schema =>
    if s = schema then erase rest schema else (s, run) :: erase rest schema

def set (runs : Runs) (schema : SchemaId) (run : Run) : Runs :=
  (schema, run) :: runs.erase schema

theorem get?_erase_same (runs : Runs) (schema : SchemaId) :
    (runs.erase schema).get? schema = none := by
  induction runs with
  | nil => rfl
  | cons entry rest ih =>
    obtain ⟨s, run⟩ := entry
    by_cases h : s = schema <;> simp [erase, get?, h, ih]

theorem get?_erase_other (runs : Runs) {schema other : SchemaId} (h : schema ≠ other) :
    (runs.erase schema).get? other = runs.get? other := by
  induction runs with
  | nil => rfl
  | cons entry rest ih =>
    obtain ⟨s, run⟩ := entry
    by_cases hs : s = schema
    · simp [erase, get?, hs, h, ih]
    · simp [erase, get?, hs, ih]

theorem get?_set_same (runs : Runs) (schema : SchemaId) (run : Run) :
    (runs.set schema run).get? schema = some run := by
  simp [set, get?]

theorem get?_set_other (runs : Runs) {schema other : SchemaId} (run : Run) (h : schema ≠ other) :
    (runs.set schema run).get? other = runs.get? other := by
  simp [set, get?, h, get?_erase_other runs h]

end Runs

/-- The chain of children of a parent, or of the top: its ends and its runs. -/
structure Children where
  first : Option NodeId := none
  last : Option NodeId := none
  runs : Runs := []
deriving DecidableEq, Repr

inductive SortKind where
  | leafList
  | list
deriving DecidableEq, Repr

def SchemaNode.sortKind? (n : SchemaNode) : Option SortKind :=
  match n.orderedBy, n.kind with
  | .system, .leafList _ => some .leafList
  | .system, .list (_ :: _) => some .list
  | _, _ => none

/-- A search tree over the members of a sorted group. -/
structure Index where
  kind : SortKind
  bag : RedBlack.Bag NodeId
deriving DecidableEq, Repr

/-- Carried by the first member of a sorted group, with the index once there is one. -/
structure Anchor where
  index : Option Index := none
deriving DecidableEq, Repr

/-- Takes an index apart, without rebalancing; gives the number of nodes released. -/
def Index.drain (i : Index) : Except Fault Nat := do
  return (← i.bag.drain).2.length

def dropAnchor (anchor : Option Anchor) : Except Fault Unit :=
  match anchor.bind (·.index) with
  | none => .ok ()
  | some index => do
    let _ ← index.drain
    return

inductive Content where
  | term (value : Value)
  | inner (children : Children)
deriving DecidableEq, Repr

structure Element where
  schema : SchemaId
  content : Content
  parent : Option NodeId := none
  prev : Option NodeId := none
  next : Option NodeId := none
  /-- Whether the element stands in a chain of children. -/
  linked : Bool := false
  metadata : List Metadata := []
  anchor : Option Anchor := none
deriving DecidableEq, Repr

def Element.value? (e : Element) : Option Value :=
  match e.content with
  | .term v => some v
  | .inner _ => none

def Element.children? (e : Element) : Option Children :=
  match e.content with
  | .term _ => none
  | .inner c => some c

/-- Elements in slots. Linked elements form chains of siblings below a parent or at the top;
the others are not placed yet. -/
structure Forest where
  slots : Array (Option Element) := #[]
  /-- Slots free for reuse, the one released last in front. -/
  vacant : List NodeId := []
  top : Children := {}
deriving DecidableEq, Repr

namespace Forest

def empty : Forest := {}

def size (f : Forest) : Nat :=
  f.slots.size - f.vacant.length

/-- Bounds the steps of a walk along links: one that takes more steps meets an element twice. -/
def steps (f : Forest) : Nat :=
  f.slots.size + 1

def element (f : Forest) (id : NodeId) : Except Fault Element :=
  match f.slots[id]? with
  | some (some e) => .ok e
  | _ => .error (.notLive id)

def update (f : Forest) (id : NodeId) (g : Element → Element) : Except Fault Forest :=
  match f.slots[id]? with
  | some (some e) => .ok { f with slots := f.slots.setIfInBounds id (some (g e)) }
  | _ => .error (.notLive id)

theorem element_eq_ok {f : Forest} {id : NodeId} {e : Element} :
    f.element id = .ok e ↔ f.slots[id]? = some (some e) := by
  unfold element
  split <;> simp_all

theorem update_eq_ok {f g : Forest} {id : NodeId} {h : Element → Element} :
    f.update id h = .ok g ↔ ∃ e, f.element id = .ok e ∧
      g = { f with slots := f.slots.setIfInBounds id (some (h e)) } := by
  unfold update element
  split <;> simp_all [eq_comm]

/-- The handle of a slot behind those that are there. -/
def slotFor (slots : Nat) : Except Fault NodeId :=
  if slots < handleCount then .ok slots else .error .storeFull

/-- Stores an element that is not linked, in the slot released last or in a new one. -/
def allocate (f : Forest) (schema : SchemaId) (content : Content) :
    Except Fault (Forest × NodeId) :=
  let e : Element := { schema, content }
  match f.vacant with
  | [] => do
    let id ← slotFor f.slots.size
    return ({ f with slots := f.slots.push (some e) }, id)
  | id :: rest =>
    .ok ({ f with slots := f.slots.setIfInBounds id (some e), vacant := rest }, id)

def schemaOf (f : Forest) (id : NodeId) : Except Fault SchemaId := do
  return (← f.element id).schema

def value? (f : Forest) (id : NodeId) : Except Fault (Option Value) := do
  return (← f.element id).value?

def children? (f : Forest) : Option NodeId → Except Fault (Option Children)
  | none => .ok (some f.top)
  | some p => do return (← f.element p).children?

def updateChildren (f : Forest) (parent : Option NodeId) (g : Children → Children) :
    Except Fault Forest :=
  match parent with
  | none => .ok { f with top := g f.top }
  | some p => do
    match (← f.element p).content with
    | .term _ => throw (.childlessParent p)
    | .inner c => f.update p fun e => { e with content := .inner (g c) }

def firstChild (f : Forest) (parent : Option NodeId) : Except Fault (Option NodeId) := do
  return (← f.children? parent).bind (·.first)

def lastChild (f : Forest) (parent : Option NodeId) : Except Fault (Option NodeId) := do
  return (← f.children? parent).bind (·.last)

def run? (f : Forest) (parent : Option NodeId) (schema : SchemaId) :
    Except Fault (Option Run) := do
  return (← f.children? parent).bind fun c => c.runs.get? schema

def runStart (f : Forest) (parent : Option NodeId) (schema : SchemaId) :
    Except Fault (Option NodeId) := do
  return (← f.run? parent schema).map (·.first)

def runEnd (f : Forest) (parent : Option NodeId) (schema : SchemaId) :
    Except Fault (Option NodeId) := do
  return (← f.run? parent schema).map (·.last)

def siblingsFrom (f : Forest) : Nat → Option NodeId → Except Fault (List NodeId)
  | _, none => .ok []
  | 0, some _ => .error .endless
  | fuel + 1, some id => do
    return id :: (← f.siblingsFrom fuel (← f.element id).next)

def children (f : Forest) (parent : Option NodeId) : Except Fault (List NodeId) := do
  f.siblingsFrom f.steps (← f.firstChild parent)

def instancesFrom (f : Forest) (schema : SchemaId) :
    Nat → Option NodeId → Except Fault (List NodeId)
  | _, none => .ok []
  | 0, some _ => .error .endless
  | fuel + 1, some id => do
    let e ← f.element id
    if e.schema = schema then
      return id :: (← f.instancesFrom schema fuel e.next)
    else
      return []

def groupFrom (f : Forest) (leader : NodeId) : Except Fault (List NodeId) := do
  f.instancesFrom (← f.schemaOf leader) f.steps (some leader)

end Forest

end InstanceTree
