import InstanceTree.Forest.Basic

namespace InstanceTree

namespace Children

/-- Notes that `n`, an instance of `schema`, has been linked between `prev` and `next`, as the
first or the last one of its run if `starts` or `ends` holds. -/
def enter (c : Children) (n : NodeId) (schema : SchemaId) (prev next : Option NodeId)
    (starts ends : Bool) : Children :=
  let run := (c.runs.get? schema).getD ⟨n, n⟩
  { first := if prev.isNone then some n else c.first
    last := if next.isNone then some n else c.last
    runs := c.runs.set schema
      ⟨if starts then n else run.first, if ends then n else run.last⟩ }

/-- The runs after `n`, an instance of `schema` between `prev` and `next`, has left. A run is
contiguous, so a neighbour of `n` takes its place at the end of a run. -/
def runsWithout (runs : Runs) (n : NodeId) (schema : SchemaId) (prev next : Option NodeId) :
    Runs :=
  match runs.get? schema with
  | none => runs
  | some run =>
    if run.first = n ∧ run.last = n then
      runs.erase schema
    else
      runs.set schema
        ⟨if run.first = n then next.getD n else run.first,
          if run.last = n then prev.getD n else run.last⟩

def leave (c : Children) (n : NodeId) (schema : SchemaId) (prev next : Option NodeId) :
    Children :=
  { first := if prev.isNone then next else c.first
    last := if next.isNone then prev else c.last
    runs := runsWithout c.runs n schema prev next }

end Children

namespace Forest

/-- Whether a neighbour is missing or an instance of another schema node. -/
def bounds (f : Forest) (schema : SchemaId) : Option NodeId → Except Fault Bool
  | none => .ok true
  | some id => do return (← f.schemaOf id) ≠ schema

def enroll (f : Forest) (n : NodeId) : Except Fault Forest := do
  let e ← f.element n
  let starts ← f.bounds e.schema e.prev
  let ends ← f.bounds e.schema e.next
  f.updateChildren e.parent fun c => c.enter n e.schema e.prev e.next starts ends

def updateLinked (f : Forest) (link : Option NodeId) (g : Element → Element) :
    Except Fault Forest :=
  match link with
  | none => .ok f
  | some id => f.update id g

def spliceAfter (f : Forest) (pivot n : NodeId) : Except Fault Forest := do
  let p ← f.element pivot
  let f ← f.updateLinked p.next fun e => { e with prev := some n }
  let f ← f.update pivot fun e => { e with next := some n }
  let f ← f.update n fun e =>
    { e with parent := p.parent, prev := some pivot, next := p.next, linked := true }
  f.enroll n

def spliceBefore (f : Forest) (pivot n : NodeId) : Except Fault Forest := do
  let p ← f.element pivot
  let f ← f.updateLinked p.prev fun e => { e with next := some n }
  let f ← f.update pivot fun e => { e with prev := some n }
  let f ← f.update n fun e =>
    { e with parent := p.parent, prev := p.prev, next := some pivot, linked := true }
  f.enroll n

def spliceLast (f : Forest) (parent : Option NodeId) (n : NodeId) : Except Fault Forest := do
  match ← f.lastChild parent with
  | some last => f.spliceAfter last n
  | none =>
    let f ← f.update n fun e => { e with parent := parent, linked := true }
    f.enroll n

def takeOut (f : Forest) (n : NodeId) : Except Fault Forest := do
  let e ← f.element n
  let f ← f.updateLinked e.prev fun p => { p with next := e.next }
  let f ← f.updateLinked e.next fun x => { x with prev := e.prev }
  let f ← f.updateChildren e.parent fun c => c.leave n e.schema e.prev e.next
  f.update n fun e => { e with parent := none, prev := none, next := none, linked := false }

mutual

/-- Frees the slot of an element and drops its anchor, then frees its children in order, each
with all below it. -/
def releaseBelow : Nat → Forest → NodeId → Except Fault Forest
  | 0, _, _ => .error .endless
  | fuel + 1, f, n => do
    let e ← f.element n
    let f := { f with slots := f.slots.setIfInBounds n none, vacant := n :: f.vacant }
    dropAnchor e.anchor
    match e.content with
    | .term _ => return f
    | .inner c => releaseChain fuel f c.first

def releaseChain : Nat → Forest → Option NodeId → Except Fault Forest
  | _, f, none => .ok f
  | 0, _, some _ => .error .endless
  | fuel + 1, f, some n => do
    let next := (← f.element n).next
    let f ← releaseBelow fuel f n
    releaseChain fuel f next

end

/-- Frees the slots of an element and of all below it. Every slot is freed once, which takes
a step of each kind at most. -/
def release (f : Forest) (n : NodeId) : Except Fault Forest :=
  releaseBelow (2 * f.steps) f n

end Forest

end InstanceTree
