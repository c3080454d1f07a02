import InstanceTree.Group.Leader

namespace InstanceTree.Forest

/-- The index of a group, which is taken out of its anchor, and whether it had to be built. -/
def obtainIndex (ctx : Context) (kind : SortKind) (leader : NodeId) : Edit (Index × Bool) := do
  match ← Edit.look (index? · leader) with
  | some index =>
    Edit.change (setIndex · leader none)
    return (index, false)
  | none =>
    match ← Edit.look fun f => Index.ofGroup? ctx f kind leader with
    | some index => return (index, true)
    | none => Edit.refuse .indexFull

/-- Links `e` into the group that starts with `leader`, behind the member that the index places
it after, or in front of all. Gives the first member of the group afterwards. -/
def placeIndexed (leader e : NodeId) (index : Index) (node : Nat) : Edit NodeId := do
  match ← Edit.look fun _ => index.predecessor? node with
  | some prev =>
    Edit.change (spliceAfter · prev e)
    Edit.change (setIndex · leader (some index))
    return leader
  | none =>
    Edit.change (spliceBefore · leader e)
    Edit.change (handOver · leader e)
    Edit.change (setIndex · e (some index))
    return e

/-- Links `e` into the sorted group that starts with `leader` through the index of the group,
which is built if there is none. Gives the first member of the group afterwards. If this is
refused, nothing is linked and an index that was there before stays. -/
def insertSorted (ctx : Context) (leader e : NodeId) : Edit NodeId := do
  if (← Edit.look (element · e)).linked then
    Edit.fault (.alreadyLinked e)
  if (← Edit.look (schemaOf · leader)) ≠ (← Edit.look (schemaOf · e)) then
    Edit.fault .foreignInstance
  let node ← Edit.look (schemaNode ctx · e)
  let some kind := node.sortKind? | Edit.fault (.notSystemOrdered node.name)
  Edit.change (clearStale · e)
  ensureAnchor ctx leader
  let (index, fresh) ← obtainIndex ctx kind leader
  match ← Edit.look fun f => index.insert? ctx f e with
  | some (index, node) => placeIndexed leader e index node
  | none =>
    unless fresh do
      Edit.change (setIndex · leader (some index))
    Edit.refuse .indexFull

def secondMember? (f : Forest) (leader : NodeId) : Except Fault (Option NodeId) := do
  let e ← f.element leader
  match e.next with
  | none => return none
  | some second => return if (← f.schemaOf second) = e.schema then some second else none

/-- Takes `e` out of the index of the group that starts with `leader`, and the index away from
a group that has one member left. If `e` is the first member, its anchor passes to the
second. Gives the first member of the group without `e`, which still stands in its chain. -/
def removeSorted (ctx : Context) (f : Forest) (leader e : NodeId) :
    Except Fault (Forest × NodeId) := do
  if (← f.anchor? leader).isNone then
    return (f, leader)
  let some second ← f.secondMember? leader | return (f, leader)
  let index ← f.index? leader
  let f ← f.setIndex leader none
  let f ← if leader = e then f.handOver e second else pure f
  let leader := if leader = e then second else leader
  let some index := index | return (f, leader)
  let index ← index.remove ctx f e
  if index.count ≤ 1 then
    let _ ← index.drain
    return (← f.setIndex leader none, leader)
  else
    return (← f.setIndex leader (some index), leader)

end InstanceTree.Forest
