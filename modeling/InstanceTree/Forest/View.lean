import InstanceTree.Forest.Basic

namespace InstanceTree

inductive Branch where
  | node (id : NodeId) (below : List Branch)

namespace Forest

def branchesBelow (f : Forest) : Nat → Option NodeId → Except Fault (List Branch)
  | 0, _ => .error .endless
  | depth + 1, parent => do
    (← f.children parent).mapM fun n => do
      return .node n (← f.branchesBelow depth (some n))

def branches (f : Forest) (parent : Option NodeId) : Except Fault (List Branch) :=
  f.branchesBelow f.steps parent

end Forest

end InstanceTree
