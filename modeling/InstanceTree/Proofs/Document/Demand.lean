import InstanceTree.Json.Reader
import InstanceTree.Proofs.SchemaChildren

namespace InstanceTree

/-- How many elements are stored for a member of an object, `below` an element or at the top, when
none of them is read from a document inside it. -/
def SchemaNode.demand (node : SchemaNode) (below : Bool) (j : Json) : Nat :=
  match node.kind with
  | .leaf _ => if node.isKey ∧ below then 0 else 1
  | .leafList _ => match j with
    | .arr items => items.length
    | _ => 0
  | .container => 1
  | .list _ => 0

namespace Schema

mutual

def memberDemand (s : Schema) (below : Bool) (t : SchemaId) (node : SchemaNode) : Json → Nat
  | .obj members => match node.kind with
    | .container => 1 + membersDemand s (some t) members
    | _ => node.demand below (.obj members)
  | .arr items => match node.kind with
    | .list keys => entriesDemand s t keys items
    | _ => node.demand below (.arr items)
  | j => node.demand below j

def entriesDemand (s : Schema) (t : SchemaId) (keys : List SchemaId) : List Json → Nat
  | [] => 0
  | .obj fields :: rest =>
    1 + keys.length + (membersDemand s (some t) fields + entriesDemand s t keys rest)
  | _ :: _ => 0

def membersDemand (s : Schema) (t : Option SchemaId) : List (String × Json) → Nat
  | [] => 0
  | (name, j) :: rest => match s.named t name with
    | none => 0
    | some c => (s.nodes[c]?).elim 0 (memberDemand s t.isSome c · j) + membersDemand s t rest

end

/-- How many elements the import of a document stores, below an instance of `t` or at the top, if
it is not refused. -/
def demand (s : Schema) (t : Option SchemaId) : Json → Nat
  | .obj members => s.membersDemand t members
  | _ => 0

variable {s : Schema} {t : Option SchemaId} {c : SchemaId} {node : SchemaNode} {name : String}

theorem membersDemand_cons (hc : s.named t name = some c) (hnode : s.nodes[c]? = some node)
    (j : Json) (rest : List (String × Json)) : s.membersDemand t ((name, j) :: rest) =
      s.memberDemand t.isSome c node j + s.membersDemand t rest := by
  simp only [membersDemand, hc, hnode, Option.elim_some]

end Schema

end InstanceTree
