import InstanceTree.RedBlack.Arena

namespace InstanceTree.RedBlack

namespace Arena

variable {α : Type}

def dumpBelow (a : Arena α) (render : α → String) :
    Nat → String → Option Nat → Except Fault String
  | _, _, none => .ok "∅"
  | 0, _, some _ => .error .endless
  | depth + 1, indent, some i => do
    let n ← a.node i
    let l ← a.dumpBelow render depth (indent ++ "  ") n.left
    let r ← a.dumpBelow render depth (indent ++ "  ") n.right
    let colour := if n.black then "black" else "red"
    return "Node[" ++ toString i ++ "] " ++ colour ++ " \x7b " ++ render n.elem ++ " \x7d\n" ++
      indent ++ "L=" ++ l ++ "\n" ++ indent ++ "R=" ++ r

def dump (a : Arena α) (render : α → String) (indent : String) (root : Option Nat) :
    Except Fault String :=
  a.dumpBelow render (a.size + 1) indent root

end Arena

end InstanceTree.RedBlack
