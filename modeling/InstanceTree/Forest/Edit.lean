import InstanceTree.Forest.Chain
import InstanceTree.Refusal

namespace InstanceTree

/-- A change to a forest, which may be refused. A refused change may have touched the forest;
what it has done up to then stays. -/
abbrev Edit := ExceptT Refusal (StateT Forest (Except Fault))

namespace Edit

def look {α : Type} (view : Forest → Except Fault α) : Edit α := do
  let f ← get
  view f

def change (g : Forest → Except Fault Forest) : Edit Unit := do
  set (← look g)

def refuse {α : Type} (why : Refusal) : Edit α :=
  throw why

def mismatch {α : Type} (why : SchemaMismatch) : Edit α :=
  refuse (.schemaMismatch why)

def invalid {α : Type} (why : InvalidValue) : Edit α :=
  refuse (.invalidValue why)

def fault {α : Type} (why : Fault) : Edit α :=
  look fun _ => .error why

def perform {α : Type} (op : Edit α) (f : Forest) : Except Fault (Except Refusal α × Forest) :=
  op.run.run f

end Edit

end InstanceTree
