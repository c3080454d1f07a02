import InstanceTree.Context.Options
import InstanceTree.Schema

namespace InstanceTree

/-- The module that sorted indexes belong to. -/
def yangModule : String :=
  "yang"

/-- What data trees are built against: loaded modules, a schema and options. -/
structure Context where
  options : Options
  modules : List String
  schema : Schema
deriving DecidableEq, Repr

namespace Context

def ofOptions (options : Options) : Context :=
  ⟨options, if options.yangModule then [yangModule] else [], .empty⟩

/-- Loads a module; one that is loaded already stays where it is. -/
def load (ctx : Context) (name : String) : Context :=
  if name ∈ ctx.modules then ctx else { ctx with modules := ctx.modules ++ [name] }

def module? (ctx : Context) (name : String) : Option String :=
  ctx.modules.find? (· = name)

def indexes (ctx : Context) : Bool :=
  ctx.modules.contains yangModule

end Context

end InstanceTree
