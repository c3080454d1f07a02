import InstanceTree.Json.Numeral

namespace InstanceTree

structure Options where
  /-- Whether the module that sorted indexes belong to is loaded from the start. -/
  yangModule : Bool := true
  /-- The largest number of index nodes of one group of siblings. -/
  indexLimit : Option Nat := none
deriving DecidableEq, Repr

namespace Options

inductive Field where
  | yangModule
  | indexLimit
deriving DecidableEq

def Field.named? (name : String) : Option Field :=
  if name = "yang_module" then some .yangModule
  else if name = "index_node_limit" then some .indexLimit
  else none

structure Given where
  yangModule : Option Bool := none
  indexLimit : Option (Option Nat) := none

def Given.has (g : Given) : Field → Bool
  | .yangModule => g.yangModule.isSome
  | .indexLimit => g.indexLimit.isSome

def Given.complete (g : Given) : Options :=
  let default : Options := {}
  ⟨g.yangModule.getD default.yangModule, g.indexLimit.getD default.indexLimit⟩

/-- The flaw of a value that is not of the kind asked for. A scalar is read to its end first,
so that its own flaw wins; of an array or an object only the opening bracket is seen. -/
def flawOf : List Char → TextFlaw
  | [] => .unfinished
  | c :: cs =>
    let readAs {α : Type} (x : Except TextFlaw α) : TextFlaw := match x with
      | .ok _ => .mistyped
      | .error flaw => flaw
    if c = 'n' then readAs (Scan.word ['u', 'l', 'l'] cs)
    else if c = 't' then readAs (Scan.word ['r', 'u', 'e'] cs)
    else if c = 'f' then readAs (Scan.word ['a', 'l', 's', 'e'] cs)
    else if c = '"' then readAs (Scan.string cs)
    else if c = '-' then readAs (Scan.numeral false cs)
    else if c.isDigit then readAs (Scan.numeral true (c :: cs))
    else if c = '[' ∨ c = '\x7b' then .mistyped
    else .malformed

def scanFlag : Scan Bool := fun cs => match Scan.skipBlanks cs with
  | 't' :: cs => do
    let ((), cs) ← Scan.word ['r', 'u', 'e'] cs
    return (true, cs)
  | 'f' :: cs => do
    let ((), cs) ← Scan.word ['a', 'l', 's', 'e'] cs
    return (false, cs)
  | cs => .error (flawOf cs)

def limitOf : Number → Except TextFlaw (Option Nat)
  | .natural n => .ok (some n.toNat)
  | _ => .error .mistyped

/-- Takes a limit: a natural number, or `null` for none. -/
def scanLimit : Scan (Option Nat) := fun cs => match Scan.skipBlanks cs with
  | 'n' :: cs => do
    let ((), cs) ← Scan.word ['u', 'l', 'l'] cs
    return (none, cs)
  | '-' :: cs => do
    let (n, cs) ← Scan.numeral false cs
    return (← limitOf n, cs)
  | c :: cs =>
    if c.isDigit then do
      let (n, cs) ← Scan.numeral true (c :: cs)
      return (← limitOf n, cs)
    else
      .error (flawOf (c :: cs))
  | [] => .error .unfinished

def scanField (g : Given) : Field → Scan Given
  | .yangModule, cs => do
    let (flag, cs) ← scanFlag cs
    return ({ g with yangModule := some flag }, cs)
  | .indexLimit, cs => do
    let (limit, cs) ← scanLimit cs
    return ({ g with indexLimit := some limit }, cs)

/-- Takes a member, after the quotation mark that opens its name. An unknown or repeated name
is refused before the rest of the member is read. -/
def scanMember (g : Given) : Scan Given := fun cs => do
  let (name, cs) ← Scan.string cs
  let some field := Field.named? name | throw .mistyped
  if g.has field then
    throw .mistyped
  match Scan.skipBlanks cs with
  | [] => throw .unfinished
  | ':' :: cs => scanField g field cs
  | _ => throw .malformed

def scanMembers : Nat → Bool → Given → Scan Given
  | 0, _, _, _ => .error .unfinished
  | fuel + 1, first, g, cs => match first, Scan.skipBlanks cs with
    | _, [] => .error .unfinished
    | _, '\x7d' :: cs => .ok (g, cs)
    | true, '"' :: cs => do
      let (g, cs) ← scanMember g cs
      scanMembers fuel false g cs
    | false, ',' :: cs => match Scan.skipBlanks cs with
      | [] => .error .unfinished
      | '"' :: cs => do
        let (g, cs) ← scanMember g cs
        scanMembers fuel false g cs
      | _ => .error .malformed
    | _, _ => .error .malformed

def scanItems : List Field → Bool → Given → Scan Given
  | [], _, g, cs => match Scan.skipBlanks cs with
    | [] => .error .unfinished
    | ']' :: cs => .ok (g, cs)
    | _ => .error .malformed
  | field :: fields, first, g, cs => match first, Scan.skipBlanks cs with
    | _, [] => .error .unfinished
    | _, ']' :: cs => .ok (g, cs)
    | true, cs => do
      let (g, cs) ← scanField g field cs
      scanItems fields false g cs
    | false, ',' :: cs => match Scan.skipBlanks cs with
      | [] => .error .unfinished
      | ']' :: _ => .error .malformed
      | cs => do
        let (g, cs) ← scanField g field cs
        scanItems fields false g cs
    | false, _ => .error .malformed

def scan : Scan Given := fun cs => match Scan.skipBlanks cs with
  | '\x7b' :: cs => scanMembers (cs.length + 1) true {} cs
  | '[' :: cs => scanItems [.yangModule, .indexLimit] true {} cs
  | cs => .error (flawOf cs)

/-- Reads options from left to right; the first flaw met decides. -/
def parse (text : String) : Except TextFlaw Options := do
  let (g, rest) ← scan text.toList
  if (Scan.skipBlanks rest).isEmpty then
    return g.complete
  throw .malformed

end Options

end InstanceTree
