import InstanceTree.Json.Numeral

namespace InstanceTree.Json

mutual

/-- Takes a document; every level of nesting and every item takes a step. -/
def scan : Nat → Scan Json
  | 0, _ => .error .unfinished
  | fuel + 1, cs => match Scan.skipBlanks cs with
    | [] => .error .unfinished
    | 'n' :: cs => do
      let ((), cs) ← Scan.word ['u', 'l', 'l'] cs
      return (.null, cs)
    | 't' :: cs => do
      let ((), cs) ← Scan.word ['r', 'u', 'e'] cs
      return (.bool true, cs)
    | 'f' :: cs => do
      let ((), cs) ← Scan.word ['a', 'l', 's', 'e'] cs
      return (.bool false, cs)
    | '"' :: cs => do
      let (s, cs) ← Scan.string cs
      return (.str s, cs)
    | '-' :: cs => do
      let (n, cs) ← Scan.numeral false cs
      return (.num n, cs)
    | '[' :: cs => match Scan.skipBlanks cs with
      | ']' :: cs => .ok (.arr [], cs)
      | cs => do
        let (items, cs) ← scanItems fuel cs
        return (.arr items, cs)
    | '\x7b' :: cs => match Scan.skipBlanks cs with
      | '\x7d' :: cs => .ok (.obj [], cs)
      | cs => do
        let (members, cs) ← scanMembers fuel [] cs
        return (.obj members, cs)
    | c :: cs =>
      if c.isDigit then do
        let (n, cs) ← Scan.numeral true (c :: cs)
        return (.num n, cs)
      else
        .error .malformed

def scanItems : Nat → Scan (List Json)
  | 0, _ => .error .unfinished
  | fuel + 1, cs => do
    let (item, cs) ← scan fuel cs
    match Scan.skipBlanks cs with
    | [] => throw .unfinished
    | ']' :: cs => return ([item], cs)
    | ',' :: cs =>
      let (items, cs) ← scanItems fuel cs
      return (item :: items, cs)
    | _ => throw .malformed

/-- Takes the members of an object and its closing bracket: a later member replaces an earlier
one of its name, in the place of the earlier one. -/
def scanMembers : Nat → Members → Scan Members
  | 0, _, _ => .error .unfinished
  | fuel + 1, seen, cs => match Scan.skipBlanks cs with
    | [] => .error .unfinished
    | '"' :: cs => do
      let (name, cs) ← Scan.string cs
      match Scan.skipBlanks cs with
      | [] => throw .unfinished
      | ':' :: cs =>
        let (v, cs) ← scan fuel cs
        match Scan.skipBlanks cs with
        | [] => throw .unfinished
        | '\x7d' :: cs => return (seen.set name v, cs)
        | ',' :: cs => scanMembers fuel (seen.set name v) cs
        | _ => throw .malformed
      | _ => throw .malformed
    | _ => .error .malformed

end

def parse (text : String) : Except TextFlaw Json := do
  let cs := text.toList
  let (j, rest) ← scan (2 * cs.length + 1) cs
  if (Scan.skipBlanks rest).isEmpty then
    return j
  throw .malformed

end InstanceTree.Json
