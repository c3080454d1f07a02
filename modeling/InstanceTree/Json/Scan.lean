import InstanceTree.Decimal.Digits
import InstanceTree.Json.Basic

namespace InstanceTree

/-- Why a text cannot be read: it ends too early, it is not well-formed up to the point where
reading stopped, or it is a document of another shape than asked for. -/
inductive TextFlaw where
  | unfinished
  | malformed
  | mistyped
deriving DecidableEq, Repr

/-- A reader takes what it needs from the front of a text and leaves the rest. -/
abbrev Scan (α : Type) := List Char → Except TextFlaw (α × List Char)

namespace Scan

def isBlank (c : Char) : Bool :=
  c = ' ' || c = '\n' || c = '\t' || c = '\r'

def skipBlanks (cs : List Char) : List Char :=
  cs.dropWhile isBlank

def word : List Char → Scan Unit
  | [], cs => .ok ((), cs)
  | _ :: _, [] => .error .unfinished
  | w :: ws, c :: cs => if c = w then word ws cs else .error .malformed

def hexDigit? (c : Char) : Option Nat :=
  if '0' ≤ c ∧ c ≤ '9' then some (c.toNat - '0'.toNat)
  else if 'a' ≤ c ∧ c ≤ 'f' then some (c.toNat - 'a'.toNat + 10)
  else if 'A' ≤ c ∧ c ≤ 'F' then some (c.toNat - 'A'.toNat + 10)
  else none

def byteCount (cs : List Char) : Nat :=
  cs.foldl (fun count c => count + c.utf8Size) 0

/-- Takes four hexadecimal digits. A text of fewer than four bytes ends too early, whatever
its characters are. -/
def hexQuad (cs : List Char) : Except TextFlaw (Nat × List Char) :=
  if byteCount cs < 4 then
    .error .unfinished
  else match (cs.take 4).mapM hexDigit? with
    | some [a, b, c, d] => .ok (((a * 16 + b) * 16 + c) * 16 + d, cs.drop 4)
    | _ => .error .malformed

def isHighSurrogate (n : Nat) : Bool :=
  0xD800 ≤ n && n < 0xDC00

def isLowSurrogate (n : Nat) : Bool :=
  0xDC00 ≤ n && n < 0xE000

/-- Takes the rest of a character given by its number, after the introducing letter. -/
def numberedChar : Scan Char := fun cs => do
  let (n, cs) ← hexQuad cs
  if isLowSurrogate n then
    throw .malformed
  unless isHighSurrogate n do
    return (Char.ofNat n, cs)
  let ((), cs) ← word ['\\', 'u'] cs
  let (m, cs) ← hexQuad cs
  unless isLowSurrogate m do
    throw .malformed
  return (Char.ofNat (0x10000 + (n - 0xD800) * 0x400 + (m - 0xDC00)), cs)

def escapedChar : Scan Char
  | [] => .error .unfinished
  | c :: cs => match c with
    | '"' => .ok ('"', cs)
    | '\\' => .ok ('\\', cs)
    | '/' => .ok ('/', cs)
    | 'b' => .ok ('\x08', cs)
    | 'f' => .ok ('\x0c', cs)
    | 'n' => .ok ('\n', cs)
    | 'r' => .ok ('\r', cs)
    | 't' => .ok ('\t', cs)
    | 'u' => numberedChar cs
    | _ => .error .malformed

/-- Takes the rest of a string, after the opening quotation mark; each character takes at least
one step. -/
def stringBody : Nat → Scan (List Char)
  | _, [] => .error .unfinished
  | 0, _ :: _ => .error .unfinished
  | fuel + 1, c :: cs =>
    if c = '"' then
      .ok ([], cs)
    else if c = '\\' then do
      let (e, cs) ← escapedChar cs
      let (body, cs) ← stringBody fuel cs
      return (e :: body, cs)
    else if c.toNat < 0x20 then
      .error .malformed
    else do
      let (body, cs) ← stringBody fuel cs
      return (c :: body, cs)

def string : Scan String := fun cs => do
  let (body, cs) ← stringBody cs.length cs
  return (String.ofList body, cs)

end Scan

end InstanceTree
