import InstanceTree.Decimal.Shortest
import InstanceTree.Json.Basic

namespace InstanceTree

def Number.text : Number → String
  | .natural n => toString n.toNat
  | .negative n _ => toString n.toInt
  | .float bits => String.ofList (Decimal.floatText bits)

namespace Json

def controlEscape (c : Char) : List Char :=
  let hex := Nat.toDigits 16 c.toNat
  '\\' :: 'u' :: (List.replicate (4 - hex.length) '0' ++ hex)

def escape (c : Char) : List Char :=
  if c = '"' then ['\\', '"']
  else if c = '\\' then ['\\', '\\']
  else if c = '\x08' then ['\\', 'b']
  else if c = '\x0c' then ['\\', 'f']
  else if c = '\n' then ['\\', 'n']
  else if c = '\r' then ['\\', 'r']
  else if c = '\t' then ['\\', 't']
  else if c.toNat < 0x20 then controlEscape c
  else [c]

def stringText (s : String) : String :=
  "\"" ++ String.ofList (s.toList.flatMap escape) ++ "\""

mutual

def text : Json → String
  | .null => "null"
  | .bool true => "true"
  | .bool false => "false"
  | .num n => n.text
  | .str s => stringText s
  | .arr items => "[" ++ String.intercalate "," (itemTexts items) ++ "]"
  | .obj members => "\x7b" ++ String.intercalate "," (memberTexts members) ++ "\x7d"

def itemTexts : List Json → List String
  | [] => []
  | j :: rest => j.text :: itemTexts rest

def memberTexts : List (String × Json) → List String
  | [] => []
  | (name, j) :: rest => (stringText name ++ ":" ++ j.text) :: memberTexts rest

end

end Json

end InstanceTree
