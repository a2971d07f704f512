import BlockLowering.Json.Tree

/-! JSON text with one item or member to a line, indented by two columns a level. Control
characters, quotes and backslashes are escaped; all other characters stand for themselves. A tree
with a fault in it prints nothing in that place. -/

namespace BlockLowering

namespace Json

/-- Two hexadecimal digits. -/
def hexPair (n : Nat) : String := if n < 16 then "0" ++ Text.hex n else Text.hex n

def escapeChar (c : Char) : String :=
  if c = '"' then "\\\""
  else if c = '\\' then "\\\\"
  else if c = '\n' then "\\n"
  else if c = '\r' then "\\r"
  else if c = '\t' then "\\t"
  else if c = '\x08' then "\\b"
  else if c = '\x0c' then "\\f"
  else if c.toNat < 0x20 then "\\u00" ++ hexPair c.toNat
  else c.toString

def escape (s : String) : String := "\"" ++ String.join (s.toList.map escapeChar) ++ "\""

def printNumber : Number → String
  | .int n => toString n
  | .float negative x => (if negative then "-" else "") ++ Decimal.scientific x

def printToken {α : Type} (print : α → String) : Token α → String
  | .ok a => print a
  | .error _ => ""

/-- A line break and the indentation of a level. -/
def newline (level : Nat) : String := "\n" ++ String.ofList (List.replicate (2 * level) ' ')

mutual

def print (level : Nat) : Json → String
  | null => "null"
  | bool b => toString b
  | number n => printToken printNumber n
  | text s => printToken escape s
  | list [] _ => "[]"
  | list (item :: items) _ =>
    "[" ++ newline (level + 1) ++ print (level + 1) item ++ printItems (level + 1) items ++
      newline level ++ "]"
  | object [] _ => "\x7b\x7d"
  | object ((key, value) :: members) _ =>
    "\x7b" ++ newline (level + 1) ++ printToken escape key ++ ": " ++ print (level + 1) value ++
      printMembers (level + 1) members ++ newline level ++ "\x7d"
  | fault _ => ""

def printItems (level : Nat) : List Json → String
  | [] => ""
  | item :: items => "," ++ newline level ++ print level item ++ printItems level items

def printMembers (level : Nat) : List (Token String × Json) → String
  | [] => ""
  | (key, value) :: members =>
    "," ++ newline level ++ printToken escape key ++ ": " ++ print level value ++
      printMembers level members

end

/-- The text of a whole document. -/
def pretty (j : Json) : String := print 0 j

end Json

end BlockLowering
