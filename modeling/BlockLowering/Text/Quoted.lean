import BlockLowering.Text.Hex
import BlockLowering.Text.Shown

/-! Quoted text, as messages show it: in double quotes, with escapes for the quote, the
backslash, a few control characters by letter and everything else that is not shown by its
code point. Names stand in backticks. -/

namespace BlockLowering.Text

def quoteChar (c : Char) : String :=
  if c = '"' then "\\\""
  else if c = '\\' then "\\\\"
  else if c = '\n' then "\\n"
  else if c = '\r' then "\\r"
  else if c = '\t' then "\\t"
  else if c.toNat = 0 then "\\0"
  else if isShown c then c.toString
  else "\\u\x7b" ++ hex c.toNat ++ "\x7d"

def quote (s : String) : String := "\"" ++ String.join (s.toList.map quoteChar) ++ "\""

/-- A name in a message. -/
def ticked (name : String) : String := "`" ++ name ++ "`"

/-- The names that a message says were possible. -/
def choice : List String → String
  | [a, b] => "expected " ++ ticked a ++ " or " ++ ticked b
  | names => "expected one of " ++ ", ".intercalate (names.map ticked)

end BlockLowering.Text
