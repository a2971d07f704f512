import BlockLowering.Decimal.Shortest
import BlockLowering.Text.Quoted

/-! JSON documents as trees. Members keep their order and may repeat. A tree that was read from
text also records where the text stops being JSON, so that a decoder can report whichever fault
comes first in the text, be it one of form or one of content.

Reading a value completely faults at the first flaw of its text, at a token without value, or
where more than the given number of levels are open. -/

namespace BlockLowering

open Decimal (Binary64)

/-- What can be wrong with the form of a JSON text. -/
inductive SyntaxFault where
  | endOfList
  | endOfObject
  | endOfText
  | endOfValue
  | colonExpected
  | listSeparatorExpected
  | objectSeparatorExpected
  | wordExpected
  | valueExpected
  | badEscape
  | badNumber
  | numberTooLarge
  | controlCharacter
  | keyNotText
  | loneSurrogate
  | trailingComma
  | trailingText
  | unpairedEscape
  | tooDeep
  deriving Repr, DecidableEq, Inhabited

def SyntaxFault.message : SyntaxFault → String
  | endOfList => "EOF while parsing a list"
  | endOfObject => "EOF while parsing an object"
  | endOfText => "EOF while parsing a string"
  | endOfValue => "EOF while parsing a value"
  | colonExpected => "expected `:`"
  | listSeparatorExpected => "expected `,` or `]`"
  | objectSeparatorExpected => "expected `,` or `\x7d`"
  | wordExpected => "expected ident"
  | valueExpected => "expected value"
  | badEscape => "invalid escape"
  | badNumber => "invalid number"
  | numberTooLarge => "number out of range"
  | controlCharacter => "control character (\\u0000-\\u001F) found while parsing a string"
  | keyNotText => "key must be a string"
  | loneSurrogate => "lone leading surrogate in hex escape"
  | trailingComma => "trailing comma"
  | trailingText => "trailing characters"
  | unpairedEscape => "unexpected end of hex escape"
  | tooDeep => "recursion limit exceeded"

/-- A number as a JSON text gives it: a 64-bit integer, signed if it is negative, or else a
floating-point number. -/
inductive Number where
  | int (value : Int)
  | float (negative : Bool) (magnitude : Binary64)
  deriving Repr, DecidableEq, Inhabited

/-- What stands at a place, as messages name it. -/
inductive Found where
  | null
  | bool (value : Bool)
  | number (value : Number)
  | text (value : String)
  | sequence
  | map
  deriving Repr, DecidableEq, Inhabited

def Found.describe : Found → String
  | null => "null"
  | bool b => "boolean `" ++ toString b ++ "`"
  | number (.int n) => "integer `" ++ toString n ++ "`"
  | number (.float negative x) =>
    "floating point `" ++ (if negative then "-" else "") ++ Decimal.scientific x ++ "`"
  | text s => "string " ++ Text.quote s
  | sequence => "sequence"
  | map => "map"

/-- A number or text whose extent is clear. It has no value if it is out of range, or if half of
a surrogate pair is missing; it may be skipped all the same. -/
abbrev Token (α : Type) := Except SyntaxFault α

/-- The place where a text stops being JSON. What is wrong there depends on whether the value is
wanted or skipped. -/
structure Flaw where
  wanted : SyntaxFault
  skipped : SyntaxFault
  deriving Repr, DecidableEq, Inhabited

/-- A flaw that looks the same to both. -/
def Flaw.plain (f : SyntaxFault) : Flaw := ⟨f, f⟩

/-- How the items of a list or the members of an object end. -/
inductive Stop where
  | closed
  | broken (flaw : Flaw)
  deriving Inhabited

inductive Json where
  | null
  | bool (value : Bool)
  | number (value : Token Number)
  | text (value : Token String)
  | list (items : List Json) (stop : Stop)
  | object (members : List (Token String × Json)) (stop : Stop)
  /-- The text stops being JSON where a value should stand. -/
  | fault (flaw : Flaw)
  deriving Inhabited

namespace Json

def ofInt (n : Int) : Json := number (.ok (.int n))

def ofString (s : String) : Json := text (.ok s)

def ofList (items : List Json) : Json := list items .closed

def ofMembers (members : List (String × Json)) : Json :=
  object (members.map fun m => (.ok m.1, m.2)) .closed

/-- What stands here, unless that is itself a fault of form. -/
def found : Json → Except SyntaxFault Found
  | null => .ok .null
  | bool b => .ok (.bool b)
  | number n => n.map .number
  | text s => s.map .text
  | list .. => .ok .sequence
  | object .. => .ok .map
  | fault f => .error f.wanted

end Json

def Stop.check : Stop → Except SyntaxFault Unit
  | .closed => .ok ()
  | .broken f => .error f.wanted

def Stop.skip : Stop → Except SyntaxFault Unit
  | .closed => .ok ()
  | .broken f => .error f.skipped

namespace Json

mutual

def whole (levels : Nat) : Json → Except SyntaxFault Unit
  | null => .ok ()
  | bool _ => .ok ()
  | number (.ok _) => .ok ()
  | number (.error f) => .error f
  | text (.ok _) => .ok ()
  | text (.error f) => .error f
  | list items stop =>
    match levels with
    | 0 => .error .tooDeep
    | n + 1 => do
      wholeItems n items
      stop.check
  | object members stop =>
    match levels with
    | 0 => .error .tooDeep
    | n + 1 => do
      wholeMembers n members
      stop.check
  | fault f => .error f.wanted

def wholeItems (levels : Nat) : List Json → Except SyntaxFault Unit
  | [] => .ok ()
  | item :: rest => do
    whole levels item
    wholeItems levels rest

def wholeMembers (levels : Nat) : List (Token String × Json) → Except SyntaxFault Unit
  | [] => .ok ()
  | (.error f, _) :: _ => .error f
  | (.ok _, value) :: rest => do
    whole levels value
    wholeMembers levels rest

end

mutual

def skip : Json → Except SyntaxFault Unit
  | null => .ok ()
  | bool _ => .ok ()
  | number _ => .ok ()
  | text _ => .ok ()
  | list items stop => do
    skipItems items
    stop.skip
  | object members stop => do
    skipMembers members
    stop.skip
  | fault f => .error f.skipped

def skipItems : List Json → Except SyntaxFault Unit
  | [] => .ok ()
  | item :: rest => do
    skip item
    skipItems rest

def skipMembers : List (Token String × Json) → Except SyntaxFault Unit
  | [] => .ok ()
  | (_, value) :: rest => do
    skip value
    skipMembers rest

end

end Json

end BlockLowering
