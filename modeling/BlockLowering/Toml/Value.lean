import BlockLowering.Decimal.Shortest
import BlockLowering.Text.Quoted

/-! Values of TOML documents. -/

namespace BlockLowering.Toml

inductive Float where
  | finite (negative : Bool) (magnitude : Decimal.Binary64)
  | infinite (negative : Bool)
  | notANumber
  deriving Repr, DecidableEq

/-- How a table came about, which decides how it may still grow. -/
inductive Origin where
  /-- Opened by its own header, or the whole document. -/
  | header
  /-- Made on the way to the table of a header. -/
  | passed
  /-- Made on the way to the value of a dotted key. -/
  | dotted
  /-- Written as a value. -/
  | inline
  deriving Repr, DecidableEq

inductive Value where
  | text (value : String)
  | integer (value : Int)
  | float (value : Float)
  | bool (value : Bool)
  /-- A date or a time, which is recognised and not kept. -/
  | moment
  | list (items : List Value)
  | table (origin : Origin) (entries : List (String × Value))
  /-- The tables that headers in double brackets opened; the last one may still grow. -/
  | tables (tables : List (List (String × Value)))
  deriving Repr, Inhabited

abbrev Entries := List (String × Value)

/-- The text of a floating-point number always has a point in it. -/
def Float.text : Float → String
  | finite negative x =>
    let digits := Decimal.positional x
    (if negative then "-" else "") ++ digits ++ (if digits.contains '.' then "" else ".0")
  | infinite negative => if negative then "-inf" else "inf"
  | notANumber => "NaN"

/-- What a message says was found. -/
def Value.describe : Value → String
  | text s => "string " ++ Text.quote s
  | integer n => "integer `" ++ toString n ++ "`"
  | float x => "floating point `" ++ x.text ++ "`"
  | bool b => "boolean `" ++ toString b ++ "`"
  | moment => "map"
  | list _ => "sequence"
  | table .. => "map"
  | tables _ => "sequence"

end BlockLowering.Toml
