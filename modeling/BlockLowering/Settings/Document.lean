import BlockLowering.Settings
import BlockLowering.Toml.Reader

/-! Settings written as a TOML document. Every setting may be left out, and there are no others. -/

namespace BlockLowering

namespace Settings

/-- What can be wrong with a document. -/
inductive Mistake where
  | malformed
  | unknownKey (key : String)
  | wrongType (found : Toml.Value) (expected : String)

structure DocumentFault where
  line : Nat
  mistake : Mistake

def keys : List String :=
  ["assert_not_none", "index_out_of_bounds", "init_method", "mangle_separator", "validate"]

def Mistake.message : Mistake → String
  | malformed => "not a TOML document"
  | unknownKey key => "unknown field " ++ Text.ticked key ++ ", " ++ Text.choice keys
  | wrongType found expected => "invalid type: " ++ found.describe ++ ", expected " ++ expected

def DocumentFault.message (f : DocumentFault) : String :=
  "TOML parse error at line " ++ toString f.line ++ ": " ++ f.mistake.message

def textOf : Toml.Value → Except Mistake String
  | .text s => .ok s
  | v => .error (.wrongType v "a string")

def boolOf : Toml.Value → Except Mistake Bool
  | .bool b => .ok b
  | v => .error (.wrongType v "a boolean")

/-- The settings with one of them changed. -/
def set (s : Settings) (key : String) (value : Toml.Value) : Except Mistake Settings :=
  match key with
  | "assert_not_none" => (textOf value).map fun v => { s with notNoneHelper := v }
  | "index_out_of_bounds" => (textOf value).map fun v => { s with boundsHelper := v }
  | "init_method" => (textOf value).map fun v => { s with initMethod := v }
  | "mangle_separator" => (textOf value).map fun v => { s with separator := v }
  | "validate" => (boolOf value).map fun v => { s with validate := v }
  | _ => .error (.unknownKey key)

/-- The settings with those of a document changed; the first mistake counts. -/
def setAll (document : Toml.Document) (s : Settings) : Toml.Entries → Except DocumentFault Settings
  | [] => .ok s
  | (key, value) :: rest =>
    match s.set key value with
    | .ok s => setAll document s rest
    | .error m => .error ⟨document.lineOf key, m⟩

def decode (text : String) : Except DocumentFault Settings :=
  match Toml.read text with
  | .ok document => setAll document {} document.entries
  | .error line => .error ⟨line, .malformed⟩

end Settings

end BlockLowering
