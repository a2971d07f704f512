import BlockLowering.Text.Hex

/-! The log of a lowering run. Every event tells what happened and inside which function or class.
Messages are shown without the characters that would command a terminal. -/

namespace BlockLowering

inductive Level where
  | trace
  | debug
  | info
  deriving Repr, DecidableEq

def Level.text : Level → String
  | trace => "TRACE"
  | debug => "DEBUG"
  | info => "INFO"

/-- How much a level tells: the more, the greater. -/
def Level.detail : Level → Nat
  | info => 1
  | debug => 2
  | trace => 3

inductive Span where
  | function (name : String)
  | inClass (name : String)
  deriving Repr, DecidableEq

namespace Span

def label : Span → String
  | function _ => "lower_function"
  | inClass _ => "lower_class"

/-- What the span is about. -/
def subject : Span → String
  | function name => "function=" ++ name
  | inClass name => "class=" ++ name

def text (s : Span) : String := s.label ++ " " ++ s.subject

end Span

inductive Happening where
  | freshName (name : String)
  /-- A block was opened; `opened` counts the blocks of the body opened so far, without the first. -/
  | openBlock (label : String) (opened : Nat)
  | loweredFunction (blocks temporaries : Nat)
  | loweredProgram (functions classes blocks : Nat)
  | loweredFile (path : String) (functions classes blocks : Nat)
  deriving Repr, DecidableEq

namespace Happening

def level : Happening → Level
  | freshName _ => .trace
  | openBlock .. => .trace
  | loweredFunction .. => .debug
  | loweredProgram .. => .debug
  | loweredFile .. => .info

def message : Happening → String
  | freshName _ => "fresh name"
  | openBlock .. => "open block"
  | loweredFunction .. => "lowered function"
  | loweredProgram .. => "lowered program"
  | loweredFile path .. => "lowered " ++ path

def fields : Happening → List (String × String)
  | freshName name => [("name", name)]
  | openBlock label opened => [("label", label), ("opened", toString opened)]
  | loweredFunction blocks temporaries =>
    [("blocks", toString blocks), ("temporaries", toString temporaries)]
  | loweredProgram functions classes blocks | loweredFile _ functions classes blocks =>
    [("functions", toString functions), ("classes", toString classes),
      ("blocks", toString blocks)]

end Happening

/-- What happened, and the spans it happened in, outermost first. -/
structure Event where
  spans : List Span
  happening : Happening
  deriving Repr, DecidableEq

/-- A character of a message. The control characters that begin or end commands of a terminal, or
move its cursor back, are spelled out; line ends and the other ones stay. -/
def inertChar (c : Char) : String :=
  let n := c.toNat
  if n = 0x07 ∨ n = 0x08 ∨ n = 0x0c then "\\x0" ++ Text.hex n
  else if n = 0x1b ∨ n = 0x7f then "\\x" ++ Text.hex n
  else if 0x80 ≤ n ∧ n ≤ 0x9f then "\\u\x7b" ++ Text.hex n ++ "\x7d"
  else c.toString

def inert (message : String) : String := String.join (message.toList.map inertChar)

/-- One line of a log. -/
def Event.line (e : Event) : String :=
  let spans := ":".intercalate (e.spans.map fun s => s.label ++ "\x7b" ++ s.subject ++ "\x7d")
  let fields := e.happening.fields.map fun (name, value) => " " ++ name ++ "=" ++ value
  e.happening.level.text ++ " " ++ (if e.spans.isEmpty then "" else spans ++ ": ") ++
    inert e.happening.message ++ String.join fields

end BlockLowering
