/-! Reports of failures: what was attempted, and the causes of the failure from the outside in. -/

namespace BlockLowering.CommandLine

structure Report where
  attempt : String
  causes : List String
  deriving Repr, DecidableEq

namespace Report

/-- A text whose first line starts with `first` and every further line with `further`. -/
def indented (first further text : String) : String :=
  first ++ ("\n" ++ further).intercalate (text.splitOn "\n")

def numbered (number : Nat) : List String → List String
  | [] => []
  | cause :: rest =>
    let first := "".pushn ' ' (5 - (toString number).length) ++ toString number ++ ": "
    indented first "       " cause :: numbered (number + 1) rest

/-- A single cause has no number. -/
def causeLines : List String → List String
  | [cause] => [indented "    " "    " cause]
  | causes => numbered 0 causes

def text (r : Report) : String :=
  "Error: " ++ r.attempt ++ "\n" ++
    (if r.causes.isEmpty then "" else
      "\nCaused by:\n" ++ String.join ((causeLines r.causes).map (· ++ "\n")))

end Report

end BlockLowering.CommandLine
