/-! Lines of text. A line ends at a line feed, and one carriage return right before that line
feed belongs to the ending. -/

namespace BlockLowering.Text

/-- The characters of a line once its line feed is gone. -/
def dropReturn (cs : List Char) : List Char :=
  if cs.getLast? = some '\r' then cs.dropLast else cs

/-- Splits `cs`, where `line` holds the line read so far, last character first. Text after the
last line feed is a line only if there is some. -/
def splitLines (line : List Char) : List Char → List (List Char)
  | [] => if line.isEmpty then [] else [line.reverse]
  | c :: cs =>
    if c = '\n' then dropReturn line.reverse :: splitLines [] cs else splitLines (c :: line) cs

def lines (s : String) : List String := (splitLines [] s.toList).map String.ofList

/-- Every row followed by a line feed. -/
def unlines (rows : List String) : String := String.join (rows.map (· ++ "\n"))

end BlockLowering.Text
