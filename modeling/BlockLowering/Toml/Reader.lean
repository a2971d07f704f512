import BlockLowering.Toml.Table

/-! Reading TOML text. A reader takes the characters that are left and gives back a value and the
characters after it, or nothing if the text is not TOML. -/

namespace BlockLowering.Toml

abbrev Read (α : Type) := List Char → Option (α × List Char)

/-- Values, and the parts of a key, nest up to here. -/
def maxDepth : Nat := 79

def skipBlanks (cs : List Char) : List Char := cs.dropWhile fun c => c == ' ' || c == '\t'

/-- Characters that may stand in comments and, quotes and backslashes apart, in texts. -/
def isPlain (c : Char) : Bool := c == '\t' || (' ' ≤ c && c != '\x7f')

def skipComment : List Char → List Char
  | '#' :: cs => cs.dropWhile isPlain
  | cs => cs

def newline? : List Char → Option (List Char)
  | '\n' :: cs => some cs
  | '\r' :: '\n' :: cs => some cs
  | _ => none

/-- What follows this line, which may end in a comment. -/
def lineEnd (cs : List Char) : Option (List Char) :=
  match skipComment (skipBlanks cs) with
  | [] => some []
  | cs => newline? cs

/-- Skips blanks, comments and line ends; `fuel` bounds the lines. -/
def skipLines : Nat → List Char → List Char
  | 0, cs => cs
  | fuel + 1, cs =>
    let cs := skipComment (skipBlanks cs)
    match newline? cs with
    | some cs => skipLines fuel cs
    | none => cs

/-- A character by its code point, in exactly `count` hexadecimal digits. -/
def codePoint (count : Nat) (cs : List Char) : Option (Char × List Char) := do
  let digits ← (cs.take count).mapM Text.hexValue?
  let n := digits.foldl (fun n d => n * 16 + d) 0
  if digits.length = count ∧ n.isValidChar then pure (Char.ofNat n, cs.drop count) else none

/-- An escaped character, after the backslash. -/
def escaped : Read Char
  | 'b' :: cs => some ('\x08', cs)
  | 't' :: cs => some ('\t', cs)
  | 'n' :: cs => some ('\n', cs)
  | 'f' :: cs => some ('\x0c', cs)
  | 'r' :: cs => some ('\r', cs)
  | '"' :: cs => some ('"', cs)
  | '\\' :: cs => some ('\\', cs)
  | 'u' :: cs => codePoint 4 cs
  | 'U' :: cs => codePoint 8 cs
  | _ => none

/-- A text on one line up to the closing `quote`; `read` holds its characters so far, last one
first. There are escapes only in double quotes. -/
def lineText (quote : Char) : Nat → List Char → Read String
  | 0, _, _ => none
  | _ + 1, _, [] => none
  | fuel + 1, read, c :: cs =>
    if c = quote then some (String.ofList read.reverse, cs)
    else if c = '\\' ∧ quote = '"' then do
      let (c, cs) ← escaped cs
      lineText quote fuel (c :: read) cs
    else if isPlain c then lineText quote fuel (c :: read) cs
    else none

/-- What follows a backslash at the end of a line: all blanks and line ends are skipped. -/
def joined? (cs : List Char) : Option (List Char) := do
  let cs ← newline? (skipBlanks cs)
  pure (trimmed cs)
where
  trimmed : List Char → List Char
    | '\r' :: '\n' :: cs => trimmed cs
    | c :: cs => if c == ' ' || c == '\t' || c == '\n' then trimmed cs else c :: cs
    | [] => []

/-- A text of many lines. Three quotes close it; up to two more right before them belong to it. -/
def linesText (quote : Char) : Nat → List Char → Read String
  | 0, _, _ => none
  | _ + 1, _, [] => none
  | fuel + 1, read, c :: cs =>
    if c = quote then
      let run := (c :: cs).takeWhile (· == quote)
      let rest := (c :: cs).dropWhile (· == quote)
      if run.length < 3 then linesText quote fuel (run ++ read) rest
      else if run.length < 6 then some (String.ofList (run.drop 3 ++ read).reverse, rest)
      else none
    else if c = '\\' ∧ quote = '"' then
      match joined? cs with
      | some cs => linesText quote fuel read cs
      | none => do
        let (c, cs) ← escaped cs
        linesText quote fuel (c :: read) cs
    else
      match newline? (c :: cs) with
      | some cs => linesText quote fuel ('\n' :: read) cs
      | none => if isPlain c then linesText quote fuel (c :: read) cs else none

/-- A text after its first quote. -/
def text (quote : Char) (cs : List Char) : Option (String × List Char) :=
  match cs with
  | a :: b :: rest =>
    if a = quote ∧ b = quote then
      linesText quote (rest.length + 1) [] ((newline? rest).getD rest)
    else lineText quote (cs.length + 1) [] cs
  | _ => lineText quote (cs.length + 1) [] cs

def isBare (c : Char) : Bool := c.isAlphanum || c == '_' || c == '-'

def keyPart : Read String
  | '"' :: cs => lineText '"' (cs.length + 1) [] cs
  | '\x27' :: cs => lineText '\x27' (cs.length + 1) [] cs
  | cs =>
    match cs.takeWhile isBare with
    | [] => none
    | name => some (String.ofList name, cs.dropWhile isBare)

/-- The parts of a key, at most `limit` of them. -/
def keyParts : Nat → Read (List String)
  | 0, _ => none
  | limit + 1, cs => do
    let (part, cs) ← keyPart (skipBlanks cs)
    match skipBlanks cs with
    | '.' :: cs => do
      let (parts, cs) ← keyParts limit cs
      pure (part :: parts, cs)
    | cs => pure ([part], cs)

/-- A key, split into its last part and those before it. -/
def key (cs : List Char) : Option ((List String × String) × List Char) := do
  let (parts, cs) ← keyParts maxDepth cs
  let last ← parts.getLast?
  pure ((parts.dropLast, last), cs)

/-- Digits of the given base, with single underscores between them. -/
def moreDigits (base : Nat) : List Char → List Nat × List Char
  | '_' :: c :: cs =>
    match (Text.hexValue? c).filter (· < base) with
    | some d =>
      let (ds, cs) := moreDigits base cs
      (d :: ds, cs)
    | none => ([], '_' :: c :: cs)
  | c :: cs =>
    match (Text.hexValue? c).filter (· < base) with
    | some d =>
      let (ds, cs) := moreDigits base cs
      (d :: ds, cs)
    | none => ([], c :: cs)
  | [] => ([], [])

/-- One digit or more. -/
def digits (base : Nat) : Read (List Nat)
  | '_' :: _ => none
  | cs =>
    match moreDigits base cs with
    | ([], _) => none
    | r => some r

def natOf (base : Nat) (ds : List Nat) : Nat := ds.foldl (fun n d => n * base + d) 0

def integer (negative : Bool) (n : Nat) : Option Value :=
  if negative then if n ≤ Nat.pow 2 63 then some (.integer (-n)) else none
  else if n < Nat.pow 2 63 then some (.integer n) else none

/-- The digits before a point: more than one only if the first is not 0. -/
def wholeDigits : Read (List Nat)
  | '0' :: cs => some ([0], cs)
  | cs => digits 10 cs

def fraction : Read (List Nat)
  | '.' :: cs => digits 10 cs
  | cs => some ([], cs)

def sign : List Char → Bool × List Char
  | '-' :: cs => (true, cs)
  | '+' :: cs => (false, cs)
  | cs => (false, cs)

def exponent : Read Int
  | c :: cs =>
    if c = 'e' ∨ c = 'E' then do
      let (negative, cs) := sign cs
      let (ds, cs) ← digits 10 cs
      pure (if negative then -natOf 10 ds else natOf 10 ds, cs)
    else some (0, c :: cs)
  | [] => some (0, [])

/-- A number too large becomes an infinity, if it is negative. -/
def float (negative : Bool) (whole fraction : List Nat) (exponent : Int) : Option Value :=
  match Decimal.Binary64.ofDecimal (natOf 10 (whole ++ fraction)) (exponent - fraction.length) with
  | some x => some (.float (.finite negative x))
  | none => if negative then some (.float (.infinite true)) else none

def signedNumber (negative : Bool) : Read Value
  | 'i' :: 'n' :: 'f' :: cs => some (.float (.infinite negative), cs)
  | 'n' :: 'a' :: 'n' :: cs => some (.float .notANumber, cs)
  | cs => do
    let (whole, cs) ← wholeDigits cs
    if cs.head?.any (fun c => c == '.' || c == 'e' || c == 'E') then
      let (fraction, cs) ← fraction cs
      let (exponent, cs) ← exponent cs
      let value ← float negative whole fraction exponent
      pure (value, cs)
    else
      let value ← integer negative (natOf 10 whole)
      pure (value, cs)

def based (base : Nat) (cs : List Char) : Option (Value × List Char) := do
  let (ds, cs) ← digits base cs
  let value ← integer false (natOf base ds)
  pure (value, cs)

def number : Read Value
  | '0' :: 'x' :: cs => based 16 cs
  | '0' :: 'o' :: cs => based 8 cs
  | '0' :: 'b' :: cs => based 2 cs
  | cs =>
    let (negative, cs) := sign cs
    signedNumber negative cs

/-- A number of exactly `count` digits from `low` to `high`. -/
def field (count low high : Nat) (cs : List Char) : Option (Nat × List Char) := do
  let ds := cs.take count
  let n := natOf 10 (ds.map (·.toNat - '0'.toNat))
  if ds.length = count ∧ ds.all Char.isDigit ∧ low ≤ n ∧ n ≤ high then pure (n, cs.drop count)
  else none

def expect (c : Char) : List Char → Option (List Char)
  | d :: cs => if c = d then some cs else none
  | [] => none

def monthLength (year month : Nat) : Nat :=
  if month = 2 then
    if year % 4 = 0 ∧ (year % 100 ≠ 0 ∨ year % 400 = 0) then 29 else 28
  else if month = 4 ∨ month = 6 ∨ month = 9 ∨ month = 11 then 30
  else 31

def date (cs : List Char) : Option (List Char) := do
  let (year, cs) ← field 4 0 9999 cs
  let cs ← expect '-' cs
  let (month, cs) ← field 2 1 12 cs
  let cs ← expect '-' cs
  let (_, cs) ← field 2 1 (monthLength year month) cs
  pure cs

def time (cs : List Char) : Option (List Char) := do
  let (_, cs) ← field 2 0 23 cs
  let cs ← expect ':' cs
  let (_, cs) ← field 2 0 59 cs
  let cs ← expect ':' cs
  let (_, cs) ← field 2 0 60 cs
  match cs with
  | '.' :: c :: cs => if c.isDigit then pure (cs.dropWhile Char.isDigit) else none
  | _ => pure cs

/-- The distance from universal time, if there is one. -/
def zone : List Char → Option (List Char)
  | 'Z' :: cs | 'z' :: cs => some cs
  | '+' :: cs | '-' :: cs => do
    let (_, cs) ← field 2 0 23 cs
    let cs ← expect ':' cs
    let (_, cs) ← field 2 0 59 cs
    pure cs
  | cs => some cs

/-- A date, a time, or both. -/
def moment (cs : List Char) : Option (List Char) :=
  match date cs with
  | some (c :: cs) =>
    if c = 'T' ∨ c = 't' ∨ c = ' ' then ((time cs).bind zone).orElse fun _ => some (c :: cs)
    else some (c :: cs)
  | some [] => some []
  | none => time cs

mutual

/-- A value, with at most `levels` lists and tables around each other in it. -/
def value : Nat → Nat → Read Value
  | 0, _, _ => none
  | fuel + 1, levels, cs =>
    match cs with
    | '"' :: cs => (text '"' cs).map fun (s, cs) => (.text s, cs)
    | '\x27' :: cs => (text '\x27' cs).map fun (s, cs) => (.text s, cs)
    | '[' :: cs =>
      match levels with
      | 0 => none
      | levels + 1 => do
        let (items, cs) ← items fuel levels cs
        pure (.list items, cs)
    | '\x7b' :: cs =>
      match levels with
      | 0 => none
      | levels + 1 => do
        let (pairs, cs) ← (match skipBlanks cs with
          | '\x7d' :: cs => some ([], cs)
          | cs => pairs fuel levels cs)
        let entries ← inlineEntries [] pairs
        pure (.table .inline entries, cs)
    | 't' :: 'r' :: 'u' :: 'e' :: cs => some (.bool true, cs)
    | 'f' :: 'a' :: 'l' :: 's' :: 'e' :: cs => some (.bool false, cs)
    | cs =>
      match moment cs with
      | some cs => some (.moment, cs)
      | none => number cs

/-- The items of a list up to its closing bracket. A comma may follow the last one. -/
def items : Nat → Nat → Read (List Value)
  | 0, _, _ => none
  | fuel + 1, levels, cs =>
    match skipLines cs.length cs with
    | ']' :: cs => some ([], cs)
    | cs => do
      let (item, cs) ← value fuel levels cs
      match skipLines cs.length cs with
      | ',' :: cs => do
        let (more, cs) ← items fuel levels cs
        pure (item :: more, cs)
      | ']' :: cs => pure ([item], cs)
      | _ => none

/-- The pairs of a table written as a value, one or more, up to its closing brace. -/
def pairs : Nat → Nat → Read (List Pair)
  | 0, _, _ => none
  | fuel + 1, levels, cs => do
    let ((path, key), cs) ← key cs
    let cs ← expect '=' cs
    let (v, cs) ← value fuel levels (skipBlanks cs)
    match skipBlanks cs with
    | ',' :: cs => do
      let (more, cs) ← pairs fuel levels cs
      pure (⟨path, key, v⟩ :: more, cs)
    | '\x7d' :: cs => pure ([⟨path, key, v⟩], cs)
    | _ => none

end

def pairLine (cs : List Char) : Option (Line × List Char) := do
  let ((path, key), cs) ← key cs
  let cs ← expect '=' cs
  let (v, cs) ← value (3 * cs.length + 3) maxDepth (skipBlanks cs)
  let cs ← lineEnd cs
  pure (.pair ⟨path, key, v⟩, cs)

def headerLine : Read Line
  | '[' :: cs => do
    let ((path, key), cs) ← key cs
    let cs ← expect ']' cs
    let cs ← expect ']' cs
    let cs ← lineEnd cs
    pure (.nextHeader path key, cs)
  | cs => do
    let ((path, key), cs) ← key cs
    let cs ← expect ']' cs
    let cs ← lineEnd cs
    pure (.header path key, cs)

/-- A document: its lines with their numbers, and the tables they build up. -/
structure Document where
  lines : List (Nat × Line)
  entries : Entries

/-- The number of the first line that is about a key of the whole document. -/
def Document.lineOf (d : Document) (key : String) : Nat :=
  ((d.lines.find? fun (_, line) => line.root = key).map (·.1)).getD 1

def newlines (cs : List Char) : Nat := cs.count '\n'

/-- The lines of a document that ends on line `last`, or the number of the line at fault. Each takes
at least one character, and `fuel` bounds them. -/
def numberedLines (last : Nat) : Nat → List Char → Except Nat (List (Nat × Line))
  | 0, _ => .ok []
  | fuel + 1, cs =>
    match skipLines cs.length cs with
    | [] => .ok []
    | c :: cs => do
      let number := last - newlines (c :: cs)
      match (if c = '[' then headerLine cs else pairLine (c :: cs)) with
      | some (line, cs) => do
        let more ← numberedLines last fuel cs
        pure ((number, line) :: more)
      | none => .error number

/-- Reads a document; a fault is the number of its line. -/
def read (document : String) : Except Nat Document := do
  let cs := document.toList
  let cs := if cs.head? = some '\ufeff' then cs.tail else cs
  let lines ← numberedLines (newlines cs + 1) (cs.length + 1) cs
  let entries ← build [] [] lines
  pure ⟨lines, entries⟩

end BlockLowering.Toml
