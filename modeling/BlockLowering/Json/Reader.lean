import BlockLowering.Json.Numeral

/-! Reading JSON text. Reading never fails: the tree ends at the first fault and holds it there.
Nothing after a fault is read.

A code unit between 0xD800 and 0xDFFF has to be half of a pair, unless the text is skipped. Every
step down, and every step to a next item, uses up one unit of a count; three times the length of
the text is always enough. -/

namespace BlockLowering

namespace Json

def isBlank (c : Char) : Bool := c == ' ' || c == '\n' || c == '\t' || c == '\r'

def skipBlanks (cs : List Char) : List Char := cs.dropWhile isBlank

def codeUnit? (a b c d : Char) : Option Nat := do
  let a ← Text.hexValue? a
  let b ← Text.hexValue? b
  let c ← Text.hexValue? c
  let d ← Text.hexValue? d
  pure (((a * 16 + b) * 16 + c) * 16 + d)

def letterEscape? (c : Char) : Option Char :=
  if c = '"' ∨ c = '\\' ∨ c = '/' then some c
  else if c = 'b' then some '\x08'
  else if c = 'f' then some '\x0c'
  else if c = 'n' then some '\n'
  else if c = 'r' then some '\r'
  else if c = 't' then some '\t'
  else none

/-- What is wrong with an escape that has fewer than four characters left for its digits. -/
def shortEscape (rest : List Char) : SyntaxFault :=
  if (String.ofList rest).utf8ByteSize < 4 then .endOfText else .badEscape

/-- What follows the closing quote of a text. -/
def afterText : List Char → Except SyntaxFault (List Char)
  | [] => .error .endOfText
  | '"' :: rest => .ok rest
  | '\\' :: 'u' :: a :: b :: c :: d :: rest =>
    if (codeUnit? a b c d).isSome then afterText rest else .error .badEscape
  | '\\' :: 'u' :: rest => .error (shortEscape rest)
  | '\\' :: c :: rest => if (letterEscape? c).isSome then afterText rest else .error .badEscape
  | '\\' :: [] => .error .endOfText
  | c :: rest => if c.toNat < 0x20 then .error .controlCharacter else afterText rest

def isLeading (unit : Nat) : Bool := 0xD800 ≤ unit && unit ≤ 0xDBFF

def isTrailing (unit : Nat) : Bool := 0xDC00 ≤ unit && unit ≤ 0xDFFF

/-- The character of a surrogate pair. -/
def pairChar (leading trailing : Nat) : Char :=
  Char.ofNat ((leading - 0xD800) * 0x400 + (trailing - 0xDC00) + 0x10000)

/-- What is wrong after a leading surrogate if no other escape of four digits follows it. -/
def unpaired : List Char → SyntaxFault
  | [] => .endOfText
  | '\\' :: [] => .endOfText
  | '\\' :: 'u' :: rest => shortEscape rest
  | _ => .unpairedEscape

/-- The characters of a text up to its closing quote; `read` holds those so far, last one first. -/
def textValue (read : List Char) : List Char → Token (List Char)
  | [] => .error .endOfText
  | '"' :: _ => .ok read.reverse
  | '\\' :: 'u' :: a :: b :: c :: d :: rest =>
    match codeUnit? a b c d with
    | none => .error .badEscape
    | some unit =>
      if isTrailing unit then .error .loneSurrogate
      else if isLeading unit then
        match rest with
        | '\\' :: 'u' :: a :: b :: c :: d :: rest =>
          match codeUnit? a b c d with
          | none => .error .badEscape
          | some second =>
            if isTrailing second then textValue (pairChar unit second :: read) rest
            else .error .loneSurrogate
        | rest => .error (unpaired rest)
      else textValue (Char.ofNat unit :: read) rest
  | '\\' :: 'u' :: rest => .error (shortEscape rest)
  | '\\' :: c :: rest =>
    match letterEscape? c with
    | some c => textValue (c :: read) rest
    | none => .error .badEscape
  | '\\' :: [] => .error .endOfText
  | c :: rest =>
    if c.toNat < 0x20 then .error .controlCharacter else textValue (c :: read) rest

/-- The text after an opening quote. -/
def readText (cs : List Char) : Except Flaw (Token String × List Char) :=
  match afterText cs, textValue [] cs with
  | .ok rest, value => .ok (value.map String.ofList, rest)
  | .error f, .ok _ => .error (.plain f)
  | .error f, .error g => .error ⟨g, f⟩

def digitsOf (cs : List Char) : List Nat × List Char :=
  let (ds, rest) := cs.span Char.isDigit
  (ds.map (·.toNat - '0'.toNat), rest)

/-- One digit or more. -/
def readDigits (cs : List Char) : Except Flaw (List Nat × List Char) :=
  match digitsOf cs with
  | ([], []) => .error ⟨.endOfValue, .badNumber⟩
  | ([], _) => .error (.plain .badNumber)
  | (ds, rest) => .ok (ds, rest)

/-- The digits before the point: more than one only if the first is not 0. -/
def readWhole (cs : List Char) : Except Flaw (List Nat × List Char) := do
  let (ds, rest) ← readDigits cs
  match ds with
  | 0 :: _ :: _ => .error (.plain .badNumber)
  | _ => .ok (ds, rest)

def readFraction : List Char → Except Flaw (Option (List Nat) × List Char)
  | '.' :: cs => do
    let (ds, rest) ← readDigits cs
    pure (some ds, rest)
  | cs => .ok (none, cs)

def readExponent : List Char → Except Flaw (Option (Bool × List Nat) × List Char)
  | c :: cs =>
    if c = 'e' ∨ c = 'E' then do
      let (negative, cs) : Bool × List Char := match cs with
        | '-' :: cs => (true, cs)
        | '+' :: cs => (false, cs)
        | cs => (false, cs)
      let (ds, rest) ← readDigits cs
      pure (some (negative, ds), rest)
    else .ok (none, c :: cs)
  | [] => .ok (none, [])

/-- The number after its sign. -/
def readNumber (negative : Bool) (cs : List Char) :
    Except Flaw (Token Number × List Char) := do
  let (whole, cs) ← readWhole cs
  let (fraction, cs) ← readFraction cs
  let (exponent, cs) ← readExponent cs
  pure (Numeral.toNumber ⟨negative, whole, fraction, exponent⟩, cs)

/-- The rest of a word such as `null` whose first letter is past. -/
def readWord : List Char → List Char → Except Flaw (List Char)
  | [], cs => .ok cs
  | _ :: _, [] => .error (.plain .endOfValue)
  | w :: ws, c :: cs => if c = w then readWord ws cs else .error (.plain .wordExpected)

/-- A value and what follows it, or a fault and nothing. -/
def settle {α : Type} (make : α → Json) : Except Flaw (α × List Char) → Json × List Char
  | .ok (a, rest) => (make a, rest)
  | .error f => (.fault f, [])

mutual

def readValue : Nat → List Char → Json × List Char
  | 0, _ => (.fault (.plain .endOfValue), [])
  | _ + 1, [] => (.fault (.plain .endOfValue), [])
  | n + 1, c :: cs =>
    if c = '"' then settle .text (readText cs)
    else if c = '[' then
      let (items, stop, rest) := readItems n (skipBlanks cs)
      (.list items stop, rest)
    else if c = '\x7b' then
      let (members, stop, rest) := readMembers n (skipBlanks cs)
      (.object members stop, rest)
    else if c = '-' then settle .number (readNumber true cs)
    else if c.isDigit then settle .number (readNumber false (c :: cs))
    else if c = 'n' then settle (fun _ => .null) ((readWord "ull".toList cs).map (((), ·)))
    else if c = 't' then settle (fun _ => .bool true) ((readWord "rue".toList cs).map (((), ·)))
    else if c = 'f' then settle (fun _ => .bool false) ((readWord "alse".toList cs).map (((), ·)))
    else (.fault (.plain .valueExpected), [])

def readItems : Nat → List Char → List Json × Stop × List Char
  | 0, _ => ([], .broken (.plain .endOfList), [])
  | _ + 1, [] => ([], .broken (.plain .endOfList), [])
  | n + 1, c :: cs =>
    if c = ']' then ([], .closed, cs) else readMoreItems n (c :: cs)

def readMoreItems : Nat → List Char → List Json × Stop × List Char
  | 0, _ => ([], .broken (.plain .endOfList), [])
  | n + 1, cs =>
    let (item, rest) := readValue n cs
    match skipBlanks rest with
    | [] => ([item], .broken (.plain .endOfList), [])
    | ']' :: rest => ([item], .closed, rest)
    | ',' :: rest =>
      match skipBlanks rest with
      | [] => ([item], .broken (.plain .endOfValue), [])
      | ']' :: _ => ([item], .broken ⟨.trailingComma, .valueExpected⟩, [])
      | rest =>
        let (items, stop, rest) := readMoreItems n rest
        (item :: items, stop, rest)
    | _ => ([item], .broken (.plain .listSeparatorExpected), [])

def readMembers : Nat → List Char → List (Token String × Json) × Stop × List Char
  | 0, _ => ([], .broken (.plain .endOfObject), [])
  | _ + 1, [] => ([], .broken (.plain .endOfObject), [])
  | n + 1, c :: cs =>
    if c = '\x7d' then ([], .closed, cs)
    else if c = '"' then readMoreMembers n cs
    else ([], .broken (.plain .keyNotText), [])

/-- The members from the opening quote of a key on. -/
def readMoreMembers : Nat → List Char → List (Token String × Json) × Stop × List Char
  | 0, _ => ([], .broken (.plain .endOfObject), [])
  | n + 1, cs =>
    match readText cs with
    | .error f => ([], .broken f, [])
    | .ok (key, rest) =>
      match skipBlanks rest with
      | [] => ([(key, .fault (.plain .endOfObject))], .broken (.plain .endOfObject), [])
      | ':' :: rest =>
        let (value, rest) := readValue n (skipBlanks rest)
        match skipBlanks rest with
        | [] => ([(key, value)], .broken (.plain .endOfObject), [])
        | '\x7d' :: rest => ([(key, value)], .closed, rest)
        | ',' :: rest =>
          match skipBlanks rest with
          | [] => ([(key, value)], .broken ⟨.endOfValue, .endOfObject⟩, [])
          | '"' :: rest =>
            let (members, stop, rest) := readMoreMembers n rest
            ((key, value) :: members, stop, rest)
          | '\x7d' :: _ => ([(key, value)], .broken ⟨.trailingComma, .keyNotText⟩, [])
          | _ => ([(key, value)], .broken (.plain .keyNotText), [])
        | _ => ([(key, value)], .broken (.plain .objectSeparatorExpected), [])
      | _ => ([(key, .fault (.plain .colonExpected))], .broken (.plain .colonExpected), [])

end

/-- A whole text: one value, and whether anything but blanks follows it. -/
structure Document where
  root : Json
  trailing : Bool

def read (s : String) : Document :=
  let cs := s.toList
  let (root, rest) := readValue (3 * cs.length + 3) (skipBlanks cs)
  ⟨root, !(skipBlanks rest).isEmpty⟩

end Json

end BlockLowering
