import BlockLowering.Json.Reader

/-! Decoding JSON trees into records and tagged nodes. The fault that comes first in the text is
the one reported. A record is decoded while it is read; a tagged node is read completely first,
and so is everything in it. Records may be written as lists of their fields, and tagged nodes as
lists that start with the tag.

The fields of a record are decoded one by one, in the order of their declaration, and each result
knows its position in the document. Put together they give the fault that stands first in the
document, or else the first field that is missing, or else a value. -/

namespace BlockLowering

/-- What can be wrong with the content of a document. -/
inductive DataFault where
  | wrongType (found : Found) (expected : String)
  | wrongValue (found : Found) (expected : String)
  | wrongLength (length : Nat) (expected : String)
  | missingField (name : String)
  | repeatedField (name : String)
  | unknownVariant (name : String) (known : List String)
  | noInteger
  | notWhole (negative : Bool) (magnitude : Decimal.Binary64)
  | emptyNumeral
  | badDigit
  deriving Repr

namespace DataFault

def message : DataFault → String
  | wrongType found expected => "invalid type: " ++ found.describe ++ ", expected " ++ expected
  | wrongValue found expected => "invalid value: " ++ found.describe ++ ", expected " ++ expected
  | wrongLength length expected => "invalid length " ++ toString length ++ ", expected " ++ expected
  | missingField name => "missing field " ++ Text.ticked name
  | repeatedField name => "duplicate field " ++ Text.ticked name
  | unknownVariant name known => "unknown variant " ++ Text.ticked name ++ ", " ++ Text.choice known
  | noInteger => "data did not match any variant of untagged enum Repr"
  | notWhole negative x =>
    "number " ++ (if negative then "-" else "") ++ Decimal.positional x ++
      " is not a 64-bit integer; pass it as a decimal string"
  | emptyNumeral => "cannot parse integer from empty string"
  | badDigit => "invalid digit found in string"

end DataFault

inductive DecodeFault where
  | malformed (fault : SyntaxFault)
  | mismatch (fault : DataFault)
  deriving Repr

namespace DecodeFault

def message : DecodeFault → String
  | malformed f => f.message
  | mismatch f => f.message

end DecodeFault

/-- Whether a value is decoded while its text is read, or after all of it was read. -/
inductive Phase where
  | streaming
  | buffered
  deriving Repr, DecidableEq

/-- Decodes a value in which at most the given number of levels may be opened. -/
abbrev Decoder (α : Type) := Nat → Phase → Json → Except DecodeFault α

namespace Decoder

/-- A fault of form, as a fault of decoding. -/
def formed {α : Type} : Except SyntaxFault α → Except DecodeFault α
  | .ok a => .ok a
  | .error f => .error (.malformed f)

/-- Something else was expected here. -/
def wrongType {α : Type} (j : Json) (expected : String) : Except DecodeFault α :=
  match j.found with
  | .ok found => .error (.mismatch (.wrongType found expected))
  | .error f => .error (.malformed f)

def text : Decoder String := fun _ _ j =>
  match j with
  | .text s => formed s
  | j => wrongType j "a string"

def bool : Decoder Bool := fun _ _ j =>
  match j with
  | .bool b => .ok b
  | j => wrongType j "a boolean"

def word : Decoder UInt32 := fun _ _ j =>
  match j with
  | .number (.ok (.int n)) =>
    if 0 ≤ n ∧ n < UInt32.size then .ok (UInt32.ofNat n.toNat)
    else .error (.mismatch (.wrongValue (.number (.int n)) "u32"))
  | j => wrongType j "u32"

def list {α : Type} (item : Decoder α) : Decoder (List α) := fun levels phase j =>
  match j with
  | .list items stop =>
    match levels with
    | 0 => .error (.malformed .tooDeep)
    | n + 1 => do
      let values ← items.mapM (item n phase)
      formed stop.check
      pure values
  | j => wrongType j "a sequence"

/-- The value of the digits; an underscore may stand anywhere but in front. -/
def digitsValue? : Nat → List Char → Option Nat
  | n, [] => some n
  | n, c :: cs =>
    if c = '_' then digitsValue? n cs
    else if c.isDigit then digitsValue? (n * 10 + (c.toNat - '0'.toNat)) cs
    else none

/-- A natural number in decimal digits, after at most one plus sign. -/
def parseNat (cs : List Char) : Except DataFault Nat :=
  let digits := match cs with
    | '+' :: '+' :: _ => cs
    | '+' :: rest => rest
    | _ => cs
  match digits with
  | [] => .error .emptyNumeral
  | '_' :: _ => .error .badDigit
  | _ =>
    match digitsValue? 0 digits with
    | some n => .ok n
    | none => .error .badDigit

def parseInt (cs : List Char) : Except DataFault Int :=
  match cs with
  | '-' :: '+' :: _ => (parseNat cs).map fun n => -(n : Int)
  | '-' :: rest => (parseNat rest).map fun n => -(n : Int)
  | _ => (parseNat cs).map fun n => (n : Int)

def integer : Decoder Int := fun _ _ j =>
  match j with
  | .number (.ok (.int n)) => .ok n
  | .number (.ok (.float negative x)) => .error (.mismatch (.notWhole negative x))
  | .text (.ok s) =>
    match parseInt s.toList with
    | .ok n => .ok n
    | .error f => .error (.mismatch f)
  | j =>
    match j.found with
    | .ok _ => .error (.mismatch .noInteger)
    | .error f => .error (.malformed f)

end Decoder

inductive Reading (α : Type) where
  | fault (position : Nat) (fault : DecodeFault)
  | missing (name : String)
  | value (a : α)

namespace Reading

variable {α β : Type}

def map (f : α → β) : Reading α → Reading β
  | fault p e => fault p e
  | missing n => missing n
  | value a => value (f a)

def apply : Reading (α → β) → Reading α → Reading β
  | fault p e, fault q e' => if q < p then fault q e' else fault p e
  | fault p e, _ => fault p e
  | _, fault q e => fault q e
  | missing n, _ => missing n
  | _, missing n => missing n
  | value f, value a => value (f a)

instance : Applicative Reading where
  pure := value
  map := map
  seq f a := apply f (a ())

def ofExcept (position : Nat) : Except DecodeFault α → Reading α
  | .ok a => value a
  | .error e => fault position e

def toExcept : Reading α → Except DecodeFault α
  | fault _ e => .error e
  | missing n => .error (.mismatch (.missingField n))
  | value a => .ok a

/-- A field that may be left out. -/
def orElse (default : α) : Reading α → Reading α
  | missing _ => value default
  | r => r

end Reading

/-- The form of a record: how messages name it, and its fields in order. -/
structure Shape where
  label : String
  fields : List String

/-- "1 element", "2 elements". -/
def elements (n : Nat) : String := toString n ++ (if n = 1 then " element" else " elements")

inductive Contents where
  | items (items : List Json) (stop : Stop)
  | members (members : List (Token String × Json)) (stop : Stop)

/-- A record that was opened: its contents, and how they are to be decoded. -/
structure Opened where
  shape : Shape
  levels : Nat
  phase : Phase
  contents : Contents

namespace Opened

variable {α : Type}

/-- The members called `name` with their positions, from position `i` on. -/
def occurrences (name : String) (i : Nat) : List (Token String × Json) → List (Nat × Json)
  | [] => []
  | (key, value) :: rest =>
    match key with
    | .ok k =>
      if k = name then (i, value) :: occurrences name (i + 1) rest
      else occurrences name (i + 1) rest
    | .error _ => occurrences name (i + 1) rest

/-- Decodes a field. In a list it stands at its place among the fields. -/
def field (o : Opened) (name : String) (decode : Decoder α) : Reading α :=
  match o.contents with
  | .items items _ =>
    let i := o.shape.fields.idxOf name
    match items[i]? with
    | some item => .ofExcept i (decode o.levels o.phase item)
    | none =>
      .fault i (.mismatch (.wrongLength i (o.shape.label ++ " with " ++ elements o.shape.fields.length)))
  | .members members _ =>
    match occurrences name 0 members with
    | [] => .missing name
    | [(i, value)] => .ofExcept i (decode o.levels o.phase value)
    | (i, value) :: (k, _) :: _ =>
      match decode o.levels o.phase value with
      | .ok _ => .fault k (.mismatch (.repeatedField name))
      | .error e => .fault i e

/-- Decodes a field that has a default. -/
def fieldD (o : Opened) (name : String) (decode : Decoder α) (default : α) : Reading α :=
  match o.contents with
  | .items items _ =>
    if o.shape.fields.idxOf name < items.length then o.field name decode else .value default
  | .members .. => (o.field name decode).orElse default

/-- The first fault of form among members that are no fields, from position `i` on. -/
def strayFault (fields : List String) (i : Nat) : List (Token String × Json) → Reading Unit
  | [] => .value ()
  | (key, value) :: rest =>
    match key with
    | .error f => .fault i (.malformed f)
    | .ok k =>
      if k ∈ fields then strayFault fields (i + 1) rest
      else
        match value.skip with
        | .ok () => strayFault fields (i + 1) rest
        | .error f => .fault i (.malformed f)

/-- What is wrong after the last field of a list that is still being read. -/
def endFault (extra : Bool) : Stop → Option SyntaxFault
  | .closed => if extra then some .trailingText else none
  | .broken f =>
    if extra then some .trailingText
    else
      match f.wanted with
      | .endOfList => some .endOfList
      | .trailingComma => some .trailingComma
      | _ => some .trailingText

/-- What is wrong with a record apart from its fields: unknown members that cannot be skipped, too
many items, or an end that is missing. -/
def rest (o : Opened) : Reading Unit :=
  match o.contents with
  | .items items stop =>
    let count := o.shape.fields.length
    if items.length < count then
      .ofExcept items.length (Decoder.formed stop.check)
    else
      match o.phase with
      | .streaming =>
        match endFault (count < items.length) stop with
        | some f => .fault count (.malformed f)
        | none => .value ()
      | .buffered =>
        if count < items.length then
          .fault count (.mismatch (.wrongLength items.length (elements count ++ " in sequence")))
        else .value ()
  | .members members stop =>
    match strayFault o.shape.fields 0 members with
    | .value () => .ofExcept members.length (Decoder.formed stop.check)
    | r => r

/-- All of a record: its end and strays first, so that they come before a missing item. -/
def decode (o : Opened) (build : Opened → Reading α) : Except DecodeFault α :=
  (Reading.apply (o.rest.map fun _ a => a) (build o)).toExcept

end Opened

namespace Decoder

variable {α : Type}

/-- A record with named fields. -/
def record (shape : Shape) (build : Opened → Reading α) : Decoder α := fun levels phase j =>
  match j with
  | .list items stop =>
    match levels with
    | 0 => .error (.malformed .tooDeep)
    | n + 1 => Opened.decode ⟨shape, n, phase, .items items stop⟩ build
  | .object members stop =>
    match levels with
    | 0 => .error (.malformed .tooDeep)
    | n + 1 => Opened.decode ⟨shape, n, phase, .members members stop⟩ build
  | j => wrongType j shape.label

/-- The name of a variant. Once a node is read completely its number will do as well. -/
def variant (known : List String) : Decoder String := fun _ phase j =>
  match j with
  | .text s => do
    let name ← formed s
    if name ∈ known then pure name else .error (.mismatch (.unknownVariant name known))
  | .number (.ok (.int n)) =>
    if phase = .buffered ∧ 0 ≤ n then
      match known[n.toNat]? with
      | some name => .ok name
      | none =>
        .error (.mismatch (.wrongValue (.number (.int n))
          ("variant index 0 <= i < " ++ toString known.length)))
    else wrongType j "variant identifier"
  | j => wrongType j "variant identifier"

/-- Reads the members of a tagged node: finds the tag and sets the others aside, last one first. -/
def splitTag (known : List String) (levels : Nat) (phase : Phase) (tag : Option String)
    (others : List (Token String × Json)) :
    List (Token String × Json) → Except DecodeFault (Option String × List (Token String × Json))
  | [] => .ok (tag, others.reverse)
  | (.error f, _) :: _ => .error (.malformed f)
  | (.ok key, value) :: rest =>
    if key = "tag" then
      match tag with
      | some _ => .error (.mismatch (.repeatedField "tag"))
      | none =>
        match variant known levels phase value with
        | .ok name => splitTag known levels phase (some name) others rest
        | .error e => .error e
    else
      let read := if phase = .buffered then .ok () else value.whole levels
      match read with
      | .ok () => splitTag known levels phase tag ((.ok key, value) :: others) rest
      | .error f => .error (.malformed f)

/-- The tag of a node and the rest of its contents, all of which have been read. -/
def openTagged (name : String) (known : List String) (levels : Nat) (phase : Phase) (j : Json) :
    Except DecodeFault (String × Contents) :=
  match j with
  | .list items stop =>
    match levels with
    | 0 => .error (.malformed .tooDeep)
    | n + 1 =>
      match items with
      | [] => do
        formed stop.check
        .error (.mismatch (.missingField "tag"))
      | first :: rest => do
        let tag ← variant known n phase first
        if phase = .streaming then
          formed (Json.wholeItems n rest)
          formed stop.check
        pure (tag, .items rest .closed)
  | .object members stop =>
    match levels with
    | 0 => .error (.malformed .tooDeep)
    | n + 1 => do
      let (tag, others) ← splitTag known n phase none [] members
      formed stop.check
      match tag with
      | some tag => pure (tag, .members others .closed)
      | none => .error (.mismatch (.missingField "tag"))
  | j => wrongType j ("internally tagged enum " ++ name)

/-- The fields of one variant of a tagged node. -/
def struct (levels : Nat) (shape : Shape) (contents : Contents) (build : Opened → Reading α) :
    Except DecodeFault α :=
  Opened.decode ⟨shape, levels, .buffered, contents⟩ build

/-- A variant without fields. As an object it may have any members; as a list it has no items. -/
def unit (a : α) : Contents → Except DecodeFault α
  | .items [] _ => .ok a
  | .items items _ => .error (.mismatch (.wrongLength items.length (elements 0 ++ " in sequence")))
  | .members .. => .ok a

/-- A choice among names, written as the name alone or as the only key of an object whose value is
null. -/
def choice (known : List (String × α)) : Decoder α := fun levels phase j =>
  let names := known.map (·.1)
  let pick (name : String) : Except DecodeFault α :=
    match known.lookup name with
    | some a => .ok a
    | none => .error (.mismatch (.unknownVariant name names))
  match phase, j with
  | .streaming, .text s => do pick (← formed s)
  | .streaming, .object members stop =>
    match levels with
    | 0 => .error (.malformed .tooDeep)
    | _ + 1 =>
      match members, stop with
      | [], .closed => .error (.malformed .valueExpected)
      | [], .broken f =>
        .error (.malformed (if f.wanted = .endOfObject then .endOfValue else f.wanted))
      | (key, value) :: more, stop => do
        let a ← pick (← formed key)
        match value with
        | .null =>
          match more, stop with
          | [], .closed => pure a
          | [], .broken ⟨.endOfObject, _⟩ => .error (.malformed .endOfObject)
          | _, _ => .error (.malformed .valueExpected)
        | value => wrongType value "unit"
  | .streaming, .fault f => .error (.malformed f.wanted)
  | .streaming, _ => .error (.malformed .valueExpected)
  | .buffered, .text s => do pick (← formed s)
  | .buffered, .object [(key, value)] _ => do
    let a ← pick (← formed key)
    match value with
    | .null => pure a
    | .object [] _ => pure a
    | value => wrongType value "unit"
  | .buffered, .object _ _ => .error (.mismatch (.wrongValue .map "map with a single key"))
  | .buffered, j => wrongType j "string or map"

/-- The greatest number of levels that a document may open. -/
def maxLevels : Nat := 127

/-- Decodes a whole document. -/
def run (decode : Decoder α) (doc : Json.Document) : Except DecodeFault α := do
  let a ← decode maxLevels .streaming doc.root
  if doc.trailing then .error (.malformed .trailingText) else pure a

end Decoder

end BlockLowering
