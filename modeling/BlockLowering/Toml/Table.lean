import BlockLowering.Toml.Value

/-! How the lines of a TOML document build up its tables. A header opens a table once. A table
that a header only passed through may still be opened later. A table made by a dotted key grows
by dotted keys alone, and one written as a value does not grow. -/

namespace BlockLowering.Toml

/-- Sets a key that is there already. -/
def replace (key : String) (value : Value) (entries : Entries) : Entries :=
  entries.map fun (k, v) => if k = key then (k, value) else (k, v)

/-- Whether a table may be entered on the way through a path whose new tables get the origin
`made`. -/
def Origin.admits (made : Origin) : Origin → Bool
  | inline => false
  | header => made ≠ dotted
  | passed | dotted => true

/-- Changes the table at the end of `path`. Tables that are missing on the way are made, with the
origin `made`; `none` if something else stands in the way. The change also gets the origin of the
table, which for the first one is `here`. -/
def descend (made : Origin) (change : Origin → Entries → Option Entries) :
    List String → Origin → Entries → Option Entries
  | [], here, entries => change here entries
  | key :: path, _, entries =>
    match entries.lookup key with
    | none => do
      let inner ← descend made change path made []
      pure (entries ++ [(key, .table made inner)])
    | some (.tables tables) => do
      let last ← tables.getLast?
      let inner ← descend made change path .header last
      pure (replace key (.tables (tables.dropLast ++ [inner])) entries)
    | some (.table there inner) =>
      if made.admits there then do
        let inner ← descend made change path there inner
        pure (replace key (.table there inner) entries)
      else none
    | some _ => none

/-- Adds a value under a dotted key, given as the path to its last part and that part. -/
def addValue (path : List String) (key : String) (value : Value) :
    Origin → Entries → Option Entries :=
  descend .dotted (fun here entries =>
    if (path ≠ [] ∧ here ≠ .dotted) ∨ (entries.lookup key).isSome then none
    else some (entries ++ [(key, value)])) path

/-- Opens a table for the first time. One that was passed through moves to the end. -/
def openTable (key : String) (entries : Entries) : Option Entries :=
  match entries.lookup key with
  | none => some (entries ++ [(key, .table .header [])])
  | some (.table .passed inner) =>
    some (entries.filter (fun e => e.1 ≠ key) ++ [(key, .table .header inner)])
  | some _ => none

/-- Opens the next one of a list of tables. -/
def openNext (key : String) (entries : Entries) : Option Entries :=
  match entries.lookup key with
  | none => some (entries ++ [(key, .tables [[]])])
  | some (.tables tables) => some (replace key (.tables (tables ++ [[]])) entries)
  | some _ => none

/-- A key and its value. -/
structure Pair where
  path : List String
  key : String
  value : Value

/-- The entries of a table written as a value. -/
def inlineEntries (entries : Entries) : List Pair → Option Entries
  | [] => some entries
  | p :: rest => do
    let entries ← addValue p.path p.key p.value .inline entries
    inlineEntries entries rest

inductive Line where
  | pair (pair : Pair)
  | header (path : List String) (key : String)
  | nextHeader (path : List String) (key : String)

/-- The key of the whole document that a line is about. -/
def Line.root : Line → String
  | pair p => p.path.head?.getD p.key
  | header path key | nextHeader path key => path.head?.getD key

/-- The entries after one more line, which stands in the table at `current`. -/
def Line.apply (current : List String) (entries : Entries) : Line → Option Entries
  | pair p => descend .passed (addValue p.path p.key p.value) current .header entries
  | header path key => descend .passed (fun _ => openTable key) path .header entries
  | nextHeader path key => descend .passed (fun _ => openNext key) path .header entries

/-- The table that is open after a line. -/
def Line.current (current : List String) : Line → List String
  | pair _ => current
  | header path key | nextHeader path key => path ++ [key]

/-- Adds numbered lines to a document whose open table is the one at `current`. A line that cannot
be added is the fault. -/
def build (current : List String) (entries : Entries) : List (Nat × Line) → Except Nat Entries
  | [] => .ok entries
  | (number, line) :: rest =>
    match line.apply current entries with
    | some entries => build (line.current current) entries rest
    | none => .error number

end BlockLowering.Toml
