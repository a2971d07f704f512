import BlockLowering.Table

/-! Fresh names. A name is a base followed by the next number of that base, and every base
counts on its own. As long as no base ends in a digit, two names made from one supply differ.
The numbers are words of 32 bits, so a supply that has counted past the last of them is no good
any more. Labels start with a dollar sign; temporaries do not. -/

namespace BlockLowering

/-- A supply of names: the last number given out for each base. -/
structure Names where
  counters : Table Nat := {}
  deriving Repr, DecidableEq, Inhabited

namespace Names

def last? (names : Names) (base : String) : Option Nat := names.counters.get? base

/-- Continues from the given numbers; of two for one base the later counts. -/
def ofCounters (seeds : List (String × Nat)) : Names := ⟨.ofList seeds⟩

/-- The number the next name of `base` gets. -/
def next (names : Names) (base : String) : Nat := (names.last? base).getD 0 + 1

/-- The supply once the next name of `base` is out. -/
def advance (names : Names) (base : String) : Names :=
  ⟨names.counters.insert base (names.next base)⟩

/-- The next name of `base`. -/
def fresh (names : Names) (base : String) : String := base ++ toString (names.next base)

/-- The last number of all. -/
def maxNumber : Nat := 4294967295

/-- No base has counted past the last number. -/
def fits (names : Names) : Bool :=
  names.counters.keys.all fun base => (names.last? base).getD 0 ≤ maxNumber

@[simp] theorem last?_advance_self (names : Names) (base : String) :
    (names.advance base).last? base = some (names.next base) := by
  simp [advance, last?]

theorem last?_advance_of_ne (names : Names) {base other : String} (h : other ≠ base) :
    (names.advance base).last? other = names.last? other := by
  simp [advance, last?, Table.get?_insert_of_ne _ h]

end Names

namespace Base

def operand : String := "valname"

def object : String := "newObj"

def list : String := "newList"

def length : String := "listlength"

def offset : String := "offsetname"

def programStart : String := "$startProg"

def functionStart : String := "$startFun"

def thenBlock : String := "$then"

def elseBlock : String := "$else"

def endBlock : String := "$end"

def loopStart : String := "$whilestart"

def loopBody : String := "$whilebody"

def loopEnd : String := "$whileend"

def temporaries : List String := [operand, object, list, length, offset]

def labels : List String :=
  [programStart, functionStart, thenBlock, elseBlock, endBlock, loopStart, loopBody, loopEnd]

end Base

end BlockLowering
