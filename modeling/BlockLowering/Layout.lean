import BlockLowering.Flat.Code
import BlockLowering.Table

/-! Class layouts: for every class the word offset of each field and the value a new object
holds there. Lists are laid out apart, with their length at offset 0 and the elements after
it, and do not appear here. -/

namespace BlockLowering

open Source (Decl)

/-- Where a field lives in an object, and what a new object holds there. -/
structure Slot where
  offset : UInt32
  initial : Flat.Operand
  deriving Repr, DecidableEq, Inhabited

abbrev ClassLayout := Table Slot

/-- One word for each declaration, in order. A field declared again moves to the later word. -/
def ClassLayout.ofFields (fields : List Decl) : ClassLayout :=
  .ofList (fields.zipIdx.map fun (d, i) => (d.name, ⟨UInt32.ofNat i, .ofLiteral d.value⟩))

structure Layout where
  classes : Table ClassLayout := {}
  deriving Repr, DecidableEq, Inhabited

namespace Layout

/-- Adds a class. One of the same name is replaced. -/
def insert (l : Layout) (className : String) (fields : ClassLayout) : Layout :=
  ⟨l.classes.insert className fields⟩

def ofClasses (classes : List Source.Class) : Layout :=
  classes.foldl (fun l c => l.insert c.name (.ofFields c.fields)) {}

def fields? (l : Layout) (className : String) : Option ClassLayout := l.classes.get? className

/-- The classes in the order of their names. -/
def sorted (l : Layout) : List (String × ClassLayout) := l.classes.sorted

end Layout

end BlockLowering
