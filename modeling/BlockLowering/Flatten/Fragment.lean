import BlockLowering.Flat.Code

/-! Pieces of a body under construction. A fragment continues the block that is open where it is
put: first come instructions for that block, then further blocks, the last of which stays open. -/

namespace BlockLowering

open Flat (Instr Block)

structure Fragment where
  head : List Instr := []
  blocks : List Block := []
  deriving Repr, DecidableEq, Inhabited

/-- Blocks with instructions added to the last of them. -/
def extendLast (more : List Instr) : List Block → List Block
  | [] => []
  | [b] => [⟨b.label, b.code ++ more⟩]
  | b :: c :: rest => b :: extendLast more (c :: rest)

namespace Fragment

def append (f g : Fragment) : Fragment :=
  match f.blocks with
  | [] => ⟨f.head ++ g.head, g.blocks⟩
  | b :: bs => ⟨f.head, extendLast g.head (b :: bs) ++ g.blocks⟩

instance : EmptyCollection Fragment := ⟨⟨[], []⟩⟩

instance : Append Fragment := ⟨append⟩

def ofCode (code : List Instr) : Fragment := ⟨code, []⟩

/-- Opens a block. -/
def openBlock (label : String) : Fragment := ⟨[], [⟨label, []⟩]⟩

/-- A body that starts with a block of the given label. -/
def toBlocks (label : String) (f : Fragment) : List Block := ⟨label, f.head⟩ :: f.blocks

end Fragment

/-- The blocks of a body so far; the last one is open. -/
structure OpenBody where
  finished : List Block
  current : Block
  deriving Repr, DecidableEq, Inhabited

namespace OpenBody

def new (label : String) : OpenBody := ⟨[], ⟨label, []⟩⟩

def blocks (a : OpenBody) : List Block := a.finished ++ [a.current]

/-- The body with `finished` in front, when `current` is closed and then `blocks` are opened one
after another. -/
def openAll (finished : List Block) (current : Block) : List Block → OpenBody
  | [] => ⟨finished, current⟩
  | b :: rest => openAll (finished ++ [current]) b rest

def append (a : OpenBody) (f : Fragment) : OpenBody :=
  openAll a.finished ⟨a.current.label, a.current.code ++ f.head⟩ f.blocks

end OpenBody

end BlockLowering
