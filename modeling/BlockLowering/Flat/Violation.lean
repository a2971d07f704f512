import BlockLowering.Flat.Code

/-! The rules that flat code keeps, as the list of the places that break one. A body has blocks,
its labels are distinct, every block but the last ends in a transfer of control, jumps stand
only at the end of a block, and they go to blocks of the same body. Across a program no two
blocks share a label. A return may be followed by more instructions; a jump may not. -/

namespace BlockLowering.Flat

inductive Violation where
  | noBlocks
  | repeatedLabel (label : String)
  | unterminated (label : String)
  | earlyJump (label : String) (instr : Instr)
  | missingTarget (label target : String)
  | sharedLabel (label : String)
  deriving Repr, DecidableEq

namespace Violation

def message : Violation → String
  | noBlocks => "Body has no blocks"
  | repeatedLabel label => "Duplicate block label " ++ label
  | unterminated label => "Block " ++ label ++ " is not terminated"
  | earlyJump label instr =>
    "Block " ++ label ++ " has a jump before its final statement (" ++ instr.text ++ ")"
  | missingTarget label target =>
    "Block " ++ label ++ " references non-existent block " ++ target
  | sharedLabel label => "label " ++ label ++ " is already used by another body"

end Violation

/-- The labels that occur earlier in the list or in `seen`, once for each such occurrence. -/
def repeated (seen : List String) : List String → List String
  | [] => []
  | l :: ls => if l ∈ seen then l :: repeated seen ls else repeated (l :: seen) ls

/-- The faults of the instructions of block `label`, in a body with the given labels. -/
def codeViolations (labels : List String) (label : String) : List Instr → List Violation
  | [] => []
  | i :: rest =>
    (if i.targets ≠ [] ∧ rest ≠ [] then [.earlyJump label i] else []) ++
      (i.targets.filter (· ∉ labels)).map (.missingTarget label) ++
      codeViolations labels label rest

/-- The faults of the blocks of a body, in a body with the given labels. -/
def blockViolations (labels : List String) : List Block → List Violation
  | [] => []
  | b :: rest =>
    (if rest ≠ [] ∧ !b.isTerminated then [.unterminated b.label] else []) ++
      codeViolations labels b.label b.code ++ blockViolations labels rest

/-- Every fault of one body: label by label, then block by block. -/
def bodyViolations (blocks : List Block) : List Violation :=
  if blocks = [] then [.noBlocks]
  else
    let labels := blocks.map (·.label)
    (repeated [] labels).map Violation.repeatedLabel ++ blockViolations labels blocks

/-- The faults of the bodies, each with the name of its body; `seen` holds the labels of the
bodies before them. -/
def programViolations (seen : List String) :
    List (String × List Block) → List (String × Violation)
  | [] => []
  | (name, blocks) :: rest =>
    let labels := blocks.map (·.label)
    (bodyViolations blocks ++ (repeated seen labels).map Violation.sharedLabel).map (name, ·) ++
      programViolations (labels ++ seen) rest

def Program.violations (p : Program) : List (String × Violation) := programViolations [] p.bodies

/-- The messages of a program's faults, each led by the name of its body. -/
def Program.complaints (p : Program) : List String :=
  p.violations.map fun (name, v) => name ++ ": " ++ v.message

/-- The messages of the faults of one body. -/
def complaints (blocks : List Block) : List String := (bodyViolations blocks).map Violation.message

end BlockLowering.Flat
