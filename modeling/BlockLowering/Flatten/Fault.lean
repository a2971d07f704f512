import BlockLowering.Source.Syntax

/-! Why a program cannot be lowered. All of these are contradictions between the tree and the types
written on it, or between the tree and the class layouts; what only a run can show is left to the
checks in the lowered code. -/

namespace BlockLowering

open Source (Ty Loc)

/-- The ways to use a receiver. -/
inductive Access where
  | methodCall
  | fieldLookup
  | fieldAssignment
  | index
  | indexAssignment
  deriving Repr, DecidableEq

def Access.text : Access → String
  | methodCall => "method call"
  | fieldLookup => "field lookup"
  | fieldAssignment => "field assignment"
  | index => "index"
  | indexAssignment => "index assignment"

inductive Fault where
  | notAnObject (access : Access) (found : Ty) (loc : Loc)
  | notAList (access : Access) (found : Ty) (loc : Loc)
  | unknownClass (className : String) (loc : Loc)
  | unknownField (className field : String) (loc : Loc)
  | invalidCode (complaints : List String)
  deriving Repr, DecidableEq

namespace Fault

/-- The place of the node at fault. -/
def loc? : Fault → Option Loc
  | notAnObject _ _ loc => some loc
  | notAList _ _ loc => some loc
  | unknownClass _ loc => some loc
  | unknownField _ _ loc => some loc
  | invalidCode _ => none

def message : Fault → String
  | notAnObject access found loc =>
    "Internal compiler error at " ++ loc.text ++ ": " ++ access.text ++ " on non-class type " ++
      found.text
  | notAList access found loc =>
    "Internal compiler error at " ++ loc.text ++ ": " ++ access.text ++ " on non-list type " ++
      found.text
  | unknownClass className loc =>
    "Internal compiler error at " ++ loc.text ++ ": no layout for class " ++ className
  | unknownField className field loc =>
    "Internal compiler error at " ++ loc.text ++ ": class " ++ className ++ " has no field " ++ field
  | invalidCode complaints => "Lowered IR failed validation: " ++ "; ".intercalate complaints

end Fault

end BlockLowering
