/-! The settings of a lowering run: the runtime helpers that lowered code calls, and how methods
become plain functions. -/

namespace BlockLowering

structure Settings where
  /-- Called before every method call, with the receiver. -/
  notNoneHelper : String := "assert_not_none"
  /-- Called before every access to a list element, with the length and the index. -/
  boundsHelper : String := "index_out_of_bounds"
  /-- The method that runs on a new object. -/
  initMethod : String := "__init__"
  /-- Stands between class and method in the name of a method's function. -/
  separator : String := "$"
  /-- Whether lowered programs are checked once more. -/
  validate : Bool := false
  deriving Repr, DecidableEq, Inhabited

/-- The name of the function for a method. -/
def Settings.methodName (s : Settings) (className method : String) : String :=
  className ++ s.separator ++ method

end BlockLowering
