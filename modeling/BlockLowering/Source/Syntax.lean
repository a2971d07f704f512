/-! The typed source language: classes, lists, functions and structured statements. Every
expression and statement carries a note with the type the checker gave it and its place in
the source text. -/

namespace BlockLowering.Source

inductive Ty where
  | number
  | bool
  | none
  | object (name : String)
  | list (elem : Ty)
  deriving Repr, DecidableEq, Inhabited

namespace Ty

/-- The class of an object type. -/
def objectName? : Ty → Option String
  | object name => some name
  | _ => Option.none

def isList : Ty → Bool
  | list _ => true
  | _ => false

def text : Ty → String
  | number => "int"
  | bool => "bool"
  | none => "<None>"
  | object name => name
  | list elem => "[" ++ elem.text ++ "]"

end Ty

/-- A stretch of source text. Only its start is ever shown. -/
structure Loc where
  line : UInt32 := 0
  column : UInt32 := 0
  length : UInt32 := 0
  deriving Repr, DecidableEq, Inhabited

def Loc.text (loc : Loc) : String :=
  toString loc.line.toNat ++ ":" ++ toString loc.column.toNat

/-- What the type checker wrote on a node. -/
structure Note where
  ty : Ty
  loc : Loc
  deriving Repr, DecidableEq, Inhabited

inductive Literal where
  | num (value : Int)
  | bool (value : Bool)
  | none
  deriving Repr, DecidableEq, Inhabited

inductive UnaryOp where
  | neg
  | not
  deriving Repr, DecidableEq, Inhabited

def UnaryOp.text : UnaryOp → String
  | neg => "-"
  | not => "not "

inductive BinaryOp where
  | plus
  | minus
  | mul
  | intDiv
  | mod
  | eq
  | neq
  | lte
  | gte
  | lt
  | gt
  | is
  | and
  | or
  deriving Repr, DecidableEq, Inhabited

def BinaryOp.text : BinaryOp → String
  | plus => "+"
  | minus => "-"
  | mul => "*"
  | intDiv => "//"
  | mod => "%"
  | eq => "=="
  | neq => "!="
  | lte => "<="
  | gte => ">="
  | lt => "<"
  | gt => ">"
  | is => "is"
  | and => "and"
  | or => "or"

inductive Expr where
  | unary (note : Note) (op : UnaryOp) (arg : Expr)
  | binary (note : Note) (op : BinaryOp) (left right : Expr)
  | builtin1 (note : Note) (name : String) (arg : Expr)
  | builtin2 (note : Note) (name : String) (left right : Expr)
  | call (note : Note) (name : String) (args : List Expr)
  | methodCall (note : Note) (receiver : Expr) (method : String) (args : List Expr)
  | field (note : Note) (receiver : Expr) (name : String)
  | index (note : Note) (receiver index : Expr)
  | construct (note : Note) (className : String)
  | listLiteral (note : Note) (elements : List Expr)
  | var (note : Note) (name : String)
  | literal (note : Note) (value : Literal)
  deriving Repr, Inhabited

namespace Expr

def note : Expr → Note
  | unary n .. | binary n .. | builtin1 n .. | builtin2 n .. | call n .. | methodCall n .. => n
  | field n .. | index n .. | construct n .. | listLiteral n .. | var n .. | literal n .. => n

def ty (e : Expr) : Ty := e.note.ty

def loc (e : Expr) : Loc := e.note.loc

end Expr

inductive Stmt where
  | assign (note : Note) (name : String) (value : Expr)
  | ret (note : Note) (value : Expr)
  | eval (note : Note) (expr : Expr)
  | pass (note : Note)
  | assignField (note : Note) (receiver : Expr) (name : String) (value : Expr)
  | assignIndex (note : Note) (receiver index value : Expr)
  | ifElse (note : Note) (cond : Expr) (thenBody elseBody : List Stmt)
  | whileLoop (note : Note) (cond : Expr) (body : List Stmt)
  deriving Repr, Inhabited

/-- A variable or field with the literal it starts from. -/
structure Decl where
  name : String
  ty : Ty
  value : Literal
  loc : Loc
  deriving Repr, DecidableEq, Inhabited

structure Param where
  name : String
  ty : Ty
  deriving Repr, DecidableEq, Inhabited

structure Function where
  name : String
  params : List Param
  ret : Ty
  locals : List Decl
  body : List Stmt
  loc : Loc
  deriving Repr, Inhabited

structure Class where
  name : String
  fields : List Decl
  methods : List Function
  loc : Loc
  deriving Repr, Inhabited

structure Program where
  functions : List Function := []
  globals : List Decl := []
  classes : List Class := []
  body : List Stmt := []
  deriving Repr, Inhabited

end BlockLowering.Source
