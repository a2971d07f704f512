import BlockLowering.Source.Syntax

/-! Flat code: every instruction applies at most one operator to operands that need no
further evaluation, and a body is a list of labelled blocks joined by explicit jumps. -/

namespace BlockLowering.Flat

open Source (Ty Param UnaryOp BinaryOp)

inductive Operand where
  | num (value : Int)
  | bool (value : Bool)
  | none
  /-- A raw machine word: an offset or an allocation size. -/
  | word (value : UInt32)
  | var (name : String)
  deriving Repr, DecidableEq, Inhabited

namespace Operand

def ofLiteral : Source.Literal → Operand
  | .num n => num n
  | .bool b => bool b
  | .none => none

def varName? : Operand → Option String
  | var name => some name
  | _ => Option.none

def word? : Operand → Option UInt32
  | word n => some n
  | _ => Option.none

def text : Operand → String
  | num n => toString n
  | bool b => toString b
  | none => "none"
  | word n => "#" ++ toString n.toNat
  | var name => name

end Operand

/-- What a single instruction computes. -/
inductive Rhs where
  | operand (value : Operand)
  | unary (op : UnaryOp) (arg : Operand)
  | binary (op : BinaryOp) (left right : Operand)
  | builtin1 (name : String) (arg : Operand)
  | builtin2 (name : String) (left right : Operand)
  | call (name : String) (args : List Operand)
  /-- The word at `base + offset`. -/
  | load (base offset : Operand)
  /-- A reference to `size` new words. -/
  | alloc (size : Operand)
  deriving Repr, DecidableEq, Inhabited

namespace Rhs

/-- The operands in evaluation order. -/
def operands : Rhs → List Operand
  | operand v => [v]
  | unary _ v => [v]
  | binary _ l r => [l, r]
  | builtin1 _ v => [v]
  | builtin2 _ l r => [l, r]
  | call _ args => args
  | load base offset => [base, offset]
  | alloc size => [size]

def text : Rhs → String
  | operand v => v.text
  | unary op v => op.text ++ v.text
  | binary op l r => l.text ++ " " ++ op.text ++ " " ++ r.text
  | builtin1 name v => "builtin " ++ name ++ "(" ++ v.text ++ ")"
  | builtin2 name l r => "builtin " ++ name ++ "(" ++ l.text ++ ", " ++ r.text ++ ")"
  | call name args => "call " ++ name ++ "(" ++ ", ".intercalate (args.map Operand.text) ++ ")"
  | load base offset => "load " ++ base.text ++ "[" ++ offset.text ++ "]"
  | alloc size => "alloc " ++ size.text

end Rhs

inductive Instr where
  | assign (target : String) (value : Rhs)
  | ret (value : Operand)
  /-- Computes a value for its effects alone. -/
  | eval (value : Rhs)
  | store (base offset value : Operand)
  | jump (label : String)
  | branch (cond : Operand) (thenLabel elseLabel : String)
  deriving Repr, DecidableEq, Inhabited

namespace Instr

/-- The labels control may move to. -/
def targets : Instr → List String
  | jump label => [label]
  | branch _ t e => [t, e]
  | _ => []

/-- Whether control leaves the block here. -/
def isTransfer : Instr → Bool
  | jump _ | branch .. | ret _ => true
  | _ => false

def text : Instr → String
  | assign target value => target ++ " = " ++ value.text
  | ret value => "return " ++ value.text
  | eval value => value.text
  | store base offset value =>
    "store " ++ base.text ++ "[" ++ offset.text ++ "] = " ++ value.text
  | jump label => "jmp " ++ label
  | branch cond t e => "ifjmp " ++ cond.text ++ " ? " ++ t ++ " : " ++ e

end Instr

structure Block where
  label : String
  code : List Instr
  deriving Repr, DecidableEq, Inhabited

namespace Block

/-- The last instruction, if control leaves the block there. -/
def terminator? (b : Block) : Option Instr := b.code.getLast?.filter Instr.isTransfer

def isTerminated (b : Block) : Bool := b.terminator?.isSome

end Block

/-- Storage for a variable or field, with the value it starts from. -/
structure Decl where
  name : String
  ty : Ty
  value : Operand
  deriving Repr, DecidableEq, Inhabited

namespace Decl

/-- A temporary: it holds nothing until it is assigned. -/
def temporary (name : String) (ty : Ty) : Decl := ⟨name, ty, .none⟩

def ofSource (d : Source.Decl) : Decl := ⟨d.name, d.ty, .ofLiteral d.value⟩

end Decl

/-- A function or method. Its declarations list the temporaries before the locals. -/
structure Function where
  name : String
  params : List Param
  ret : Ty
  decls : List Decl
  body : List Block
  deriving Repr, DecidableEq, Inhabited

structure Class where
  name : String
  fields : List Decl
  methods : List Function
  deriving Repr, DecidableEq, Inhabited

structure Program where
  functions : List Function
  decls : List Decl
  classes : List Class
  body : List Block
  deriving Repr, DecidableEq, Inhabited

namespace Program

def function? (p : Program) (name : String) : Option Function :=
  p.functions.find? (·.name == name)

def class? (p : Program) (name : String) : Option Class :=
  p.classes.find? (·.name == name)

/-- All bodies with their names: the top level, the functions, then the methods class by
class. -/
def bodies (p : Program) : List (String × List Block) :=
  ("<top>", p.body) :: p.functions.map (fun f => (f.name, f.body)) ++
    p.classes.flatMap fun c => c.methods.map fun m => (c.name ++ "." ++ m.name, m.body)

/-- All blocks, in the order of `bodies`. -/
def blocks (p : Program) : List Block :=
  p.body ++ p.functions.flatMap (·.body) ++ p.classes.flatMap fun c => c.methods.flatMap (·.body)

end Program

end BlockLowering.Flat
