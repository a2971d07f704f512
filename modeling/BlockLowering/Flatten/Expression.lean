import BlockLowering.Flatten.Lower
import BlockLowering.Layout
import BlockLowering.Settings

/-! Flattening of expressions. The operands of an expression are flattened from left to right, each
into instructions that run before the expression and an operand to use in it. A temporary is made
only for a composite result that is itself an operand. Field accesses become loads at the offset
of the field. List elements stand one word past their index, and a check of the index comes right
before every access to one. -/

namespace BlockLowering

open Source (Ty Loc Note Expr)
open Flat (Operand Rhs Instr Decl)

/-- What lowering consults. -/
structure Context where
  layout : Layout
  settings : Settings

/-- What has to be declared and to run before a value can be used. -/
structure Prelude where
  decls : List Decl
  code : List Instr
  deriving Repr, DecidableEq

namespace Prelude

instance : EmptyCollection Prelude := ⟨⟨[], []⟩⟩

instance : Append Prelude := ⟨fun p q => ⟨p.decls ++ q.decls, p.code ++ q.code⟩⟩

/-- Instructions alone. -/
def ofCode (code : List Instr) : Prelude := ⟨[], code⟩

/-- A new temporary and its value. -/
def temporary (name : String) (ty : Ty) (value : Rhs) : Prelude :=
  ⟨[.temporary name ty], [.assign name value]⟩

end Prelude

structure WithPrelude (α : Type) where
  prelude : Prelude
  value : α
  deriving Repr, DecidableEq

/-- A call for its effect. -/
def helperCall (name : String) (args : List Operand) : Instr := .eval (.call name args)

def requireObject (access : Access) (receiver : Expr) : Except Fault String :=
  match receiver.ty.objectName? with
  | some name => .ok name
  | none => .error (.notAnObject access receiver.ty receiver.loc)

def requireList (access : Access) (receiver : Expr) : Except Fault Unit :=
  if receiver.ty.isList then .ok () else .error (.notAList access receiver.ty receiver.loc)

def requireClass (layout : Layout) (className : String) (loc : Loc) : Except Fault ClassLayout :=
  match layout.fields? className with
  | some fields => .ok fields
  | none => .error (.unknownClass className loc)

def requireField (layout : Layout) (access : Access) (receiver : Expr) (field : String) :
    Except Fault Slot := do
  let className ← requireObject access receiver
  let fields ← requireClass layout className receiver.loc
  match fields.get? field with
  | some slot => .ok slot
  | none => .error (.unknownField className field receiver.loc)

/-- A check as a step of lowering. -/
def check {α : Type} (result : Except Fault α) : Draw α := fun names => ⟨result, names, []⟩

/-- Turns a flat result of the given type into an operand. -/
def asOperand (ty : Ty) (flat : WithPrelude Rhs) : Draw (WithPrelude Operand) :=
  match flat.value with
  | .operand v => pure ⟨flat.prelude, v⟩
  | value => do
    let name ← draw Base.operand
    pure ⟨flat.prelude ++ .temporary name ty value, .var name⟩

/-- Checks `index` against the length of `list` and computes the offset of the element. -/
def elementOffset (ctx : Context) (index list : Operand) : Draw (WithPrelude Operand) := do
  let length ← draw Base.length
  let offset ← draw Base.offset
  pure ⟨.temporary length .number (.load list (.word 0)) ++
    .ofCode [helperCall ctx.settings.boundsHelper [.var length, index]] ++
    .temporary offset .number (.binary .plus index (.word 1)), .var offset⟩

/-- A word for every field, the initial values in them, and the initializer run on the object. -/
def flattenConstruct (ctx : Context) (note : Note) (className : String) :
    Draw (WithPrelude Rhs) := do
  let fields ← check (requireClass ctx.layout className note.loc)
  let name ← draw Base.object
  pure ⟨.temporary name note.ty (.alloc (.word (UInt32.ofNat fields.size))) ++
    .ofCode (fields.values.map fun slot => .store (.var name) (.word slot.offset) slot.initial) ++
    .ofCode [helperCall (ctx.settings.methodName className ctx.settings.initMethod) [.var name]],
    .operand (.var name)⟩

/-- Stores the values in the words from `offset` on. -/
def storeElements (list : Operand) (offset : Nat) : List Operand → List Instr
  | [] => []
  | v :: rest => .store list (.word (UInt32.ofNat offset)) v :: storeElements list (offset + 1) rest

mutual

def flatten (ctx : Context) : Expr → Draw (WithPrelude Rhs)
  | .unary _ op e => do
    let x ← flatten ctx e
    let x ← asOperand e.ty x
    pure ⟨x.prelude, .unary op x.value⟩
  | .binary _ op l r => do
    let x ← flatten ctx l
    let x ← asOperand l.ty x
    let y ← flatten ctx r
    let y ← asOperand r.ty y
    pure ⟨x.prelude ++ y.prelude, .binary op x.value y.value⟩
  | .builtin1 _ name e => do
    let x ← flatten ctx e
    let x ← asOperand e.ty x
    pure ⟨x.prelude, .builtin1 name x.value⟩
  | .builtin2 _ name l r => do
    let x ← flatten ctx l
    let x ← asOperand l.ty x
    let y ← flatten ctx r
    let y ← asOperand r.ty y
    pure ⟨x.prelude ++ y.prelude, .builtin2 name x.value y.value⟩
  | .call _ name args => do
    let xs ← flattenAll ctx args
    pure ⟨xs.prelude, .call name xs.value⟩
  | .methodCall _ receiver method args => do
    let className ← check (requireObject .methodCall receiver)
    let x ← flatten ctx receiver
    let x ← asOperand receiver.ty x
    let xs ← flattenAll ctx args
    pure ⟨x.prelude ++ xs.prelude ++
      .ofCode [helperCall ctx.settings.notNoneHelper [x.value]],
      .call (ctx.settings.methodName className method) (x.value :: xs.value)⟩
  | .field _ receiver name => do
    let slot ← check (requireField ctx.layout .fieldLookup receiver name)
    let x ← flatten ctx receiver
    let x ← asOperand receiver.ty x
    pure ⟨x.prelude, .load x.value (.word slot.offset)⟩
  | .index _ receiver index => do
    check (requireList .index receiver)
    let x ← flatten ctx receiver
    let x ← asOperand receiver.ty x
    let i ← flatten ctx index
    let i ← asOperand index.ty i
    let o ← elementOffset ctx i.value x.value
    pure ⟨x.prelude ++ i.prelude ++ o.prelude, .load x.value o.value⟩
  | .construct note className => flattenConstruct ctx note className
  | .listLiteral note elements => do
    let name ← draw Base.list
    let xs ← flattenAll ctx elements
    pure ⟨.temporary name note.ty (.alloc (.word (UInt32.ofNat (elements.length + 1)))) ++
      xs.prelude ++
      .ofCode (.store (.var name) (.word 0) (.num elements.length) ::
        storeElements (.var name) 1 xs.value), .operand (.var name)⟩
  | .var _ name => pure ⟨∅, .operand (.var name)⟩
  | .literal _ value => pure ⟨∅, .operand (.ofLiteral value)⟩

/-- Flattens expressions to operands. -/
def flattenAll (ctx : Context) : List Expr → Draw (WithPrelude (List Operand))
  | [] => pure ⟨∅, []⟩
  | e :: es => do
    let x ← flatten ctx e
    let x ← asOperand e.ty x
    let xs ← flattenAll ctx es
    pure ⟨x.prelude ++ xs.prelude, x.value :: xs.value⟩

end

/-- Flattens an expression to an operand. -/
def flattenOperand (ctx : Context) (e : Expr) : Draw (WithPrelude Operand) := do
  let x ← flatten ctx e
  asOperand e.ty x

end BlockLowering
