import BlockLowering.Flatten.Expression
import BlockLowering.Flatten.Fragment

/-! Lowering of statements. A plain statement appends its instructions to the open block, or
nothing at all if it is at fault. Conditionals and loops open blocks: a conditional one for each
branch and one where they meet, a loop one for its test, one for its body and one for what
follows. -/

namespace BlockLowering

open Source (Expr Stmt)
open Flat (Instr Decl Block)

/-- What lowering statements does besides emitting code. -/
inductive Step where
  | named (name : String)
  | opened (label : String)
  deriving Repr, DecidableEq

structure Trail where
  steps : List Step
  code : Fragment

namespace Trail

instance : EmptyCollection Trail := ⟨⟨[], ∅⟩⟩

instance : Append Trail := ⟨fun t u => ⟨t.steps ++ u.steps, t.code ++ u.code⟩⟩

/-- The trail of a step that draws names. -/
def ofNames (names : List String) : Trail := ⟨names.map .named, ∅⟩

end Trail

/-- A step that builds part of a body. -/
abbrev Build (α : Type) := Lower Trail α

namespace Build

def drawing {α : Type} (m : Draw α) : Build α := m.mapTrail .ofNames

def emit (code : List Instr) : Build Unit := .leave ⟨[], .ofCode code⟩

def openBlock (label : String) : Build Unit := .leave ⟨[.opened label], .openBlock label⟩

/-- Emits all that a flattened statement needs; what it declares is left to the body. -/
def flush (m : Draw Prelude) : Build (List Decl) := do
  let p ← drawing m
  emit p.code
  pure p.decls

end Build

/-- The instructions of a statement without blocks of its own. -/
def flattenStmt (ctx : Context) : Stmt → Draw Prelude
  | .assign _ name value => do
    let x ← flatten ctx value
    pure (x.prelude ++ .ofCode [.assign name x.value])
  | .ret _ value => do
    let x ← flattenOperand ctx value
    pure (x.prelude ++ .ofCode [.ret x.value])
  | .eval _ e => do
    let x ← flatten ctx e
    pure (x.prelude ++ .ofCode [.eval x.value])
  | .assignField _ receiver name value => do
    let slot ← check (requireField ctx.layout .fieldAssignment receiver name)
    let x ← flattenOperand ctx receiver
    let y ← flattenOperand ctx value
    pure (x.prelude ++ y.prelude ++ .ofCode [.store x.value (.word slot.offset) y.value])
  | .assignIndex _ receiver index value => do
    check (requireList .indexAssignment receiver)
    let x ← flattenOperand ctx receiver
    let i ← flattenOperand ctx index
    let y ← flattenOperand ctx value
    let o ← elementOffset ctx i.value x.value
    pure (x.prelude ++ i.prelude ++ y.prelude ++ o.prelude ++
      .ofCode [.store x.value o.value y.value])
  | .pass _ | .ifElse .. | .whileLoop .. => pure ∅

/-- The test of a conditional or loop, and the branch it decides. -/
def flattenTest (ctx : Context) (cond : Expr) (thenLabel elseLabel : String) : Draw Prelude := do
  let x ← flattenOperand ctx cond
  pure (x.prelude ++ .ofCode [.branch x.value thenLabel elseLabel])

mutual

/-- Lowers a statement; the result is what it declares. -/
def buildStmt (ctx : Context) : Stmt → Build (List Decl)
  | .ifElse _ cond thenBody elseBody => do
    let thenLabel ← Build.drawing (draw Base.thenBlock)
    let elseLabel ← Build.drawing (draw Base.elseBlock)
    let endLabel ← Build.drawing (draw Base.endBlock)
    let tested ← Build.flush (flattenTest ctx cond thenLabel elseLabel)
    Build.openBlock thenLabel
    let inThen ← buildStmts ctx thenBody
    Build.emit [.jump endLabel]
    Build.openBlock elseLabel
    let inElse ← buildStmts ctx elseBody
    Build.emit [.jump endLabel]
    Build.openBlock endLabel
    pure (tested ++ inThen ++ inElse)
  | .whileLoop _ cond body => do
    let startLabel ← Build.drawing (draw Base.loopStart)
    let bodyLabel ← Build.drawing (draw Base.loopBody)
    let endLabel ← Build.drawing (draw Base.loopEnd)
    Build.emit [.jump startLabel]
    Build.openBlock startLabel
    let tested ← Build.flush (flattenTest ctx cond bodyLabel endLabel)
    Build.openBlock bodyLabel
    let inBody ← buildStmts ctx body
    Build.emit [.jump startLabel]
    Build.openBlock endLabel
    pure (tested ++ inBody)
  | s => Build.flush (flattenStmt ctx s)

def buildStmts (ctx : Context) : List Stmt → Build (List Decl)
  | [] => pure []
  | s :: rest => do
    let first ← buildStmt ctx s
    let more ← buildStmts ctx rest
    pure (first ++ more)

end

/-- Lowers a whole body into a first block named after `entry` and what follows it. Without a fault
the result is what the body declares, and its blocks. -/
def buildBody (ctx : Context) (entry : String) (body : List Stmt) :
    Lower (List Step) (List Decl × List Block) := fun names =>
  let label := names.fresh entry
  let o := buildStmts ctx body (names.advance entry)
  ⟨o.result.map fun decls => (decls, o.trail.code.toBlocks label), o.names,
    .named label :: o.trail.steps⟩

end BlockLowering
