import BlockLowering.Flatten.Program

/-! Sessions: a supply of names that serves many requests in turn, with settings and a layout that
may change between them, and a body that is built bit by bit. A request at fault does not end the
session; the names it drew stay drawn. Only a request that counts past the last number of a base
breaks the session off. -/

namespace BlockLowering

open Source (Expr Stmt)
open Flat (Operand Rhs Instr Decl Block)

structure Session where
  context : Context := ⟨{}, {}⟩
  names : Names := {}
  body : OpenBody := .new "entry"

inductive Request where
  | fresh (base : String)
  | last (base : String)
  | flatten (e : Expr)
  | flattenOperand (e : Expr)
  | elementOffset (index list : Operand)
  | body (entry : String) (body : List Stmt)
  | program (p : Source.Program)
  /-- Lowers statements into the session's body. -/
  | extend (body : List Stmt)
  | openBlock (label : String)
  | emit (code : List Instr)
  /-- Closes the session's body and starts another. -/
  | restart (label : String)
  | renew (settings : Option Settings) (layout : Option Layout)

inductive Reply where
  | fault (fault : Fault)
  | name (name : String)
  | last (number : Option Nat)
  | flattened (result : WithPrelude Rhs)
  | operand (result : WithPrelude Operand)
  | body (decls : List Decl) (blocks : List Block)
  | program (p : Flat.Program)
  | extended (result : Except Fault (List Decl)) (blocks : List Block)
  | closed (blocks : List Block)
  | layout (layout : Layout)

namespace Session

/-- The reply to a request that only draws names. -/
def answer {ω α : Type} (s : Session) (m : Lower ω α) (reply : α → Reply) : Reply × Session :=
  let o := m s.names
  let r := match o.result with
    | .ok a => reply a
    | .error f => .fault f
  (r, { s with names := o.names })

/-- The reply to a request that adds to the session's body. -/
def grow (s : Session) (result : Except Fault (List Decl)) (more : Fragment) : Reply × Session :=
  let body := s.body.append more
  (.extended result body.blocks, { s with body := body })

def run (s : Session) : Request → Reply × Session
  | .fresh base => s.answer (draw base) .name
  | .last base => (.last (s.names.last? base), s)
  | .flatten e => s.answer (BlockLowering.flatten s.context e) .flattened
  | .flattenOperand e => s.answer (BlockLowering.flattenOperand s.context e) .operand
  | .elementOffset index list =>
    s.answer (BlockLowering.elementOffset s.context index list) .operand
  | .body entry body => s.answer (buildBody s.context entry body) fun (ds, bs) => .body ds bs
  | .program p => s.answer (flattenProgram s.context p) .program
  | .extend body =>
    let o := buildStmts s.context body s.names
    { s with names := o.names }.grow o.result o.trail.code
  | .openBlock label => s.grow (.ok []) (.openBlock label)
  | .emit code => s.grow (.ok []) (.ofCode code)
  | .restart label => (.closed s.body.blocks, { s with body := .new label })
  | .renew settings layout =>
    let layout := layout.getD s.context.layout
    (.layout layout, { s with context := ⟨layout, settings.getD s.context.settings⟩ })

/-- Runs a request, with nothing to show for it if the session breaks off there. -/
def serve (s : Session) (request : Request) : Option (Reply × Session) :=
  let served := s.run request
  if served.2.names.fits then some served else none

end Session

end BlockLowering
