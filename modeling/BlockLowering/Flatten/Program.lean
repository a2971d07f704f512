import BlockLowering.Flat.Violation
import BlockLowering.Flatten.Statement
import BlockLowering.Trace

/-! Lowering of whole programs: the top-level body, then the functions, then the methods class by
class, with one supply of names for all of them. -/

namespace BlockLowering

open Source (Stmt)

/-- The events of a body, whose blocks are counted as they are opened. -/
def stepEvents (spans : List Span) (opened : Nat) : List Step → List Event
  | [] => []
  | .named name :: rest => ⟨spans, .freshName name⟩ :: stepEvents spans opened rest
  | .opened label :: rest =>
    ⟨spans, .openBlock label (opened + 1)⟩ :: stepEvents spans (opened + 1) rest

abbrev Logged (α : Type) := Lower (List Event) α

def logBody (spans : List Span) (ctx : Context) (entry : String) (body : List Stmt) :
    Logged (List Flat.Decl × List Flat.Block) :=
  (buildBody ctx entry body).mapTrail (stepEvents spans 0)

def flattenFunction (ctx : Context) (spans : List Span) (f : Source.Function) :
    Logged Flat.Function := do
  let spans := spans ++ [.function f.name]
  let (temporaries, blocks) ← logBody spans ctx Base.functionStart f.body
  .leave [⟨spans, .loweredFunction blocks.length temporaries.length⟩]
  pure ⟨f.name, f.params, f.ret, temporaries ++ f.locals.map .ofSource, blocks⟩

def flattenClass (ctx : Context) (c : Source.Class) : Logged Flat.Class := do
  let methods ← Lower.each (flattenFunction ctx [.inClass c.name]) c.methods
  pure ⟨c.name, c.fields.map .ofSource, methods⟩

/-- Fails on a program that breaks the rules of flat code. -/
def validate (p : Flat.Program) : Logged Unit :=
  match p.complaints with
  | [] => pure ()
  | complaints => .fail (.invalidCode complaints)

def flattenProgram (ctx : Context) (p : Source.Program) : Logged Flat.Program := do
  let (temporaries, body) ← logBody [] ctx Base.programStart p.body
  let functions ← Lower.each (flattenFunction ctx []) p.functions
  let classes ← Lower.each (flattenClass ctx) p.classes
  let lowered : Flat.Program :=
    ⟨functions, temporaries ++ p.globals.map .ofSource, classes, body⟩
  if ctx.settings.validate then validate lowered
  .leave [⟨[], .loweredProgram functions.length classes.length body.length⟩]
  pure lowered

/-- Lowers a program by itself: with the layout of its own classes and a new supply of names. -/
def lower (settings : Settings) (p : Source.Program) : Outcome (List Event) Flat.Program :=
  flattenProgram ⟨.ofClasses p.classes, settings⟩ p {}

end BlockLowering
