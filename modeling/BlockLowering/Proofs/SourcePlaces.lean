import BlockLowering.Proofs.ProgramValidity

/-! Places have no part in lowering. A tree can be stripped of the places written on its nodes, and
so can an outcome, whose fault is all that may hold one. Lowering the stripped tree is the same as
lowering the tree and stripping the outcome, step by step: names, trails and code come out alike. -/

namespace BlockLowering

namespace Source

def Note.unplaced (n : Note) : Note := ⟨n.ty, {}⟩

mutual

def Expr.unplaced : Expr → Expr
  | .unary n op e => .unary n.unplaced op e.unplaced
  | .binary n op l r => .binary n.unplaced op l.unplaced r.unplaced
  | .builtin1 n name e => .builtin1 n.unplaced name e.unplaced
  | .builtin2 n name l r => .builtin2 n.unplaced name l.unplaced r.unplaced
  | .call n name args => .call n.unplaced name (Expr.allUnplaced args)
  | .methodCall n e method args =>
    .methodCall n.unplaced e.unplaced method (Expr.allUnplaced args)
  | .field n e name => .field n.unplaced e.unplaced name
  | .index n e i => .index n.unplaced e.unplaced i.unplaced
  | .construct n className => .construct n.unplaced className
  | .listLiteral n elements => .listLiteral n.unplaced (Expr.allUnplaced elements)
  | .var n name => .var n.unplaced name
  | .literal n value => .literal n.unplaced value

def Expr.allUnplaced : List Expr → List Expr
  | [] => []
  | e :: es => e.unplaced :: Expr.allUnplaced es

end

mutual

def Stmt.unplaced : Stmt → Stmt
  | .assign n name e => .assign n.unplaced name e.unplaced
  | .ret n e => .ret n.unplaced e.unplaced
  | .eval n e => .eval n.unplaced e.unplaced
  | .pass n => .pass n.unplaced
  | .assignField n e name value => .assignField n.unplaced e.unplaced name value.unplaced
  | .assignIndex n e i value => .assignIndex n.unplaced e.unplaced i.unplaced value.unplaced
  | .ifElse n cond thenBody elseBody =>
    .ifElse n.unplaced cond.unplaced (Stmt.allUnplaced thenBody) (Stmt.allUnplaced elseBody)
  | .whileLoop n cond body => .whileLoop n.unplaced cond.unplaced (Stmt.allUnplaced body)

def Stmt.allUnplaced : List Stmt → List Stmt
  | [] => []
  | s :: rest => s.unplaced :: Stmt.allUnplaced rest

end

def Decl.unplaced (d : Decl) : Decl := { d with loc := {} }

def Function.unplaced (f : Function) : Function :=
  { f with locals := f.locals.map Decl.unplaced, body := Stmt.allUnplaced f.body, loc := {} }

def Class.unplaced (c : Class) : Class :=
  { c with
    fields := c.fields.map Decl.unplaced, methods := c.methods.map Function.unplaced, loc := {} }

def Program.unplaced (p : Program) : Program where
  functions := p.functions.map Function.unplaced
  globals := p.globals.map Decl.unplaced
  classes := p.classes.map Class.unplaced
  body := Stmt.allUnplaced p.body

@[simp] theorem Expr.ty_unplaced (e : Expr) : e.unplaced.ty = e.ty := by
  cases e <;> rfl

@[simp] theorem Expr.loc_unplaced (e : Expr) : e.unplaced.loc = {} := by
  cases e <;> rfl

theorem Expr.allUnplaced_eq_map (es : List Expr) : Expr.allUnplaced es = es.map Expr.unplaced := by
  induction es with
  | nil => rfl
  | cons e es ih => rw [Expr.allUnplaced, ih, List.map_cons]

theorem Expr.length_allUnplaced (es : List Expr) : (Expr.allUnplaced es).length = es.length := by
  rw [Expr.allUnplaced_eq_map, List.length_map]

theorem Stmt.isPlain_unplaced (s : Stmt) : s.unplaced.isPlain = s.isPlain := by
  cases s <;> rfl

end Source

/-- The same fault at another place. -/
def Fault.placed (loc : Source.Loc) : Fault → Fault
  | .notAnObject access found _ => .notAnObject access found loc
  | .notAList access found _ => .notAList access found loc
  | .unknownClass className _ => .unknownClass className loc
  | .unknownField className field _ => .unknownField className field loc
  | .invalidCode complaints => .invalidCode complaints

def Fault.unplaced (f : Fault) : Fault := f.placed {}

def Lower.unplaced {ω α : Type} (m : Lower ω α) : Lower ω α := fun names =>
  let o := m names
  ⟨o.result.mapError Fault.unplaced, o.names, o.trail⟩

namespace Lower

variable {ω ω' α β : Type}

theorem unplaced_mapTrail (f : ω → ω') (m : Lower ω α) :
    (m.mapTrail f).unplaced = m.unplaced.mapTrail f := rfl

theorem unplaced_leave (trail : ω) : (leave trail).unplaced = leave trail := rfl

variable [EmptyCollection ω] [Append ω]

theorem unplaced_pure (a : α) : (pure a : Lower ω α).unplaced = pure a := rfl

theorem unplaced_bind (m : Lower ω α) (next : α → Lower ω β) :
    (m >>= next).unplaced = m.unplaced >>= fun a => (next a).unplaced := by
  funext names
  change unplaced (andThen m next) names = andThen m.unplaced (fun a => (next a).unplaced) names
  unfold unplaced andThen
  beta_reduce
  rcases m names with ⟨f | a, mid, t⟩ <;> rfl

theorem each_unplaced {step : α → Lower ω β} {strip : α → α}
    (h : ∀ a, step (strip a) = (step a).unplaced) (items : List α) :
    each step (items.map strip) = (each step items).unplaced := by
  induction items with
  | nil => rfl
  | cons a rest ih =>
    change (step (strip a) >>= fun b => each step (rest.map strip) >>= fun bs => pure (b :: bs)) =
      unplaced (step a >>= fun b => each step rest >>= fun bs => pure (b :: bs))
    simp only [unplaced_bind, unplaced_pure, h, ih]

end Lower

open Source (Expr Stmt Loc)
open Flat (Operand Rhs Instr)
open Lower (unplaced_bind unplaced_pure unplaced_leave unplaced_mapTrail)

theorem unplaced_draw (base : String) : (draw base).unplaced = draw base := rfl

theorem unplaced_check {α : Type} (result : Except Fault α) :
    (check result).unplaced = check (result.mapError Fault.unplaced) := rfl

variable {ctx : Context}

theorem requireObject_unplaced (access : Access) (e : Expr) :
    requireObject access e.unplaced = (requireObject access e).mapError Fault.unplaced := by
  unfold requireObject
  rw [Expr.ty_unplaced, Expr.loc_unplaced]
  cases e.ty.objectName? <;> rfl

theorem requireList_unplaced (access : Access) (e : Expr) :
    requireList access e.unplaced = (requireList access e).mapError Fault.unplaced := by
  unfold requireList
  rw [Expr.ty_unplaced, Expr.loc_unplaced]
  cases e.ty.isList <;> rfl

theorem requireClass_unplaced (layout : Layout) (className : String) (loc : Loc) :
    requireClass layout className {} =
      (requireClass layout className loc).mapError Fault.unplaced := by
  unfold requireClass
  cases layout.fields? className <;> rfl

theorem requireField_unplaced (layout : Layout) (access : Access) (e : Expr) (field : String) :
    requireField layout access e.unplaced field =
      (requireField layout access e field).mapError Fault.unplaced := by
  unfold requireField
  rw [requireObject_unplaced, Expr.loc_unplaced]
  cases requireObject access e with
  | error f => rfl
  | ok className =>
    change (requireClass layout className {} >>= _) =
      (requireClass layout className e.loc >>= _).mapError Fault.unplaced
    rw [requireClass_unplaced layout className e.loc]
    cases requireClass layout className e.loc with
    | error f => rfl
    | ok fields =>
      simp only [Except.mapError, bind, Except.bind]
      cases fields.get? field <;> rfl

theorem unplaced_asOperand (ty : Source.Ty) (x : WithPrelude Rhs) :
    (asOperand ty x).unplaced = asOperand ty x := by
  unfold asOperand
  cases x.value <;> rfl

theorem unplaced_elementOffset (index list : Operand) :
    (elementOffset ctx index list).unplaced = elementOffset ctx index list := rfl

theorem flattenAll_unplaced_of {es : List Expr}
    (h : ∀ e ∈ es, flatten ctx e.unplaced = (flatten ctx e).unplaced) :
    flattenAll ctx (Expr.allUnplaced es) = (flattenAll ctx es).unplaced := by
  induction es with
  | nil => rw [Expr.allUnplaced, flattenAll, unplaced_pure]
  | cons e es ih =>
    rw [List.forall_mem_cons] at h
    simp only [Expr.allUnplaced, flattenAll, unplaced_bind, unplaced_pure, unplaced_asOperand,
      Expr.ty_unplaced, h.1, ih h.2]

theorem flatten_unplaced (e : Expr) : flatten ctx e.unplaced = (flatten ctx e).unplaced := by
  induction e with
  | unary note op arg ih | builtin1 note name arg ih =>
    simp only [Expr.unplaced, flatten, unplaced_bind, unplaced_pure, unplaced_asOperand,
      Expr.ty_unplaced, ih]
  | binary note op l r ihl ihr | builtin2 note name l r ihl ihr =>
    simp only [Expr.unplaced, flatten, unplaced_bind, unplaced_pure, unplaced_asOperand,
      Expr.ty_unplaced, ihl, ihr]
  | call note name args ih =>
    simp only [Expr.unplaced, flatten, unplaced_bind, unplaced_pure, flattenAll_unplaced_of ih]
  | methodCall note receiver method args ihr ih =>
    simp only [Expr.unplaced, flatten, unplaced_bind, unplaced_pure, unplaced_asOperand,
      unplaced_check, requireObject_unplaced, Expr.ty_unplaced, ihr, flattenAll_unplaced_of ih]
  | field note receiver name ih =>
    simp only [Expr.unplaced, flatten, unplaced_bind, unplaced_pure, unplaced_asOperand,
      unplaced_check, requireField_unplaced, Expr.ty_unplaced, ih]
  | index note receiver index ihr ihi =>
    simp only [Expr.unplaced, flatten, unplaced_bind, unplaced_pure, unplaced_asOperand,
      unplaced_check, unplaced_elementOffset, requireList_unplaced, Expr.ty_unplaced, ihr, ihi]
  | construct note className =>
    simp only [Expr.unplaced, flatten, flattenConstruct, unplaced_bind, unplaced_pure,
      unplaced_check, unplaced_draw, Source.Note.unplaced,
      requireClass_unplaced ctx.layout className note.loc]
  | listLiteral note elements ih =>
    simp only [Expr.unplaced, flatten, unplaced_bind, unplaced_pure, unplaced_draw,
      flattenAll_unplaced_of ih, Expr.length_allUnplaced, Source.Note.unplaced]
  | var note name => simp only [Expr.unplaced, flatten, unplaced_pure]
  | literal note value => simp only [Expr.unplaced, flatten, unplaced_pure]

theorem flattenOperand_unplaced (e : Expr) :
    flattenOperand ctx e.unplaced = (flattenOperand ctx e).unplaced := by
  simp only [flattenOperand, unplaced_bind, unplaced_asOperand, Expr.ty_unplaced, flatten_unplaced]

theorem flattenStmt_unplaced (stmt : Stmt) :
    flattenStmt ctx stmt.unplaced = (flattenStmt ctx stmt).unplaced := by
  cases stmt with
  | assign note name value | eval note e =>
    simp only [Stmt.unplaced, flattenStmt, unplaced_bind, unplaced_pure, flatten_unplaced]
  | ret note value =>
    simp only [Stmt.unplaced, flattenStmt, unplaced_bind, unplaced_pure, flattenOperand_unplaced]
  | assignField note receiver name value =>
    simp only [Stmt.unplaced, flattenStmt, unplaced_bind, unplaced_pure, unplaced_check,
      requireField_unplaced, flattenOperand_unplaced]
  | assignIndex note receiver index value =>
    simp only [Stmt.unplaced, flattenStmt, unplaced_bind, unplaced_pure, unplaced_check,
      unplaced_elementOffset, requireList_unplaced, flattenOperand_unplaced]
  | pass note | ifElse note cond thenBody elseBody | whileLoop note cond body =>
    simp only [Stmt.unplaced, flattenStmt, unplaced_pure]

theorem unplaced_drawing {α : Type} (m : Draw α) :
    (Build.drawing m).unplaced = Build.drawing m.unplaced := rfl

theorem unplaced_emit (code : List Instr) : (Build.emit code).unplaced = Build.emit code := rfl

theorem unplaced_openBlock (label : String) :
    (Build.openBlock label).unplaced = Build.openBlock label := rfl

theorem unplaced_flush (m : Draw Prelude) :
    (Build.flush m).unplaced = Build.flush m.unplaced := by
  simp only [Build.flush, unplaced_bind, unplaced_pure, unplaced_drawing, unplaced_emit]

theorem flattenTest_unplaced (cond : Expr) (thenLabel elseLabel : String) :
    flattenTest ctx cond.unplaced thenLabel elseLabel =
      (flattenTest ctx cond thenLabel elseLabel).unplaced := by
  simp only [flattenTest, unplaced_bind, unplaced_pure, flattenOperand_unplaced]

theorem buildStmts_unplaced (body : List Stmt) :
    buildStmts ctx (Stmt.allUnplaced body) = (buildStmts ctx body).unplaced := by
  induction body using Stmt.bodyInduction with
  | nil => simp only [Stmt.allUnplaced, buildStmts, unplaced_pure]
  | plain stmt rest hp ih =>
    have hp' : stmt.unplaced.isPlain = true := by rwa [Stmt.isPlain_unplaced]
    simp only [Stmt.allUnplaced, buildStmts, buildStmt_plain hp, buildStmt_plain hp',
      unplaced_bind, unplaced_pure, unplaced_flush, flattenStmt_unplaced, ih]
  | ifElse note cond thenBody elseBody rest iht ihe ih =>
    simp only [Stmt.allUnplaced, Stmt.unplaced, buildStmts, buildStmt, unplaced_bind, unplaced_pure,
      unplaced_drawing, unplaced_draw, unplaced_emit, unplaced_openBlock, unplaced_flush,
      flattenTest_unplaced, iht, ihe, ih]
  | whileLoop note cond body rest ihb ih =>
    simp only [Stmt.allUnplaced, Stmt.unplaced, buildStmts, buildStmt, unplaced_bind, unplaced_pure,
      unplaced_drawing, unplaced_draw, unplaced_emit, unplaced_openBlock, unplaced_flush,
      flattenTest_unplaced, ihb, ih]

theorem logBody_unplaced (spans : List Span) (entry : String) (body : List Stmt) :
    logBody spans ctx entry (Stmt.allUnplaced body) = (logBody spans ctx entry body).unplaced := by
  have hbody : buildBody ctx entry (Stmt.allUnplaced body) = (buildBody ctx entry body).unplaced := by
    funext names
    simp only [buildBody, Lower.unplaced, buildStmts_unplaced]
    cases (buildStmts ctx body (names.advance entry)).result <;> rfl
  rw [logBody, hbody, logBody, unplaced_mapTrail]

theorem ofSource_unplaced (ds : List Source.Decl) :
    (ds.map Source.Decl.unplaced).map Flat.Decl.ofSource = ds.map Flat.Decl.ofSource := by
  rw [List.map_map]
  rfl

theorem flattenFunction_unplaced (spans : List Span) (f : Source.Function) :
    flattenFunction ctx spans f.unplaced = (flattenFunction ctx spans f).unplaced := by
  simp only [flattenFunction, Source.Function.unplaced, unplaced_bind, unplaced_pure,
    unplaced_leave, logBody_unplaced, ofSource_unplaced]

theorem flattenClass_unplaced (c : Source.Class) :
    flattenClass ctx c.unplaced = (flattenClass ctx c).unplaced := by
  simp only [flattenClass, Source.Class.unplaced, unplaced_bind, unplaced_pure,
    Lower.each_unplaced (flattenFunction_unplaced _), ofSource_unplaced]

theorem unplaced_finishProgram (q : Flat.Program) :
    (finishProgram false q).unplaced = finishProgram false q := rfl

/-- To lower a program without places is to lower it and to take the place off its fault, if there
is one. -/
theorem flattenProgram_unplaced (ctx : Context) (p : Source.Program) :
    flattenProgram ctx p.unplaced = (flattenProgram ctx p).unplaced := by
  rw [flattenProgram_unchecked ctx p.unplaced, flattenProgram_unchecked ctx p,
    flattenProgram_checking, flattenProgram_checking]
  simp only [Source.Program.unplaced, unplaced_bind, unplaced_finishProgram, logBody_unplaced,
    Lower.each_unplaced (flattenFunction_unplaced _), Lower.each_unplaced flattenClass_unplaced,
    ofSource_unplaced]

end BlockLowering
