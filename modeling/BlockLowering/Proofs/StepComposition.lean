import BlockLowering.Flatten.Program
import BlockLowering.Proofs.LoweredNames

/-! How the steps of lowering are put together. All of them are sequences of a few kinds of basic
steps, so what holds of the basic ones and of sequences holds of lowering as a whole, whether it
succeeds or ends in a fault. In particular the names on a trail are the ones drawn, and no step
finds fault with lowered code. -/

namespace BlockLowering

open Source (Expr Stmt)
open Flat (Operand Instr)

/-- Steps that are sequences of basic steps. -/
inductive Lower.Composed {ω : Type} [EmptyCollection ω] [Append ω]
    (basic : (α : Type) → Lower ω α → Prop) : (α : Type) → Lower ω α → Prop
  | step {α : Type} {m : Lower ω α} : basic α m → Composed basic α m
  | pure {α : Type} (a : α) : Composed basic α (pure a)
  | bind {α β : Type} {m : Lower ω α} {next : α → Lower ω β} : Composed basic α m →
      (∀ a, Composed basic β (next a)) → Composed basic β (m >>= next)

/-- The step never reports lowered code as invalid. -/
def Lower.Accepting {ω α : Type} (m : Lower ω α) : Prop :=
  ∀ names complaints, (m names).result ≠ .error (.invalidCode complaints)

namespace Lower

variable {ω α β : Type} [EmptyCollection ω] [Append ω]

theorem accepting_pure (a : α) : (pure a : Lower ω α).Accepting := by
  intro names complaints h
  cases h

theorem Accepting.bind {m : Lower ω α} {next : α → Lower ω β} (hm : m.Accepting)
    (hn : ∀ a, (next a).Accepting) : (m >>= next).Accepting := by
  intro names complaints
  have h := hm names complaints
  change (andThen m next names).result ≠ _
  unfold andThen
  rcases hr : m names with ⟨f | a, mid, t⟩
  · simpa [hr] using h
  · exact hn a mid complaints

variable {basic : (α : Type) → Lower ω α → Prop}

theorem Composed.accepting (hb : ∀ α m, basic α m → m.Accepting) {m : Lower ω α}
    (h : Composed basic α m) : m.Accepting := by
  induction h with
  | step h => exact hb _ _ h
  | pure a => exact accepting_pure a
  | bind _ _ ihm ihn => exact ihm.bind ihn

theorem Composed.supplied [Naming ω] (hb : ∀ α m, basic α m → m.Supplied) {m : Lower ω α}
    (h : Composed basic α m) : m.Supplied := by
  induction h with
  | step h => exact hb _ _ h
  | pure a => exact supplied_pure a
  | bind _ _ ihm ihn => exact ihm.bind ihn

theorem Composed.each {step : α → Lower ω β} (h : ∀ a, Composed basic β (step a))
    (items : List α) : Composed basic (List β) (each step items) := by
  induction items with
  | nil => exact .pure []
  | cons a rest ih => exact (h a).bind fun b => ih.bind fun bs => .pure (b :: bs)

end Lower

open Lower (Composed)

inductive DrawStep : (α : Type) → Draw α → Prop
  | draw {base : String} : PlainBase base → DrawStep String (draw base)
  | check {α : Type} {result : Except Fault α} :
      (∀ complaints, result ≠ .error (.invalidCode complaints)) → DrawStep α (check result)

variable {ctx : Context}

theorem composed_draw {base : String} (h : PlainBase base) : Composed DrawStep String (draw base) :=
  .step (.draw h)

theorem requireObject_ne_invalidCode (access : Access) (e : Expr) (complaints : List String) :
    requireObject access e ≠ .error (.invalidCode complaints) := by
  intro h
  unfold requireObject at h
  split at h <;> cases h

theorem requireList_ne_invalidCode (access : Access) (e : Expr) (complaints : List String) :
    requireList access e ≠ .error (.invalidCode complaints) := by
  intro h
  unfold requireList at h
  split at h <;> cases h

theorem requireClass_ne_invalidCode (layout : Layout) (className : String) (loc : Source.Loc)
    (complaints : List String) :
    requireClass layout className loc ≠ .error (.invalidCode complaints) := by
  intro h
  unfold requireClass at h
  split at h <;> cases h

theorem requireField_ne_invalidCode (layout : Layout) (access : Access) (e : Expr)
    (field : String) (complaints : List String) :
    requireField layout access e field ≠ .error (.invalidCode complaints) := by
  unfold requireField
  rcases hc : requireObject access e with f | className
  · exact fun h => requireObject_ne_invalidCode access e complaints
      (by simpa [hc, bind, Except.bind] using h)
  · rcases hf : requireClass layout className e.loc with f | fields
    · exact fun h => requireClass_ne_invalidCode layout className e.loc complaints
        (by simpa [hf, bind, Except.bind] using h)
    · intro h
      simp only [hf, bind, Except.bind] at h
      split at h <;> cases h

theorem composed_asOperand (ty : Source.Ty) (flat : WithPrelude Flat.Rhs) :
    Composed DrawStep (WithPrelude Operand) (asOperand ty flat) := by
  unfold asOperand
  split
  · exact .pure _
  · exact (composed_draw (by decide)).bind fun _ => .pure _

theorem composed_elementOffset (index list : Operand) :
    Composed DrawStep (WithPrelude Operand) (elementOffset ctx index list) :=
  (composed_draw (by decide)).bind fun _ => (composed_draw (by decide)).bind fun _ => .pure _

theorem composed_flattenAll_of {es : List Expr}
    (hes : ∀ e ∈ es, Composed DrawStep (WithPrelude Flat.Rhs) (flatten ctx e)) :
    Composed DrawStep (WithPrelude (List Operand)) (flattenAll ctx es) := by
  induction es with
  | nil =>
    rw [flattenAll]
    exact .pure _
  | cons e es ih =>
    rw [flattenAll]
    exact (hes e List.mem_cons_self).bind fun x => (composed_asOperand e.ty x).bind fun _ =>
      (ih fun e' he' => hes e' (List.mem_cons_of_mem _ he')).bind fun _ => .pure _

theorem composed_flatten (e : Expr) :
    Composed DrawStep (WithPrelude Flat.Rhs) (flatten ctx e) := by
  induction e with
  | unary note op arg ih =>
    rw [flatten]
    exact ih.bind fun x => (composed_asOperand _ x).bind fun _ => .pure _
  | binary note op l r ihl ihr =>
    rw [flatten]
    exact ihl.bind fun x => (composed_asOperand _ x).bind fun _ =>
      ihr.bind fun y => (composed_asOperand _ y).bind fun _ => .pure _
  | builtin1 note name arg ih =>
    rw [flatten]
    exact ih.bind fun x => (composed_asOperand _ x).bind fun _ => .pure _
  | builtin2 note name l r ihl ihr =>
    rw [flatten]
    exact ihl.bind fun x => (composed_asOperand _ x).bind fun _ =>
      ihr.bind fun y => (composed_asOperand _ y).bind fun _ => .pure _
  | call note name args ih =>
    rw [flatten]
    exact (composed_flattenAll_of ih).bind fun _ => .pure _
  | methodCall note receiver method args ihr ih =>
    rw [flatten]
    exact (Composed.step (.check (requireObject_ne_invalidCode _ _))).bind fun _ =>
      ihr.bind fun x => (composed_asOperand _ x).bind fun _ =>
        (composed_flattenAll_of ih).bind fun _ => .pure _
  | field note receiver name ih =>
    rw [flatten]
    exact (Composed.step (.check (requireField_ne_invalidCode _ _ _ _))).bind fun _ =>
      ih.bind fun x => (composed_asOperand _ x).bind fun _ => .pure _
  | index note receiver index ihr ihi =>
    rw [flatten]
    exact (Composed.step (.check (requireList_ne_invalidCode _ _))).bind fun _ =>
      ihr.bind fun x => (composed_asOperand _ x).bind fun _ =>
        ihi.bind fun i => (composed_asOperand _ i).bind fun _ =>
          (composed_elementOffset _ _).bind fun _ => .pure _
  | construct note className =>
    rw [flatten]
    exact (Composed.step (.check (requireClass_ne_invalidCode _ _ _))).bind fun _ =>
      (composed_draw (by decide)).bind fun _ => .pure _
  | listLiteral note elements ih =>
    rw [flatten]
    exact (composed_draw (by decide)).bind fun _ =>
      (composed_flattenAll_of ih).bind fun _ => .pure _
  | var note name =>
    rw [flatten]
    exact .pure _
  | literal note value =>
    rw [flatten]
    exact .pure _

theorem composed_flattenOperand (e : Expr) :
    Composed DrawStep (WithPrelude Operand) (flattenOperand ctx e) :=
  (composed_flatten e).bind fun x => composed_asOperand e.ty x

theorem composed_flattenStmt (stmt : Stmt) : Composed DrawStep Prelude (flattenStmt ctx stmt) := by
  cases stmt with
  | assign note name value => exact (composed_flatten value).bind fun _ => .pure _
  | ret note value => exact (composed_flattenOperand value).bind fun _ => .pure _
  | eval note e => exact (composed_flatten e).bind fun _ => .pure _
  | assignField note receiver name value =>
    exact (Composed.step (.check (requireField_ne_invalidCode _ _ _ _))).bind fun _ =>
      (composed_flattenOperand receiver).bind fun _ =>
        (composed_flattenOperand value).bind fun _ => .pure _
  | assignIndex note receiver index value =>
    exact (Composed.step (.check (requireList_ne_invalidCode _ _))).bind fun _ =>
      (composed_flattenOperand receiver).bind fun _ =>
        (composed_flattenOperand index).bind fun _ =>
          (composed_flattenOperand value).bind fun _ =>
            (composed_elementOffset _ _).bind fun _ => .pure _
  | pass note => exact .pure _
  | ifElse note cond thenBody elseBody => exact .pure _
  | whileLoop note cond body => exact .pure _

theorem DrawStep.supplied {α : Type} {m : Draw α} (h : DrawStep α m) : m.Supplied := by
  cases h with
  | draw hb => exact supplied_draw hb
  | check hr => exact fun names => .refl names

theorem DrawStep.accepting {α : Type} {m : Draw α} (h : DrawStep α m) : m.Accepting := by
  cases h with
  | draw hb =>
    intro names complaints h
    cases h
  | check hr => exact fun _ complaints => hr complaints

inductive BuildStep : (α : Type) → Build α → Prop
  | drawing {α : Type} {m : Draw α} : Composed DrawStep α m → BuildStep α (Build.drawing m)
  | emit (code : List Instr) : BuildStep Unit (Build.emit code)
  | openBlock (label : String) : BuildStep Unit (Build.openBlock label)

theorem composed_drawing {α : Type} {m : Draw α} (h : Composed DrawStep α m) :
    Composed BuildStep α (Build.drawing m) :=
  .step (.drawing h)

theorem composed_emit (code : List Instr) : Composed BuildStep Unit (Build.emit code) :=
  .step (.emit code)

theorem composed_openBlock (label : String) : Composed BuildStep Unit (Build.openBlock label) :=
  .step (.openBlock label)

theorem composed_flush {m : Draw Prelude} (h : Composed DrawStep Prelude m) :
    Composed BuildStep (List Flat.Decl) (Build.flush m) :=
  (composed_drawing h).bind fun _ => (composed_emit _).bind fun _ => .pure _

theorem composed_flattenTest (cond : Expr) (thenLabel elseLabel : String) :
    Composed DrawStep Prelude (flattenTest ctx cond thenLabel elseLabel) :=
  (composed_flattenOperand cond).bind fun _ => .pure _

theorem composed_label {base : String} (h : PlainBase base) :
    Composed BuildStep String (Build.drawing (draw base)) :=
  composed_drawing (composed_draw h)

theorem composed_buildStmts (body : List Stmt) :
    Composed BuildStep (List Flat.Decl) (buildStmts ctx body) := by
  induction body using Stmt.bodyInduction with
  | nil =>
    rw [buildStmts]
    exact .pure _
  | plain stmt rest hp ih =>
    rw [buildStmts, buildStmt_plain hp]
    exact (composed_flush (composed_flattenStmt stmt)).bind fun _ => ih.bind fun _ => .pure _
  | ifElse note cond thenBody elseBody rest iht ihe ih =>
    rw [buildStmts, buildStmt]
    refine Composed.bind ?_ fun _ => ih.bind fun _ => .pure _
    exact (composed_label (by decide)).bind fun _ => (composed_label (by decide)).bind fun _ =>
      (composed_label (by decide)).bind fun _ =>
        (composed_flush (composed_flattenTest cond _ _)).bind fun _ =>
          (composed_openBlock _).bind fun _ => iht.bind fun _ => (composed_emit _).bind fun _ =>
            (composed_openBlock _).bind fun _ => ihe.bind fun _ => (composed_emit _).bind fun _ =>
              (composed_openBlock _).bind fun _ => .pure _
  | whileLoop note cond body rest ihb ih =>
    rw [buildStmts, buildStmt]
    refine Composed.bind ?_ fun _ => ih.bind fun _ => .pure _
    exact (composed_label (by decide)).bind fun _ => (composed_label (by decide)).bind fun _ =>
      (composed_label (by decide)).bind fun _ => (composed_emit _).bind fun _ =>
        (composed_openBlock _).bind fun _ =>
          (composed_flush (composed_flattenTest cond _ _)).bind fun _ =>
            (composed_openBlock _).bind fun _ => ihb.bind fun _ => (composed_emit _).bind fun _ =>
              (composed_openBlock _).bind fun _ => .pure _

theorem BuildStep.supplied {α : Type} {m : Build α} (h : BuildStep α m) : m.Supplied := by
  cases h with
  | drawing hm =>
    exact (hm.supplied fun _ _ => DrawStep.supplied).mapTrail _ Trail.drawn_ofNames
  | emit code => exact Lower.supplied_leave _ rfl
  | openBlock label => exact Lower.supplied_leave _ rfl

theorem BuildStep.accepting {α : Type} {m : Build α} (h : BuildStep α m) : m.Accepting := by
  cases h with
  | drawing hm => exact hm.accepting fun _ _ => DrawStep.accepting
  | emit code =>
    intro names complaints h
    cases h
  | openBlock label =>
    intro names complaints h
    cases h

theorem supplied_buildStmts (body : List Stmt) : (buildStmts ctx body).Supplied :=
  (composed_buildStmts body).supplied fun _ _ => BuildStep.supplied

theorem supplied_buildBody {entry : String} (h : PlainBase entry) (body : List Stmt) :
    (buildBody ctx entry body).Supplied :=
  fun names => (Draws.advance names h).trans (supplied_buildStmts body (names.advance entry))

theorem accepting_buildBody (entry : String) (body : List Stmt) :
    (buildBody ctx entry body).Accepting := by
  have hs : (buildStmts ctx body).Accepting :=
    (composed_buildStmts body).accepting fun _ _ => BuildStep.accepting
  intro names complaints
  have h := hs (names.advance entry) complaints
  simp only [buildBody]
  cases hr : (buildStmts ctx body (names.advance entry)).result with
  | ok decls => simp [Except.map]
  | error f => simpa [hr, Except.map] using h

def Event.name? (e : Event) : Option String :=
  match e.happening with
  | .freshName name => some name
  | _ => none

instance : Naming (List Event) where
  drawn events := events.filterMap Event.name?
  drawn_empty := rfl
  drawn_append _ _ := List.filterMap_append

theorem drawn_stepEvents (spans : List Span) (opened : Nat) (steps : List Step) :
    drawn (stepEvents spans opened steps) = drawn steps := by
  induction steps generalizing opened with
  | nil => rfl
  | cons step rest ih =>
    cases step with
    | named name => exact congrArg (name :: ·) (ih opened)
    | opened label => exact ih (opened + 1)

inductive LogStep : (α : Type) → Logged α → Prop
  | body {spans : List Span} {ctx : Context} {entry : String} {body : List Stmt} :
      PlainBase entry → LogStep _ (logBody spans ctx entry body)
  | leave {trail : List Event} : drawn trail = [] → LogStep Unit (.leave trail)

theorem LogStep.supplied {α : Type} {m : Logged α} (h : LogStep α m) : m.Supplied := by
  cases h with
  | body he => exact (supplied_buildBody he _).mapTrail _ (drawn_stepEvents _ 0)
  | leave ht => exact Lower.supplied_leave _ ht

theorem LogStep.accepting {α : Type} {m : Logged α} (h : LogStep α m) : m.Accepting := by
  cases h with
  | body he => exact accepting_buildBody _ _
  | leave ht =>
    intro names complaints h
    cases h

theorem composed_flattenFunction (spans : List Span) (f : Source.Function) :
    Composed LogStep Flat.Function (flattenFunction ctx spans f) :=
  (Composed.step (.body (by decide))).bind fun _ => (Composed.step (.leave rfl)).bind fun _ =>
    .pure _

theorem composed_flattenClass (c : Source.Class) :
    Composed LogStep Flat.Class (flattenClass ctx c) :=
  (Composed.each (composed_flattenFunction _) c.methods).bind fun _ => .pure _

/-- The end of lowering a program. -/
def finishProgram (checked : Bool) (p : Flat.Program) : Logged Flat.Program :=
  let announce : Logged Flat.Program := do
    .leave [⟨[], .loweredProgram p.functions.length p.classes.length p.body.length⟩]
    pure p
  if checked then validate p >>= fun _ => announce else announce

theorem flattenProgram_eq (p : Source.Program) :
    flattenProgram ctx p = (do
      let (temporaries, body) ← logBody [] ctx Base.programStart p.body
      let functions ← Lower.each (flattenFunction ctx []) p.functions
      let classes ← Lower.each (flattenClass ctx) p.classes
      finishProgram ctx.settings.validate
        ⟨functions, temporaries ++ p.globals.map .ofSource, classes, body⟩) := rfl

theorem composed_finishProgram (p : Flat.Program) :
    Composed LogStep Flat.Program (finishProgram false p) :=
  (Composed.step (.leave rfl)).bind fun _ => .pure _

end BlockLowering
