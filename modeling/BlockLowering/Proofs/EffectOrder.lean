import BlockLowering.Proofs.OperandReading
import Mathlib.Data.List.Perm.Basic

/-! The effects of lowered code. Its calls, builtins and allocations are those that the source asks
for, in the order of evaluation: every node adds its own effects once, after those of its
operands, and only the allocation of a list comes before its elements. -/

namespace BlockLowering

open Source (Expr Stmt Note bodyExprs)
open Flat (Operand Rhs Instr Block Decl)

/-- What code does besides computing values and moving them. -/
inductive Effect where
  | call (name : String) (args : Nat)
  | builtin (name : String) (args : Nat)
  | alloc (size : Operand)
  deriving Repr, DecidableEq

namespace Flat

def Rhs.effect? : Rhs → Option Effect
  | .builtin1 name _ => some (.builtin name 1)
  | .builtin2 name _ _ => some (.builtin name 2)
  | .call name args => some (.call name args.length)
  | .alloc size => some (.alloc size)
  | _ => none

def Instr.effect? : Instr → Option Effect
  | .assign _ r | .eval r => r.effect?
  | _ => none

def codeEffects (code : List Instr) : List Effect := code.filterMap Instr.effect?

/-- The effects of a body as they stand in it, block after block. -/
def effectsOf (blocks : List Block) : List Effect := blocks.flatMap fun b => codeEffects b.code

end Flat

namespace Source

/-- The effects of a node without those of its operands. A method call checks the receiver and
then calls the function of the method; a new object is allocated and then initialised. -/
def Expr.ownEffects (ctx : Context) : Expr → List Effect
  | .builtin1 _ name _ => [.builtin name 1]
  | .builtin2 _ name _ _ => [.builtin name 2]
  | .call _ name args => [.call name args.length]
  | .methodCall _ receiver method args =>
    .call ctx.settings.notNoneHelper 1 :: receiver.ty.objectName?.toList.map fun className =>
      .call (ctx.settings.methodName className method) (args.length + 1)
  | .index .. => [.call ctx.settings.boundsHelper 2]
  | .construct _ className =>
    match ctx.layout.fields? className with
    | some fields => [.alloc (.word (UInt32.ofNat fields.size)),
        .call (ctx.settings.methodName className ctx.settings.initMethod) 1]
    | none => []
  | .listLiteral _ elements => [.alloc (.word (UInt32.ofNat (elements.length + 1)))]
  | _ => []

mutual

/-- The effects of evaluating an expression, in order. -/
def Expr.effects (ctx : Context) (e : Expr) : List Effect :=
  match e with
  | .unary _ _ arg | .builtin1 _ _ arg | .field _ arg _ => arg.effects ctx ++ e.ownEffects ctx
  | .binary _ _ l r | .builtin2 _ _ l r | .index _ l r =>
    l.effects ctx ++ r.effects ctx ++ e.ownEffects ctx
  | .call _ _ args => Expr.allEffects ctx args ++ e.ownEffects ctx
  | .methodCall _ receiver _ args =>
    receiver.effects ctx ++ Expr.allEffects ctx args ++ e.ownEffects ctx
  | .listLiteral _ elements => e.ownEffects ctx ++ Expr.allEffects ctx elements
  | .construct .. | .var .. | .literal .. => e.ownEffects ctx

def Expr.allEffects (ctx : Context) : List Expr → List Effect
  | [] => []
  | e :: es => e.effects ctx ++ Expr.allEffects ctx es

end

/-- The effects of a statement without those of its expressions and statements. -/
def Stmt.ownEffects (ctx : Context) : Stmt → List Effect
  | .assignIndex .. => [.call ctx.settings.boundsHelper 2]
  | _ => []

mutual

/-- The effects of a statement in the order of its text; both branches of a conditional and the
body of a loop stand there once. -/
def Stmt.effects (ctx : Context) (stmt : Stmt) : List Effect :=
  match stmt with
  | .ifElse _ cond thenBody elseBody =>
    cond.effects ctx ++ bodyEffects ctx thenBody ++ bodyEffects ctx elseBody
  | .whileLoop _ cond body => cond.effects ctx ++ bodyEffects ctx body
  | _ => Expr.allEffects ctx stmt.exprs ++ stmt.ownEffects ctx

def bodyEffects (ctx : Context) : List Stmt → List Effect
  | [] => []
  | stmt :: rest => stmt.effects ctx ++ bodyEffects ctx rest

end

variable {ctx : Context}

theorem Expr.effects_perm_operands (e : Expr) :
    (e.effects ctx).Perm (e.ownEffects ctx ++ Expr.allEffects ctx e.operands) := by
  cases e with
  | listLiteral note elements => exact .refl _
  | construct | var | literal => simp [Expr.effects, Expr.operands, Expr.allEffects]
  | _ =>
    simp only [Expr.effects, Expr.operands, Expr.allEffects, List.append_nil]
    exact List.perm_append_comm

theorem Expr.allEffects_perm {es : List Expr}
    (h : ∀ e ∈ es, (e.effects ctx).Perm (e.nodes.flatMap (Expr.ownEffects ctx))) :
    (Expr.allEffects ctx es).Perm ((Expr.allNodes es).flatMap (Expr.ownEffects ctx)) := by
  induction es with
  | nil => exact .refl _
  | cons e es ih =>
    rw [Expr.allNodes, List.flatMap_append]
    have hes := ih fun e' he' => h e' (List.mem_cons_of_mem e he')
    exact (h e List.mem_cons_self).append hes

theorem Expr.effects_perm (e : Expr) :
    (e.effects ctx).Perm (e.nodes.flatMap (Expr.ownEffects ctx)) := by
  induction e using Expr.operandInduction with
  | h e ih =>
    rw [Expr.nodes_eq, List.flatMap_cons]
    exact e.effects_perm_operands.trans ((Expr.allEffects_perm ih).append_left _)

theorem Expr.effects_perm_single (e : Expr) :
    (e.effects ctx).Perm ((Expr.allNodes [e]).flatMap (Expr.ownEffects ctx)) := by
  rw [Expr.allNodes, Expr.allNodes, List.append_nil]
  exact e.effects_perm

theorem Stmt.effects_perm_plain {stmt : Stmt} (h : stmt.isPlain = true) :
    (stmt.effects ctx).Perm
      (stmt.ownEffects ctx ++ (Expr.allNodes stmt.exprs).flatMap (Expr.ownEffects ctx)) := by
  have hs : stmt.effects ctx = Expr.allEffects ctx stmt.exprs ++ stmt.ownEffects ctx := by
    cases stmt with
    | ifElse | whileLoop => cases h
    | _ => rfl
  rw [hs]
  exact List.perm_append_comm.trans
    ((Expr.allEffects_perm fun e _ => e.effects_perm).append_left _)

/-- The effects of all statements and expressions of a body, node by node. -/
def nodeEffects (ctx : Context) (body : List Stmt) : List Effect :=
  (Stmt.allNodes body).flatMap (Stmt.ownEffects ctx) ++
    (bodyExprs body).flatMap (Expr.ownEffects ctx)

theorem nodeEffects_perm (body : List Stmt) :
    (nodeEffects ctx body).Perm ((Stmt.allNodes body).flatMap fun stmt =>
      stmt.ownEffects ctx ++ (Expr.allNodes stmt.exprs).flatMap (Expr.ownEffects ctx)) := by
  rw [nodeEffects, bodyExprs, List.flatMap_assoc]
  exact List.flatMap_append_perm _ _ _

theorem bodyEffects_perm (body : List Stmt) : (bodyEffects ctx body).Perm (nodeEffects ctx body) := by
  refine List.Perm.trans ?_ (nodeEffects_perm body).symm
  induction body using Stmt.bodyInduction with
  | nil => exact .refl _
  | plain stmt rest hp ih =>
    have hnodes : stmt.nodes = [stmt] := by
      cases stmt with
      | ifElse | whileLoop => cases hp
      | _ => rfl
    rw [bodyEffects, Stmt.allNodes, hnodes, List.flatMap_append, List.flatMap_singleton]
    exact (Stmt.effects_perm_plain hp).append ih
  | ifElse note cond thenBody elseBody rest iht ihe ih =>
    simp only [bodyEffects, Stmt.effects, Stmt.allNodes, Stmt.nodes, List.flatMap_append,
      List.flatMap_cons, List.append_assoc]
    exact cond.effects_perm_single.append (iht.append (ihe.append ih))
  | whileLoop note cond body rest ihb ih =>
    simp only [bodyEffects, Stmt.effects, Stmt.allNodes, Stmt.nodes, List.flatMap_append,
      List.flatMap_cons, List.append_assoc]
    exact cond.effects_perm_single.append (ihb.append ih)

end Source

namespace Flat

@[simp] theorem codeEffects_nil : codeEffects [] = [] := rfl

@[simp] theorem codeEffects_append (code more : List Instr) :
    codeEffects (code ++ more) = codeEffects code ++ codeEffects more :=
  List.filterMap_append

@[simp] theorem codeEffects_cons (i : Instr) (code : List Instr) :
    codeEffects (i :: code) = i.effect?.toList ++ codeEffects code := by
  cases h : i.effect? <;> simp [codeEffects, h]

theorem codeEffects_eq_nil {code : List Instr} (h : ∀ i ∈ code, i.effect? = none) :
    codeEffects code = [] :=
  List.filterMap_eq_nil_iff.mpr h

end Flat

open Flat (codeEffects)

variable {ctx : Context}

theorem codeEffects_guardedOffset (length offset : String) (index list : Operand) :
    codeEffects (guardedOffset ctx length offset index list).code =
      [.call ctx.settings.boundsHelper 2] := rfl

theorem codeEffects_newObject (note : Note) (className : String) (fields : ClassLayout)
    (name : String) :
    codeEffects (newObject ctx note className fields name).code =
      [.alloc (.word (UInt32.ofNat fields.size)),
        .call (ctx.settings.methodName className ctx.settings.initMethod) 1] := by
  have hstores : codeEffects (fields.values.map fun slot =>
      Instr.store (.var name) (.word slot.offset) slot.initial) = [] :=
    Flat.codeEffects_eq_nil (by simp [Instr.effect?])
  simp only [newObject, Prelude.append_code, Prelude.ofCode, Flat.codeEffects_append, hstores]
  rfl

theorem codeEffects_storeElements (list : Operand) (offset : Nat) (values : List Operand) :
    codeEffects (storeElements list offset values) = [] := by
  refine Flat.codeEffects_eq_nil fun i hi => ?_
  obtain ⟨base, k, value, rfl⟩ := exists_store_of_mem hi
  rfl

theorem codeEffects_newList (note : Note) (name : String) (size : Nat)
    (xs : WithPrelude (List Operand)) :
    codeEffects (newList note name size xs).code =
      .alloc (.word (UInt32.ofNat (size + 1))) :: codeEffects xs.prelude.code := by
  have hstores : codeEffects (Instr.store (.var name) (.word 0) (.num size) ::
      storeElements (.var name) 1 xs.value) = [] :=
    codeEffects_storeElements (.var name) 1 xs.value
  simp only [newList, Prelude.append_code, Prelude.ofCode, Flat.codeEffects_append, hstores,
    List.append_nil]
  rfl

mutual

/-- The operation that is left to do comes after the code before it. -/
theorem Flattens.effects {a b : Names} {e : Expr} {x : WithPrelude Rhs} {t : List String} :
    Flattens ctx a e x b t →
      codeEffects x.prelude.code ++ x.value.effect?.toList = e.effects ctx
  | .unary h | .builtin1 h | .field _ h => by rw [h.effects]; rfl
  | .binary hl hr | .builtin2 hl hr => by
    rw [Prelude.append_code, Flat.codeEffects_append, hl.effects, hr.effects]
    rfl
  | .call h => by
    rw [h.effects, Rhs.effect?, h.length_eq]
    rfl
  | .methodCall hc hr h => by
    simp only [Prelude.append_code, Flat.codeEffects_append, hr.effects, h.effects, Expr.effects,
      Expr.ownEffects, hc, Rhs.effect?, List.length_cons, h.length_eq]
    simp [Prelude.ofCode, helperCall, Instr.effect?, Rhs.effect?]
  | .index hr hi => by
    simp only [Prelude.append_code, Flat.codeEffects_append, hr.effects, hi.effects,
      codeEffects_guardedOffset, Expr.effects, Expr.ownEffects]
    exact List.append_nil _
  | .construct hf => by
    simp only [codeEffects_newObject, Expr.effects, Expr.ownEffects, hf]
    rfl
  | .listLiteral h => by
    rw [codeEffects_newList, h.effects]
    exact List.append_nil _
  | .var | .literal => rfl

theorem FlattensOperand.effects {a b : Names} {e : Expr} {x : WithPrelude Operand}
    {t : List String} : FlattensOperand ctx a e x b t →
      codeEffects x.prelude.code = e.effects ctx
  | .value h => by
    rw [← h.effects]
    exact (List.append_nil _).symm
  | .temporary h _ => by
    rw [← h.effects, Prelude.append_code, Flat.codeEffects_append]
    simp [Prelude.temporary, Instr.effect?]

theorem FlattensAll.effects {a b : Names} {es : List Expr} {xs : WithPrelude (List Operand)}
    {t : List String} : FlattensAll ctx a es xs b t →
      codeEffects xs.prelude.code = Expr.allEffects ctx es
  | .nil => rfl
  | .cons h hs => by
    rw [Prelude.append_code, Flat.codeEffects_append, h.effects, hs.effects, Expr.allEffects]

end

theorem FlattensStmt.effects {a b : Names} {stmt : Stmt} {p : Prelude} {t : List String}
    (h : FlattensStmt ctx a stmt p b t) : codeEffects p.code = stmt.effects ctx := by
  cases h with
  | assign h | eval h =>
    simp only [Stmt.effects, Stmt.exprs, Expr.allEffects, ← h.effects, Prelude.append_code]
    simp [Prelude.ofCode, Instr.effect?, Stmt.ownEffects]
  | ret h =>
    simp only [Stmt.effects, Stmt.exprs, Expr.allEffects, ← h.effects, Prelude.append_code]
    simp [Prelude.ofCode, Instr.effect?, Stmt.ownEffects]
  | pass => rfl
  | assignField _ hx hy =>
    simp only [Stmt.effects, Stmt.exprs, Expr.allEffects, ← hx.effects, ← hy.effects,
      Prelude.append_code]
    simp [Prelude.ofCode, Instr.effect?, Stmt.ownEffects]
  | assignIndex hx hi hy =>
    simp only [Stmt.effects, Stmt.exprs, Expr.allEffects, ← hx.effects, ← hi.effects, ← hy.effects,
      Prelude.append_code, Flat.codeEffects_append, codeEffects_guardedOffset]
    simp [Prelude.ofCode, Instr.effect?, Stmt.ownEffects]

theorem FlattensOperand.effects_testCode {a b : Names} {cond : Expr} {x : WithPrelude Operand}
    {t : List String} (h : FlattensOperand ctx a cond x b t) (thenLabel elseLabel : String) :
    codeEffects (testCode x thenLabel elseLabel) = cond.effects ctx := by
  rw [testCode, Flat.codeEffects_append, h.effects]
  exact List.append_nil _

theorem Builds.effects {a b : Names} {body : List Stmt} {ds : List Decl} {f : Fragment}
    {t : List String} (h : Builds ctx a body ds f b t) :
    codeEffects f.instrs = Source.bodyEffects ctx body := by
  induction h with
  | nil => rfl
  | plain hs _ ih =>
    rw [Fragment.instrs_append, Fragment.instrs_ofCode, Flat.codeEffects_append, hs.effects, ih,
      Source.bodyEffects]
  | ifElse _ hx _ _ _ iht ihe ih =>
    simp only [Fragment.instrs_append, Fragment.instrs_closing, Flat.codeEffects_append,
      hx.effects_testCode, iht, ihe, ih, Source.bodyEffects, Stmt.effects]
    simp [Instr.effect?]
  | whileLoop _ hx _ _ ihb ih =>
    simp only [Fragment.instrs_append, Fragment.instrs_closing, Flat.codeEffects_append,
      hx.effects_testCode, ihb, ih, Source.bodyEffects, Stmt.effects]
    simp [Instr.effect?]

theorem effectsOf_eq (blocks : List Block) :
    Flat.effectsOf blocks = codeEffects (blocks.flatMap (·.code)) :=
  List.filterMap_flatMap.symm

/-- Lowering a body drops no effect, adds none, and keeps their order; and every node of the source
has a share of its own in them. -/
theorem effects_kept_in_order {entry : String} {body : List Stmt} {names : Names}
    {decls : List Decl} {blocks : List Block}
    (h : (buildBody ctx entry body names).result = .ok (decls, blocks)) :
    Flat.effectsOf blocks = Source.bodyEffects ctx body ∧
      (Flat.effectsOf blocks).Perm (Source.nodeEffects ctx body) := by
  obtain ⟨f, t, hb, rfl, _⟩ := buildBody_builds (Lower.yields_of_result h)
  have he : Flat.effectsOf (f.toBlocks (names.fresh entry)) = Source.bodyEffects ctx body := by
    rw [effectsOf_eq, Fragment.instrs_toBlocks, hb.effects]
  refine ⟨he, ?_⟩
  rw [he]
  exact Source.bodyEffects_perm body

/-- Calls, methods, builtins, a list and an object, in a loop, its test and a conditional. -/
def Source.refill : List Stmt :=
  let number : Note := ⟨.number, {}⟩
  let list : Note := ⟨.list .number, {}⟩
  let pool : Note := ⟨.object "Pool", {}⟩
  let n : Expr := .var number "n"
  [.whileLoop number (.builtin2 number "max" (.call number "left" []) n)
    [.assignIndex number (.var list "xs") (.call number "next" [n])
      (.methodCall number (.construct pool "Pool") "take"
        [.index number (.listLiteral list [.call number "next" [n, n], n]) n])],
  .ifElse number (.builtin1 number "abs" n)
    [.assignField number (.var pool "pool") "free" (.call number "count" [])]
    [.eval number (.methodCall number (.var pool "pool") "close" [])]]

theorem refill_effects_in_order :
    let ctx : Context := ⟨.ofClasses [⟨"Pool", [⟨"free", .number, .num 0, {}⟩], [], {}⟩], {}⟩
    ∃ decls blocks, (buildBody ctx "run" Source.refill {}).result = .ok (decls, blocks) ∧
      Flat.effectsOf blocks =
        [.call "left" 0, .builtin "max" 2,
          .call "next" 1, .alloc (.word 1), .call "Pool$__init__" 1, .alloc (.word 3),
          .call "next" 2, .call "index_out_of_bounds" 2, .call "assert_not_none" 1,
          .call "Pool$take" 2, .call "index_out_of_bounds" 2,
          .builtin "abs" 1, .call "count" 0, .call "assert_not_none" 1, .call "Pool$close" 1] := by
  intro ctx
  obtain ⟨⟨decls, blocks⟩, hb⟩ := ok_of_isOk
    (show (buildBody ctx "run" Source.refill {}).result.isOk = true by decide +kernel)
  refine ⟨decls, blocks, hb, ?_⟩
  rw [(effects_kept_in_order hb).1]
  decide +kernel

end BlockLowering
