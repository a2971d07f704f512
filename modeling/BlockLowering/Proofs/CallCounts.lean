import BlockLowering.Proofs.CodePieces
import BlockLowering.Proofs.EffectOrder

/-! How often lowered programs call a function. The effects of a program are those of its nodes, each
of which adds its own once; so the calls of a helper are counted by the nodes that need it, as long
as the program has no other way to call it. -/

namespace BlockLowering

open Source (Expr Stmt)
open Flat (Instr Block codeEffects)

namespace Flat

/-- The function that an instruction calls. -/
def Instr.callee? (i : Instr) : Option String := i.call?.map (·.1)

/-- The number of calls of the function `name` in a program. -/
def Program.callCount (q : Program) (name : String) : Nat :=
  (q.blocks.flatMap (·.code)).countP (·.callee? == some name)

end Flat

namespace Source

/-- The function of the program that a node calls, or the method that starts a new object. -/
def Expr.target? (settings : Settings) : Expr → Option String
  | .call _ name _ => some name
  | .methodCall _ receiver method _ =>
    receiver.ty.objectName?.map (settings.methodName · method)
  | .construct _ className => some (settings.methodName className settings.initMethod)
  | _ => none

def Expr.isIndex : Expr → Bool
  | .index .. => true
  | _ => false

def Expr.isMethodCall : Expr → Bool
  | .methodCall .. => true
  | _ => false

def Stmt.isAssignIndex : Stmt → Bool
  | .assignIndex .. => true
  | _ => false

/-- Whether a node is checked by a call of `name`. -/
def Expr.checkedBy (settings : Settings) (name : String) (e : Expr) : Bool :=
  e.isIndex && settings.boundsHelper == name || e.isMethodCall && settings.notNoneHelper == name

def Stmt.checkedBy (settings : Settings) (name : String) (stmt : Stmt) : Bool :=
  stmt.isAssignIndex && settings.boundsHelper == name

end Source

def Effect.isCallOf (name : String) : Effect → Bool
  | .call callee _ => callee == name
  | _ => false

variable {ctx : Context} {name : String}

theorem countP_effect (i : Instr) : i.effect?.toList.countP (Effect.isCallOf name) =
    if i.callee? == some name then 1 else 0 := by
  cases i with
  | assign _ r | eval r =>
    cases r with
    | call callee args => exact List.countP_singleton
    | _ => rfl
  | _ => rfl

theorem countP_codeEffects (code : List Instr) :
    (codeEffects code).countP (Effect.isCallOf name) = code.countP (·.callee? == some name) := by
  induction code with
  | nil => rfl
  | cons i code ih =>
    rw [Flat.codeEffects_cons, List.countP_append, countP_effect, ih, List.countP_cons]
    omega

theorem Lowers.effects {bodies : List (List Stmt)} {blocks : List Block} {t : List String}
    (h : Lowers ctx bodies blocks t) :
    codeEffects (blocks.flatMap (·.code)) = bodies.flatMap (Source.bodyEffects ctx) := by
  induction h with
  | nil => rfl
  | cons hb _ ih =>
    rw [List.flatMap_append, Fragment.instrs_toBlocks, Flat.codeEffects_append, hb.effects, ih,
      List.flatMap_cons]

theorem Lowers.effects_perm {p : Source.Program} {blocks : List Block} {t : List String}
    (h : Lowers ctx p.bodies blocks t) : (codeEffects (blocks.flatMap (·.code))).Perm
      (p.stmts.flatMap (Stmt.ownEffects ctx) ++ p.exprs.flatMap (Expr.ownEffects ctx)) := by
  have hbodies : (p.bodies.flatMap (Source.bodyEffects ctx)).Perm
      (p.bodies.flatMap (Source.nodeEffects ctx)) :=
    List.Perm.flatMap_left _ fun body _ => Source.bodyEffects_perm body
  rw [h.effects, Source.Program.stmts, Source.Program.exprs, List.flatMap_assoc,
    List.flatMap_assoc]
  exact hbodies.trans (List.flatMap_append_perm _ _ _).symm

theorem countP_call (callee : String) (args : Nat) (rest : List Effect) :
    (Effect.call callee args :: rest).countP (Effect.isCallOf name) =
      rest.countP (Effect.isCallOf name) + if callee = name then 1 else 0 := by
  rw [List.countP_cons, Effect.isCallOf]
  simp

theorem countP_ownEffects {e : Expr} (h : e.target? ctx.settings ≠ some name) :
    (e.ownEffects ctx).countP (Effect.isCallOf name) =
      if e.checkedBy ctx.settings name then 1 else 0 := by
  cases e with
  | call _ callee _ =>
    have hne : callee ≠ name := fun he => h (congrArg some he)
    rw [Expr.ownEffects, countP_call, if_neg hne]
    rfl
  | methodCall _ receiver method args =>
    have hmethod : (receiver.ty.objectName?.toList.map fun className => Effect.call
        (ctx.settings.methodName className method) (args.length + 1)).countP
          (Effect.isCallOf name) = 0 := by
      cases hc : receiver.ty.objectName? with
      | none => rfl
      | some className =>
        rw [Expr.target?, hc, Option.map_some] at h
        have hne : ctx.settings.methodName className method ≠ name := fun he => h (congrArg some he)
        rw [Option.toList_some, List.map_singleton, countP_call, if_neg hne]
        rfl
    rw [Expr.ownEffects, countP_call, hmethod]
    simp [Expr.checkedBy, Expr.isIndex, Expr.isMethodCall]
  | construct _ className =>
    have hne : ctx.settings.methodName className ctx.settings.initMethod ≠ name :=
      fun he => h (congrArg some he)
    rw [Expr.ownEffects]
    cases ctx.layout.fields? className with
    | none => rfl
    | some fields =>
      simp [Effect.isCallOf, hne, Expr.checkedBy, Expr.isIndex, Expr.isMethodCall]
  | index =>
    rw [Expr.ownEffects, countP_call]
    simp [Expr.checkedBy, Expr.isIndex, Expr.isMethodCall]
  | _ => rfl

theorem countP_ownEffects_stmt (stmt : Stmt) :
    (stmt.ownEffects ctx).countP (Effect.isCallOf name) =
      if stmt.checkedBy ctx.settings name then 1 else 0 := by
  cases stmt with
  | assignIndex =>
    rw [Stmt.ownEffects, countP_call]
    simp [Stmt.checkedBy, Stmt.isAssignIndex]
  | _ => rfl

theorem countP_flatMap_eq {α β : Type} {f : α → List β} {P : β → Bool} {Q : α → Bool} {l : List α}
    (h : ∀ a ∈ l, (f a).countP P = if Q a then 1 else 0) :
    (l.flatMap f).countP P = l.countP Q := by
  induction l with
  | nil => rfl
  | cons a l ih =>
    rw [List.forall_mem_cons] at h
    rw [List.flatMap_cons, List.countP_append, h.1, ih h.2, List.countP_cons]
    omega

/-- Where the program cannot call `name` itself, its calls are the checks of its nodes. -/
theorem Lowers.countP_eq {p : Source.Program} {blocks : List Block} {t : List String}
    (h : Lowers ctx p.bodies blocks t)
    (hp : ∀ e ∈ p.exprs, e.target? ctx.settings ≠ some name) :
    (blocks.flatMap (·.code)).countP (·.callee? == some name) =
      p.stmts.countP (Stmt.checkedBy ctx.settings name) +
        p.exprs.countP (Expr.checkedBy ctx.settings name) := by
  rw [← countP_codeEffects, h.effects_perm.countP_eq, List.countP_append,
    countP_flatMap_eq fun stmt _ => countP_ownEffects_stmt stmt,
    countP_flatMap_eq fun e he => countP_ownEffects (hp e he)]

end BlockLowering
