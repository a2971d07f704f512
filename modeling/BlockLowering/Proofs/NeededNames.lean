import BlockLowering.Proofs.LoweredNames

/-! The names that lowering asks for. A source body alone says which bases are drawn from, in which
order, and what type each temporary has; the supply only adds the numbers. Expressions ask for
temporaries after their operands, except that a list is named before its elements; conditionals
and loops ask for their labels first. -/

namespace BlockLowering

open Source (Expr Stmt Note Ty)
open Flat (Operand Rhs Instr Decl)

/-- A name to be drawn, for the label of a block or for a temporary of some type. -/
inductive Need where
  | label (base : String)
  | temporary (base : String) (ty : Ty)
  deriving DecidableEq

namespace Need

def base : Need → String
  | label base | temporary base _ => base

/-- What is declared for a need, once it has got its name. -/
def decls (name : String) : Need → List Decl
  | label _ => []
  | temporary _ ty => [.temporary name ty]

/-- The type that is asked for a temporary of the given base. -/
def typeFor (base : String) : Need → Option Ty
  | label _ => none
  | temporary other ty => if other = base then some ty else none

end Need

/-- The types of the temporaries that are needed of one base, in order. -/
def typesFor (base : String) (ns : List Need) : List Ty := ns.filterMap (Need.typeFor base)

namespace Source

/-- Operations, whose results are put in temporaries when they are operands. -/
def Expr.isComposite : Expr → Bool
  | .unary .. | .binary .. | .builtin1 .. | .builtin2 .. | .call .. | .methodCall .. | .field ..
  | .index .. => true
  | .construct .. | .listLiteral .. | .var .. | .literal .. => false

/-- The temporary that holds an expression when it is an operand. -/
def Expr.holder (e : Expr) : List Need :=
  if e.isComposite then [.temporary Base.operand e.ty] else []

/-- The names that flattening a node asks for besides. -/
def Expr.ownNeeds : Expr → List Need
  | .index .. => [.temporary Base.length .number, .temporary Base.offset .number]
  | .construct note _ => [.temporary Base.object note.ty]
  | .listLiteral note _ => [.temporary Base.list note.ty]
  | _ => []

mutual

/-- The names that an expression asks for, in order, without the one that may hold its result. -/
def Expr.needs (e : Expr) : List Need :=
  match e with
  | .unary _ _ arg | .builtin1 _ _ arg | .field _ arg _ => arg.needs ++ arg.holder
  | .binary _ _ l r | .builtin2 _ _ l r => l.needs ++ l.holder ++ (r.needs ++ r.holder)
  | .index _ l r => l.needs ++ l.holder ++ (r.needs ++ r.holder) ++ e.ownNeeds
  | .call _ _ args => Expr.allNeeds args
  | .methodCall _ receiver _ args =>
    receiver.needs ++ receiver.holder ++ Expr.allNeeds args
  | .listLiteral _ elements => e.ownNeeds ++ Expr.allNeeds elements
  | .construct .. | .var .. | .literal .. => e.ownNeeds

/-- The names that operands ask for. -/
def Expr.allNeeds : List Expr → List Need
  | [] => []
  | e :: es => e.needs ++ e.holder ++ Expr.allNeeds es

end

/-- The names that a statement asks for besides its expressions and statements. -/
def Stmt.ownNeeds : Stmt → List Need
  | .assignIndex .. => [.temporary Base.length .number, .temporary Base.offset .number]
  | .ifElse .. => [.label Base.thenBlock, .label Base.elseBlock, .label Base.endBlock]
  | .whileLoop .. => [.label Base.loopStart, .label Base.loopBody, .label Base.loopEnd]
  | _ => []

mutual

def Stmt.needs (stmt : Stmt) : List Need :=
  match stmt with
  | .assign _ _ e | .eval _ e => e.needs
  | .ifElse _ cond thenBody elseBody =>
    stmt.ownNeeds ++ Expr.allNeeds [cond] ++ bodyNeeds thenBody ++ bodyNeeds elseBody
  | .whileLoop _ cond body => stmt.ownNeeds ++ Expr.allNeeds [cond] ++ bodyNeeds body
  | .assignIndex _ receiver index value =>
    Expr.allNeeds [receiver, index, value] ++ stmt.ownNeeds
  | _ => Expr.allNeeds stmt.exprs

/-- The names that a body asks for, in order. -/
def bodyNeeds : List Stmt → List Need
  | [] => []
  | stmt :: rest => stmt.needs ++ bodyNeeds rest

end

end Source

/-- From one state of a supply to a later one: the needs are met in order, and those for
temporaries leave their declarations. -/
inductive Serves : Names → List Need → List Decl → Names → Prop
  | nil {a} : Serves a [] [] a
  | next {a b n ns ds} : Serves (Names.advance a (Need.base n)) ns ds b →
      Serves a (n :: ns) (n.decls (a.fresh n.base) ++ ds) b

namespace Serves

variable {a b c : Names} {ns ns' : List Need} {ds ds' : List Decl}

theorem append (h : Serves a ns ds b) (h' : Serves b ns' ds' c) :
    Serves a (ns ++ ns') (ds ++ ds') c := by
  induction h with
  | nil => exact h'
  | next _ ih =>
    rw [List.append_assoc]
    exact .next (ih h')

theorem single (a : Names) (base : String) (ty : Ty) :
    Serves a [.temporary base ty] [.temporary (a.fresh base) ty] (a.advance base) :=
  .next .nil

theorem thenCode {p : Prelude} (h : Serves a ns p.decls b) (code : List Instr) :
    Serves a ns (p ++ Prelude.ofCode code).decls b := by
  rw [Prelude.append_decls, Prelude.ofCode, List.append_nil]
  exact h

theorem elementOffset (a : Names) :
    Serves a [.temporary Base.length .number, .temporary Base.offset .number]
      [.temporary (a.fresh Base.length) .number,
        .temporary ((a.advance Base.length).fresh Base.offset) .number]
      ((a.advance Base.length).advance Base.offset) :=
  (single a _ _).append (single _ _ _)

theorem labels (a : Names) (first second third : String) :
    Serves a [.label first, .label second, .label third] [] (a.labels first second third).after :=
  .next (.next (.next .nil))

/-- A counter moves by the number of needs for its base. -/
theorem count_eq (h : Serves a ns ds b) (base : String) :
    b.count base = a.count base + ns.countP (·.base = base) := by
  induction h with
  | nil => rfl
  | @next a _ n _ _ _ ih =>
    rw [ih]
    by_cases he : base = n.base
    · rw [he, a.count_advance_self, List.countP_cons_of_pos (by simp)]
      omega
    · rw [a.count_advance_of_ne he, List.countP_cons_of_neg (by simpa using Ne.symm he)]

theorem last?_eq (h : Serves a ns ds b) {base : String} (hb : ∀ n ∈ ns, n.base ≠ base) :
    b.last? base = a.last? base := by
  induction h with
  | nil => rfl
  | @next a _ n _ _ _ ih =>
    rw [List.forall_mem_cons] at hb
    rw [ih hb.2, a.last?_advance_of_ne (Ne.symm hb.1)]

/-- The temporaries of one base have consecutive numbers, and the types that were asked for. -/
theorem decls_filter (h : Serves a ns ds b) (hplain : ∀ n ∈ ns, PlainBase n.base) {base : String}
    (hb : PlainBase base) (hl : .label base ∉ ns) :
    ds.filter (fun d => NumberedFrom [base] d.name) = (typesFor base ns).mapIdx
      fun i ty => .temporary (base ++ toString (a.count base + i + 1)) ty := by
  induction h with
  | nil => rfl
  | @next a _ n ns ds _ ih =>
    rw [List.forall_mem_cons] at hplain
    rw [List.mem_cons, not_or] at hl
    have hname := a.numberedFrom_fresh_iff hb hplain.1
    rw [List.filter_append, ih hplain.2 hl.2]
    cases n with
    | label other =>
      have hne : base ≠ other := fun he => hl.1 (congrArg Need.label he)
      rw [Need.base, a.count_advance_of_ne hne]
      rfl
    | temporary other ty =>
      by_cases he : base = other
      · subst he
        have htypes : typesFor base (.temporary base ty :: ns) = ty :: typesFor base ns := by
          simp [typesFor, Need.typeFor]
        have hkept : ((Need.temporary base ty).decls (a.fresh base)).filter
            (fun d => NumberedFrom [base] d.name) = [.temporary (a.fresh base) ty] :=
          List.filter_cons_of_pos (decide_eq_true (hname.mpr rfl))
        have hshift : ∀ i, a.count base + 1 + i + 1 = a.count base + (i + 1) + 1 := by omega
        rw [Need.base, a.count_advance_self, htypes, List.mapIdx_cons, hkept]
        simp only [hshift]
        rfl
      · have htypes : typesFor base (.temporary other ty :: ns) = typesFor base ns := by
          simp [typesFor, Need.typeFor, Ne.symm he]
        have hdropped : ((Need.temporary other ty).decls (a.fresh other)).filter
            (fun d => NumberedFrom [base] d.name) = [] :=
          List.filter_cons_of_neg fun h => he (hname.mp (of_decide_eq_true h))
        rw [Need.base, a.count_advance_of_ne he, htypes, hdropped, List.nil_append]

end Serves

variable {ctx : Context}

theorem Flattens.isComposite_iff {a b : Names} {e : Expr} {p : Prelude} {r : Rhs}
    {t : List String} (h : Flattens ctx a e ⟨p, r⟩ b t) :
    e.isComposite = true ↔ ∀ v, r ≠ .operand v := by
  cases h with
  | construct | listLiteral | var | literal => simp [Expr.isComposite]
  | _ => simp [Expr.isComposite]

mutual

theorem Flattens.serves {a b : Names} {e : Expr} {x : WithPrelude Rhs} {t : List String} :
    Flattens ctx a e x b t → Serves a e.needs x.prelude.decls b
  | .unary h | .builtin1 h | .field _ h => h.serves
  | .binary hl hr | .builtin2 hl hr => hl.serves.append hr.serves
  | .call h => h.serves
  | .methodCall _ hr h => (hr.serves.append h.serves).thenCode _
  | .index hr hi => (hr.serves.append hi.serves).append (.elementOffset _)
  | .construct _ => .single _ _ _
  | .listLiteral h => ((Serves.single _ _ _).append h.serves).thenCode _
  | .var | .literal => .nil

theorem FlattensOperand.serves {a b : Names} {e : Expr} {x : WithPrelude Operand}
    {t : List String} : FlattensOperand ctx a e x b t →
    Serves a (e.needs ++ e.holder) x.prelude.decls b
  | .value h => by
    have hc : ¬ e.isComposite = true := fun hc => h.isComposite_iff.mp hc _ rfl
    rw [Expr.holder, if_neg hc, List.append_nil]
    exact h.serves
  | .temporary h hr => by
    rw [Expr.holder, if_pos (h.isComposite_iff.mpr hr)]
    exact h.serves.append (.single _ _ _)

theorem FlattensAll.serves {a b : Names} {es : List Expr} {xs : WithPrelude (List Operand)}
    {t : List String} : FlattensAll ctx a es xs b t →
    Serves a (Expr.allNeeds es) xs.prelude.decls b
  | .nil => .nil
  | .cons h hs => h.serves.append hs.serves

end

theorem FlattensOperand.serves_all {a b : Names} {e : Expr} {x : WithPrelude Operand}
    {t : List String} (h : FlattensOperand ctx a e x b t) :
    Serves a (Expr.allNeeds [e]) x.prelude.decls b := by
  rw [Expr.allNeeds, Expr.allNeeds, List.append_nil]
  exact h.serves

theorem FlattensStmt.serves {a b : Names} {stmt : Stmt} {p : Prelude} {t : List String}
    (h : FlattensStmt ctx a stmt p b t) : Serves a stmt.needs p.decls b := by
  cases h with
  | assign h | eval h => exact h.serves.thenCode _
  | ret h => exact h.serves_all.thenCode _
  | pass => exact .nil
  | assignField _ hx hy => exact (hx.serves.append hy.serves_all).thenCode _
  | assignIndex hx hi hy =>
    have hargs := (hx.serves.append hi.serves).append hy.serves_all
    rw [List.append_assoc] at hargs
    exact (hargs.append (.elementOffset _)).thenCode _

/-- The names that lowering draws for a body are those that its text asks for. -/
theorem Builds.serves {a b : Names} {body : List Stmt} {ds : List Decl} {f : Fragment}
    {t : List String} (h : Builds ctx a body ds f b t) :
    Serves a (Source.bodyNeeds body) ds b := by
  induction h with
  | nil => exact .nil
  | plain hs _ ih => exact hs.serves.append ih
  | @ifElse a _ _ _ _ _ _ _ _ _ _ _ _ _ l _ _ _ _ _ _ _ hl hx _ _ _ iht ihe ih =>
    have hlabels := Serves.labels a Base.thenBlock Base.elseBlock Base.endBlock
    rw [show a.labels _ _ _ = l from hl] at hlabels
    exact (((hlabels.append hx.serves_all).append iht).append ihe).append ih
  | @whileLoop a _ _ _ _ _ _ _ _ _ _ l _ _ _ _ _ hl hx _ _ ihb ih =>
    have hlabels := Serves.labels a Base.loopStart Base.loopBody Base.loopEnd
    rw [show a.labels _ _ _ = l from hl] at hlabels
    exact ((hlabels.append hx.serves_all).append ihb).append ih

end BlockLowering
