import BlockLowering.Source.Syntax
import Mathlib.Data.List.Basic

/-! Source trees as a whole: induction over expressions and over bodies, and the names that occur in
them. -/

namespace BlockLowering.Source

@[elab_as_elim, induction_eliminator]
theorem Expr.induction {P : Expr → Prop}
    (unary : ∀ note op arg, P arg → P (.unary note op arg))
    (binary : ∀ note op left right, P left → P right → P (.binary note op left right))
    (builtin1 : ∀ note name arg, P arg → P (.builtin1 note name arg))
    (builtin2 : ∀ note name left right, P left → P right → P (.builtin2 note name left right))
    (call : ∀ note name args, (∀ e ∈ args, P e) → P (.call note name args))
    (methodCall : ∀ note receiver method args, P receiver → (∀ e ∈ args, P e) →
      P (.methodCall note receiver method args))
    (field : ∀ note receiver name, P receiver → P (.field note receiver name))
    (index : ∀ note receiver index, P receiver → P index → P (.index note receiver index))
    (construct : ∀ note className, P (.construct note className))
    (listLiteral : ∀ note elements, (∀ e ∈ elements, P e) → P (.listLiteral note elements))
    (var : ∀ note name, P (.var note name))
    (literal : ∀ note value, P (.literal note value)) (e : Expr) : P e :=
  @Expr.rec P (fun es => ∀ e ∈ es, P e) unary binary builtin1 builtin2 call methodCall field index
    construct listLiteral var literal (by simp) (fun _ _ he hes => by simpa using ⟨he, hes⟩) e

/-- Statements without blocks of their own. -/
def Stmt.isPlain : Stmt → Bool
  | .ifElse .. | .whileLoop .. => false
  | _ => true

theorem Stmt.bodyInduction {Q : List Stmt → Prop} (nil : Q [])
    (plain : ∀ s rest, s.isPlain = true → Q rest → Q (s :: rest))
    (ifElse : ∀ note cond thenBody elseBody rest, Q thenBody → Q elseBody → Q rest →
      Q (.ifElse note cond thenBody elseBody :: rest))
    (whileLoop : ∀ note cond body rest, Q body → Q rest → Q (.whileLoop note cond body :: rest))
    (body : List Stmt) : Q body :=
  @Stmt.rec_1 (fun s => ∀ rest, Q rest → Q (s :: rest)) Q
    (fun note name value rest => plain (.assign note name value) rest rfl)
    (fun note value rest => plain (.ret note value) rest rfl)
    (fun note e rest => plain (.eval note e) rest rfl)
    (fun note rest => plain (.pass note) rest rfl)
    (fun note receiver name value rest => plain (.assignField note receiver name value) rest rfl)
    (fun note receiver index value rest => plain (.assignIndex note receiver index value) rest rfl)
    (fun note cond a b ha hb rest => ifElse note cond a b rest ha hb)
    (fun note cond a ha rest => whileLoop note cond a rest ha)
    nil (fun _ rest hs hrest => hs rest hrest) body

mutual

/-- The expression itself and all expressions inside it. -/
def Expr.nodes : Expr → List Expr
  | .unary n op e => .unary n op e :: e.nodes
  | .binary n op l r => .binary n op l r :: (l.nodes ++ r.nodes)
  | .builtin1 n name e => .builtin1 n name e :: e.nodes
  | .builtin2 n name l r => .builtin2 n name l r :: (l.nodes ++ r.nodes)
  | .call n name args => .call n name args :: Expr.allNodes args
  | .methodCall n e method args => .methodCall n e method args :: (e.nodes ++ Expr.allNodes args)
  | .field n e name => .field n e name :: e.nodes
  | .index n e i => .index n e i :: (e.nodes ++ i.nodes)
  | .construct n className => [.construct n className]
  | .listLiteral n elements => .listLiteral n elements :: Expr.allNodes elements
  | .var n name => [.var n name]
  | .literal n value => [.literal n value]

def Expr.allNodes : List Expr → List Expr
  | [] => []
  | e :: es => e.nodes ++ Expr.allNodes es

end

mutual

/-- The statement itself and all statements inside it. -/
def Stmt.nodes : Stmt → List Stmt
  | .ifElse n cond a b => .ifElse n cond a b :: (Stmt.allNodes a ++ Stmt.allNodes b)
  | .whileLoop n cond body => .whileLoop n cond body :: Stmt.allNodes body
  | s => [s]

def Stmt.allNodes : List Stmt → List Stmt
  | [] => []
  | s :: rest => s.nodes ++ Stmt.allNodes rest

end

def Stmt.isIfElse : Stmt → Bool
  | .ifElse .. => true
  | _ => false

def Stmt.isWhileLoop : Stmt → Bool
  | .whileLoop .. => true
  | _ => false

section

variable (note : Note) (cond : Expr) (body thenBody elseBody rest : List Stmt)

theorem Stmt.allNodes_plain {stmt : Stmt} (h : stmt.isPlain = true) :
    Stmt.allNodes (stmt :: rest) = stmt :: Stmt.allNodes rest := by
  cases stmt with
  | ifElse | whileLoop => cases h
  | _ => rfl

theorem Stmt.allNodes_ifElse :
    Stmt.allNodes (.ifElse note cond thenBody elseBody :: rest) =
      .ifElse note cond thenBody elseBody ::
        (Stmt.allNodes thenBody ++ Stmt.allNodes elseBody ++ Stmt.allNodes rest) := rfl

theorem Stmt.allNodes_whileLoop :
    Stmt.allNodes (.whileLoop note cond body :: rest) =
      .whileLoop note cond body :: (Stmt.allNodes body ++ Stmt.allNodes rest) := rfl

end

theorem Expr.nodes_subset_allNodes {e : Expr} {es : List Expr} (h : e ∈ es) :
    e.nodes ⊆ Expr.allNodes es := by
  induction es with
  | nil => cases h
  | cons e' es ih =>
    rcases List.mem_cons.mp h with rfl | h
    · exact List.subset_append_left _ _
    · exact List.subset_append_of_subset_right _ (ih h)

/-- The operands of an expression, in the order of their evaluation. -/
def Expr.operands : Expr → List Expr
  | .unary _ _ e | .builtin1 _ _ e | .field _ e _ => [e]
  | .binary _ _ l r | .builtin2 _ _ l r | .index _ l r => [l, r]
  | .call _ _ args | .listLiteral _ args => args
  | .methodCall _ receiver _ args => receiver :: args
  | .construct .. | .var .. | .literal .. => []

theorem Expr.nodes_eq (e : Expr) : e.nodes = e :: Expr.allNodes e.operands := by
  cases e <;> simp [Expr.nodes, Expr.operands, Expr.allNodes]

theorem Expr.operandInduction {P : Expr → Prop} (h : ∀ e, (∀ o ∈ e.operands, P o) → P e)
    (e : Expr) : P e := by
  apply h
  induction e with
  | unary _ _ _ ih | builtin1 _ _ _ ih | field _ _ _ ih =>
    exact List.forall_mem_singleton.mpr (h _ ih)
  | binary _ _ _ _ ihl ihr | builtin2 _ _ _ _ ihl ihr | index _ _ _ ihl ihr =>
    exact List.forall_mem_cons.mpr ⟨h _ ihl, List.forall_mem_singleton.mpr (h _ ihr)⟩
  | call _ _ _ ih | listLiteral _ _ ih => exact fun o ho => h o (ih o ho)
  | methodCall _ _ _ _ ihr ih =>
    exact List.forall_mem_cons.mpr ⟨h _ ihr, fun o ho => h o (ih o ho)⟩
  | construct | var | literal => exact List.forall_mem_nil _

/-- The variable an expression is. -/
def Expr.varName? : Expr → Option String
  | .var _ name => some name
  | _ => none

/-- The function an expression calls by its name. -/
def Expr.callee? : Expr → Option String
  | .call _ name _ => some name
  | _ => none

/-- The class an expression makes an object of. -/
def Expr.constructed? : Expr → Option String
  | .construct _ className => some className
  | _ => none

/-- The variables that an expression reads. -/
def Expr.vars (e : Expr) : List String := e.nodes.filterMap Expr.varName?

def Expr.allVars (es : List Expr) : List String := (Expr.allNodes es).filterMap Expr.varName?

section

variable (n : Note) (e l r : Expr) (es : List Expr) (name : String)

@[simp] theorem Expr.vars_unary (op : UnaryOp) : (Expr.unary n op e).vars = e.vars := rfl

@[simp] theorem Expr.vars_binary (op : BinaryOp) :
    (Expr.binary n op l r).vars = l.vars ++ r.vars :=
  List.filterMap_append

@[simp] theorem Expr.vars_builtin1 : (Expr.builtin1 n name e).vars = e.vars := rfl

@[simp] theorem Expr.vars_builtin2 : (Expr.builtin2 n name l r).vars = l.vars ++ r.vars :=
  List.filterMap_append

@[simp] theorem Expr.vars_call : (Expr.call n name es).vars = Expr.allVars es := rfl

@[simp] theorem Expr.vars_methodCall :
    (Expr.methodCall n e name es).vars = e.vars ++ Expr.allVars es :=
  List.filterMap_append

@[simp] theorem Expr.vars_field : (Expr.field n e name).vars = e.vars := rfl

@[simp] theorem Expr.vars_index : (Expr.index n l r).vars = l.vars ++ r.vars :=
  List.filterMap_append

@[simp] theorem Expr.vars_listLiteral : (Expr.listLiteral n es).vars = Expr.allVars es := rfl

@[simp] theorem Expr.vars_var : (Expr.var n name).vars = [name] := rfl

end

theorem Expr.mem_vars_of_varName {e : Expr} {x : String} (h : e.varName? = some x) :
    x ∈ e.vars := by
  cases e with
  | var n name =>
    obtain rfl : name = x := Option.some.inj h
    exact List.mem_cons_self
  | _ => cases h

@[simp] theorem Expr.allVars_nil : Expr.allVars [] = [] := rfl

@[simp] theorem Expr.allVars_cons (e : Expr) (es : List Expr) :
    Expr.allVars (e :: es) = e.vars ++ Expr.allVars es := by
  simp [Expr.allVars, Expr.vars, Expr.allNodes]

/-- The variable a statement assigns. -/
def Stmt.assigned? : Stmt → Option String
  | .assign _ name _ => some name
  | _ => none

/-- The expressions a statement evaluates itself, in order. -/
def Stmt.exprs : Stmt → List Expr
  | .assign _ _ e | .ret _ e | .eval _ e => [e]
  | .pass _ => []
  | .assignField _ receiver _ value => [receiver, value]
  | .assignIndex _ receiver index value => [receiver, index, value]
  | .ifElse _ cond _ _ | .whileLoop _ cond _ => [cond]

/-- All expressions of a body. -/
def bodyExprs (body : List Stmt) : List Expr :=
  (Stmt.allNodes body).flatMap fun s => Expr.allNodes s.exprs

section

variable (note : Note) (cond : Expr) (body thenBody elseBody rest : List Stmt)

theorem bodyExprs_plain {stmt : Stmt} (h : stmt.isPlain = true) :
    bodyExprs (stmt :: rest) = Expr.allNodes stmt.exprs ++ bodyExprs rest := by
  cases stmt with
  | ifElse note cond thenBody elseBody => cases h
  | whileLoop note cond body => cases h
  | _ => rfl

theorem bodyExprs_ifElse : bodyExprs (.ifElse note cond thenBody elseBody :: rest) =
    cond.nodes ++ bodyExprs thenBody ++ bodyExprs elseBody ++ bodyExprs rest := by
  simp [bodyExprs, Stmt.allNodes, Stmt.nodes, Stmt.exprs, Expr.allNodes]

theorem bodyExprs_whileLoop : bodyExprs (.whileLoop note cond body :: rest) =
    cond.nodes ++ bodyExprs body ++ bodyExprs rest := by
  simp [bodyExprs, Stmt.allNodes, Stmt.nodes, Stmt.exprs, Expr.allNodes]

/-- The variables that a body reads. -/
def bodyReads : List String := (bodyExprs body).filterMap Expr.varName?

theorem bodyReads_plain {stmt : Stmt} (h : stmt.isPlain = true) :
    bodyReads (stmt :: rest) = Expr.allVars stmt.exprs ++ bodyReads rest := by
  rw [bodyReads, bodyExprs_plain rest h, List.filterMap_append]
  rfl

theorem bodyReads_ifElse : bodyReads (.ifElse note cond thenBody elseBody :: rest) =
    cond.vars ++ bodyReads thenBody ++ bodyReads elseBody ++ bodyReads rest := by
  simp only [bodyReads, bodyExprs_ifElse, List.filterMap_append, Expr.vars]

theorem bodyReads_whileLoop : bodyReads (.whileLoop note cond body :: rest) =
    cond.vars ++ bodyReads body ++ bodyReads rest := by
  simp only [bodyReads, bodyExprs_whileLoop, List.filterMap_append, Expr.vars]

/-- The variables that a body assigns. -/
def bodyTargets : List String := (Stmt.allNodes body).filterMap Stmt.assigned?

theorem bodyTargets_plain {stmt : Stmt} (h : stmt.isPlain = true) :
    bodyTargets (stmt :: rest) = stmt.assigned?.toList ++ bodyTargets rest := by
  cases stmt with
  | ifElse note cond thenBody elseBody => cases h
  | whileLoop note cond body => cases h
  | _ => rfl

theorem bodyTargets_ifElse : bodyTargets (.ifElse note cond thenBody elseBody :: rest) =
    bodyTargets thenBody ++ bodyTargets elseBody ++ bodyTargets rest := by
  simp [bodyTargets, Stmt.allNodes, Stmt.nodes, List.filterMap_cons, Stmt.assigned?]

theorem bodyTargets_whileLoop : bodyTargets (.whileLoop note cond body :: rest) =
    bodyTargets body ++ bodyTargets rest := by
  simp [bodyTargets, Stmt.allNodes, Stmt.nodes, List.filterMap_cons, Stmt.assigned?]

end

/-- The variables that occur in a body, assigned or read. -/
def bodyVars (body : List Stmt) : List String :=
  (Stmt.allNodes body).filterMap Stmt.assigned? ++ bodyReads body

/-- The variables of a function: those it declares and those that occur in its body. -/
def Function.variables (f : Function) : List String :=
  f.params.map (·.name) ++ f.locals.map (·.name) ++ bodyVars f.body

def Class.variables (c : Class) : List String := c.methods.flatMap Function.variables

def Program.variables (p : Program) : List String :=
  p.globals.map (·.name) ++ bodyVars p.body ++ p.functions.flatMap Function.variables ++
    p.classes.flatMap Class.variables

/-- The functions that a body calls by their names. -/
def bodyCallees (body : List Stmt) : List String := (bodyExprs body).filterMap Expr.callee?

/-- The classes that a body makes objects of. -/
def bodyClasses (body : List Stmt) : List String := (bodyExprs body).filterMap Expr.constructed?

end BlockLowering.Source
