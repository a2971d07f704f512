import BlockLowering.Proofs.CallCounts
import BlockLowering.Proofs.ReportedPlaces

/-! Methods and the functions that stand for them. The function of a method is named by the class,
the separator and the method. Where the first character of the separator is in no name of a class,
the class ends at the first place of that character, so no two methods share a function. The calls
of lowered code are those that the source asks for, one by one and in the order of evaluation; so
calls that are dispatched by class and method are told apart as the names are. -/

namespace BlockLowering

open Source (Expr Stmt Note bodyExprs)
open Flat (Instr codeEffects)

section

variable {settings : Settings} {mark : Char} (hm : settings.separator.toList.head? = some mark)
include hm

theorem exists_toList_methodName (className method : String) : ∃ rest,
    (settings.methodName className method).toList = className.toList ++ mark :: rest := by
  obtain ⟨tail, ht⟩ := List.head?_eq_some_iff.mp hm
  refine ⟨tail ++ method.toList, ?_⟩
  rw [Settings.methodName, String.toList_append, String.toList_append, ht, List.append_assoc,
    List.cons_append]

theorem methodName_ne (className method : String) {name : String} (hn : mark ∉ name.toList) :
    settings.methodName className method ≠ name := by
  rintro rfl
  obtain ⟨rest, hr⟩ := exists_toList_methodName hm className method
  rw [hr] at hn
  exact hn (List.mem_append_right _ List.mem_cons_self)

/-- The class can be read off the name. -/
theorem takeWhile_methodName {className : String} (hc : mark ∉ className.toList)
    (method : String) :
    (settings.methodName className method).toList.takeWhile (· != mark) = className.toList := by
  obtain ⟨rest, hr⟩ := exists_toList_methodName hm className method
  have hbefore : ∀ c ∈ className.toList, (c != mark) = true := by
    intro c hc'
    exact bne_iff_ne.mpr fun he => hc (he ▸ hc')
  rw [hr, List.takeWhile_append_of_pos hbefore, List.takeWhile_cons_of_neg (by simp),
    List.append_nil]

theorem methodName_inj {class₁ class₂ method₁ method₂ : String} (h₁ : mark ∉ class₁.toList)
    (h₂ : mark ∉ class₂.toList)
    (h : settings.methodName class₁ method₁ = settings.methodName class₂ method₂) :
    class₁ = class₂ ∧ method₁ = method₂ := by
  have hclass : class₁.toList = class₂.toList := by
    rw [← takeWhile_methodName hm h₁ method₁, h, takeWhile_methodName hm h₂ method₂]
  obtain rfl : class₁ = class₂ := String.toList_inj.mp hclass
  exact ⟨rfl, String.append_right_inj _ |>.mp h⟩

end

/-- It does not suffice that no class has the whole separator in its name. -/
example : ({ separator := "::" } : Settings).methodName "Map:" "get" =
    ({ separator := "::" } : Settings).methodName "Map" ":get" := by decide

/-- What a call of lowered code is there for. -/
inductive CallSite where
  /-- A function that is called by its name. -/
  | named (function : String)
  /-- The check of a receiver or of an index. -/
  | check (helper : String)
  /-- A method, called on a receiver whose type is the class. -/
  | method (className method : String)
  /-- The start of a new object of the class. -/
  | construct (className : String)
  deriving Repr, DecidableEq

namespace CallSite

/-- The class and the method that a call is dispatched to. A new object is started by the method
that the settings name. -/
def dispatch? (settings : Settings) : CallSite → Option (String × String)
  | method className name => some (className, name)
  | construct className => some (className, settings.initMethod)
  | named _ | check _ => none

def target (settings : Settings) : CallSite → String
  | named name | check name => name
  | method className name => settings.methodName className name
  | construct className => settings.methodName className settings.initMethod

theorem target_of_dispatch? {settings : Settings} {site : CallSite} {className name : String}
    (h : site.dispatch? settings = some (className, name)) :
    site.target settings = settings.methodName className name := by
  cases site with
  | method | construct =>
    cases h
    rfl
  | named | check => cases h

end CallSite

namespace Source

variable (settings : Settings)

/-- The calls of a node without those of its operands. -/
def Expr.ownCallSites : Expr → List CallSite
  | .call _ name _ => [.named name]
  | .methodCall _ receiver method _ =>
    .check settings.notNoneHelper :: receiver.ty.objectName?.toList.map (.method · method)
  | .index .. => [.check settings.boundsHelper]
  | .construct _ className => [.construct className]
  | _ => []

mutual

/-- The calls of an expression in the order of evaluation. -/
def Expr.callSites (e : Expr) : List CallSite :=
  match e with
  | .unary _ _ arg | .builtin1 _ _ arg | .field _ arg _ =>
    arg.callSites ++ e.ownCallSites settings
  | .binary _ _ l r | .builtin2 _ _ l r | .index _ l r =>
    l.callSites ++ r.callSites ++ e.ownCallSites settings
  | .call _ _ args | .listLiteral _ args => Expr.allCallSites args ++ e.ownCallSites settings
  | .methodCall _ receiver _ args =>
    receiver.callSites ++ Expr.allCallSites args ++ e.ownCallSites settings
  | .construct .. | .var .. | .literal .. => e.ownCallSites settings

def Expr.allCallSites : List Expr → List CallSite
  | [] => []
  | e :: es => e.callSites ++ Expr.allCallSites es

end

/-- The calls of a statement without those of its expressions and statements. -/
def Stmt.ownCallSites : Stmt → List CallSite
  | .assignIndex .. => [.check settings.boundsHelper]
  | _ => []

mutual

/-- The calls of a statement in the order of its text. -/
def Stmt.callSites (stmt : Stmt) : List CallSite :=
  match stmt with
  | .ifElse _ cond thenBody elseBody =>
    cond.callSites settings ++ bodyCallSites thenBody ++ bodyCallSites elseBody
  | .whileLoop _ cond body => cond.callSites settings ++ bodyCallSites body
  | _ => Expr.allCallSites settings stmt.exprs ++ stmt.ownCallSites settings

def bodyCallSites : List Stmt → List CallSite
  | [] => []
  | stmt :: rest => stmt.callSites ++ bodyCallSites rest

end

/-- The calls of a program, body by body. -/
def Program.callSites (p : Program) : List CallSite := p.bodies.flatMap (bodyCallSites settings)

/-- Call number `i` of the program is one of a method, or starts a new object. -/
def Program.Dispatches (p : Program) (i : Nat) (className method : String) : Prop :=
  ∃ site, (p.callSites settings)[i]? = some site ∧
    site.dispatch? settings = some (className, method)

end Source

/-- The functions that lowered code calls, in the order of its text. -/
def Flat.Program.callees (q : Flat.Program) : List String :=
  (q.blocks.flatMap (·.code)).filterMap Instr.callee?

def Effect.callee? : Effect → Option String
  | .call name _ => some name
  | _ => none

theorem filterMap_codeEffects (code : List Instr) :
    (codeEffects code).filterMap Effect.callee? = code.filterMap Instr.callee? := by
  have hcallee : ∀ i : Instr, i.effect?.bind Effect.callee? = i.callee? := by
    intro i
    cases i with
    | assign _ r | eval r => cases r <;> rfl
    | _ => rfl
  rw [codeEffects, List.filterMap_filterMap, funext hcallee]

/-- The calls among the effects are those of the sites, one by one. -/
def Performs (settings : Settings) (effects : List Effect) (sites : List CallSite) : Prop :=
  effects.filterMap Effect.callee? = sites.map (CallSite.target settings)

theorem Performs.append {settings : Settings} {effects more : List Effect}
    {sites others : List CallSite} (h : Performs settings effects sites)
    (h' : Performs settings more others) :
    Performs settings (effects ++ more) (sites ++ others) := by
  rw [Performs, List.filterMap_append, List.map_append, h, h']

namespace Source

variable {ctx : Context}

theorem Expr.performs_own {e : Expr} (h : e.fault? ctx.layout = none) :
    Performs ctx.settings (e.ownEffects ctx) (e.ownCallSites ctx.settings) := by
  cases e with
  | methodCall _ receiver method args =>
    rw [Expr.ownEffects, Expr.ownCallSites]
    cases receiver.ty.objectName? <;> rfl
  | construct note className =>
    rw [Expr.fault?, classFault?] at h
    rw [Expr.ownEffects]
    cases hc : ctx.layout.fields? className with
    | none => simp [hc] at h
    | some fields => rfl
  | _ => rfl

theorem Expr.performs_all {es : List Expr}
    (h : ∀ e ∈ es, Performs ctx.settings (e.effects ctx) (e.callSites ctx.settings)) :
    Performs ctx.settings (Expr.allEffects ctx es) (Expr.allCallSites ctx.settings es) := by
  induction es with
  | nil => rfl
  | cons e es ih =>
    rw [List.forall_mem_cons] at h
    exact h.1.append (ih h.2)

theorem Expr.performs_of_operands {e : Expr}
    (h : Performs ctx.settings (Expr.allEffects ctx e.operands)
      (Expr.allCallSites ctx.settings e.operands))
    (hown : Performs ctx.settings (e.ownEffects ctx) (e.ownCallSites ctx.settings)) :
    Performs ctx.settings (e.effects ctx) (e.callSites ctx.settings) := by
  have hsites : e.callSites ctx.settings =
      Expr.allCallSites ctx.settings e.operands ++ e.ownCallSites ctx.settings := by
    cases e <;> simp [Expr.callSites, Expr.allCallSites, Expr.operands]
  rw [hsites]
  cases e with
  | listLiteral note elements =>
    have hnone : (Expr.listLiteral note elements).ownCallSites ctx.settings = [] := rfl
    rw [hnone, List.append_nil]
    exact h
  | _ => simpa [Expr.effects, Expr.operands, Expr.allEffects] using h.append hown

theorem Expr.performs {e : Expr} (h : ∀ node ∈ e.nodes, node.fault? ctx.layout = none) :
    Performs ctx.settings (e.effects ctx) (e.callSites ctx.settings) := by
  induction e using Expr.operandInduction with
  | h e ih =>
    rw [Expr.nodes_eq, List.forall_mem_cons] at h
    refine Expr.performs_of_operands (Expr.performs_all fun o ho => ?_) (Expr.performs_own h.1)
    exact ih o ho fun node hn => h.2 node (Expr.nodes_subset_allNodes ho hn)

theorem Stmt.performs_plain {stmt : Stmt} (hp : stmt.isPlain = true)
    (h : ∀ node ∈ Expr.allNodes stmt.exprs, node.fault? ctx.layout = none) :
    Performs ctx.settings (stmt.effects ctx) (stmt.callSites ctx.settings) := by
  have hexprs : Performs ctx.settings (Expr.allEffects ctx stmt.exprs)
      (Expr.allCallSites ctx.settings stmt.exprs) :=
    Expr.performs_all fun e he =>
      Expr.performs fun node hn => h node (Expr.nodes_subset_allNodes he hn)
  have hown : Performs ctx.settings (stmt.ownEffects ctx) (stmt.ownCallSites ctx.settings) := by
    cases stmt <;> rfl
  cases stmt with
  | ifElse | whileLoop => cases hp
  | _ => exact hexprs.append hown

theorem performs_body {body : List Stmt}
    (h : ∀ node ∈ bodyExprs body, node.fault? ctx.layout = none) :
    Performs ctx.settings (bodyEffects ctx body) (bodyCallSites ctx.settings body) := by
  induction body using Stmt.bodyInduction with
  | nil => rfl
  | plain stmt rest hp ih =>
    rw [bodyExprs_plain rest hp, List.forall_mem_append] at h
    exact (Stmt.performs_plain hp h.1).append (ih h.2)
  | ifElse note cond thenBody elseBody rest iht ihe ih =>
    simp only [bodyExprs_ifElse, List.forall_mem_append] at h
    obtain ⟨⟨⟨hcond, hthen⟩, helse⟩, hrest⟩ := h
    exact (((Expr.performs hcond).append (iht hthen)).append (ihe helse)).append (ih hrest)
  | whileLoop note cond body rest ihb ih =>
    simp only [bodyExprs_whileLoop, List.forall_mem_append] at h
    obtain ⟨⟨hcond, hbody⟩, hrest⟩ := h
    exact ((Expr.performs hcond).append (ihb hbody)).append (ih hrest)

end Source

variable {ctx : Context} {p : Source.Program} {names : Names} {q : Flat.Program}

/-- A program that is lowered has no node at fault. -/
theorem fault?_eq_none_of_lowered (h : (flattenProgram ctx p names).result = .ok q) :
    ∀ e ∈ p.exprs, e.fault? ctx.layout = none := by
  have hfaults : p.faults ctx.layout = [] :=
    List.head?_eq_none_iff.mp ((meets_flattenProgram p names).ok_iff.mp ⟨q, h⟩)
  intro e he
  obtain ⟨body, hbody, he⟩ := List.mem_flatMap.mp he
  obtain ⟨stmt, hstmt, he⟩ := List.mem_flatMap.mp he
  rw [Source.Program.faults_eq_flatMap, List.flatMap_eq_nil_iff] at hfaults
  have hnone := List.flatMap_eq_nil_iff.mp (hfaults body hbody) stmt hstmt
  have hexprs := (List.append_eq_nil_iff.mp hnone).2
  exact Option.toList_eq_nil_iff.mp (List.flatMap_eq_nil_iff.mp hexprs e he)

/-- The calls of a lowered program are those of its source, one by one. -/
theorem callees_of_lowered (h : (flattenProgram ctx p names).result = .ok q) :
    q.callees = (p.callSites ctx.settings).map (CallSite.target ctx.settings) := by
  obtain ⟨t, hl, -⟩ := lowers_of_result h
  rw [Flat.Program.callees, ← filterMap_codeEffects, hl.effects, List.filterMap_flatMap,
    Source.Program.callSites, List.map_flatMap]
  refine List.flatMap_congr fun body hb => ?_
  apply Source.performs_body
  intro e he
  exact fault?_eq_none_of_lowered h e (List.mem_flatMap.mpr ⟨body, hb, he⟩)

theorem callee_of_dispatches (h : (flattenProgram ctx p names).result = .ok q) {i : Nat}
    {className method : String} (hd : p.Dispatches ctx.settings i className method) :
    q.callees[i]? = some (ctx.settings.methodName className method) := by
  obtain ⟨site, hsite, hd⟩ := hd
  rw [callees_of_lowered h, List.getElem?_map, hsite, Option.map_some,
    CallSite.target_of_dispatch? hd]

/-- Methods of classes without the first character of the separator in their names share no
function, and the function of a method has the name of no other function or helper without that
character. So in a lowered program, whose calls are those that its source asks for, two calls of
methods or for new objects have the same target exactly if they have the same class and method, and
none of them goes to a function of the source without that character in its name. -/
theorem dispatch_tells_methods_apart (ctx : Context) {mark : Char}
    (hm : ctx.settings.separator.toList.head? = some mark) :
    (∀ class₁ class₂ method₁ method₂, mark ∉ class₁.toList → mark ∉ class₂.toList →
      ctx.settings.methodName class₁ method₁ = ctx.settings.methodName class₂ method₂ →
      class₁ = class₂ ∧ method₁ = method₂) ∧
    (∀ className method name, mark ∉ name.toList →
      ctx.settings.methodName className method ≠ name) ∧
    ∀ p names q, (flattenProgram ctx p names).result = .ok q →
      q.callees = (p.callSites ctx.settings).map (CallSite.target ctx.settings) ∧
      (∀ i j class₁ class₂ method₁ method₂,
        p.Dispatches ctx.settings i class₁ method₁ → p.Dispatches ctx.settings j class₂ method₂ →
        mark ∉ class₁.toList → mark ∉ class₂.toList →
        (q.callees[i]? = q.callees[j]? ↔ class₁ = class₂ ∧ method₁ = method₂)) ∧
      ∀ i className method, p.Dispatches ctx.settings i className method →
        ∀ f ∈ p.functions, mark ∉ f.name.toList → q.callees[i]? ≠ some f.name := by
  refine ⟨fun _ _ _ _ => methodName_inj hm, fun className method _ =>
    methodName_ne hm className method, ?_⟩
  intro p names q h
  refine ⟨callees_of_lowered h, ?_, ?_⟩
  · intro i j class₁ class₂ method₁ method₂ hi hj h₁ h₂
    rw [callee_of_dispatches h hi, callee_of_dispatches h hj, Option.some_inj]
    constructor
    · exact methodName_inj hm h₁ h₂
    · rintro ⟨rfl, rfl⟩
      rfl
  · intro i className method hi f _ hf
    rw [callee_of_dispatches h hi, ne_eq, Option.some_inj]
    exact methodName_ne hm className method hf

/-- A method with the separator in its name, a function with the name of a method, and an object
that is started again. -/
def Source.drain : Source.Program :=
  let number : Note := ⟨.number, {}⟩
  let queue : Note := ⟨.object "Queue", {}⟩
  let stack : Note := ⟨.object "Stack", {}⟩
  { functions := [{
      name := "pop", params := [⟨"q", .object "Queue"⟩], ret := .number, locals := [], loc := {}
      body := [.ret number (.methodCall number (.var queue "q") "pop" [])] }]
    classes := [⟨"Queue", [], [], {}⟩, ⟨"Stack", [], [], {}⟩]
    body := [.eval number (.methodCall number (.construct queue "Queue") "pop::all" []),
      .eval number (.methodCall number (.var stack "s") "pop"
        [.call number "pop" [.var queue "q"]]),
      .eval number (.methodCall number (.var queue "q") "__init__" [])] }

theorem drain_methods_apart :
    let ctx : Context := ⟨.ofClasses Source.drain.classes, { separator := "::" }⟩
    ctx.settings.separator.toList.head? = some ':' ∧
    ∃ q, (flattenProgram ctx Source.drain {}).result = .ok q ∧
      q.callees[0]? = q.callees[7]? ∧ q.callees[5]? ≠ q.callees[9]? ∧
      q.callees[2]? ≠ q.callees[9]? ∧ q.callees[9]? ≠ some "pop" := by
  intro ctx
  obtain ⟨q, hq⟩ := ok_of_isOk
    (show (flattenProgram ctx Source.drain {}).result.isOk = true by decide +kernel)
  have hstart : Source.drain.Dispatches ctx.settings 0 "Queue" "__init__" := ⟨_, rfl, rfl⟩
  have hall : Source.drain.Dispatches ctx.settings 2 "Queue" "pop::all" := ⟨_, rfl, rfl⟩
  have hstack : Source.drain.Dispatches ctx.settings 5 "Stack" "pop" := ⟨_, rfl, rfl⟩
  have hagain : Source.drain.Dispatches ctx.settings 7 "Queue" "__init__" := ⟨_, rfl, rfl⟩
  have hqueue : Source.drain.Dispatches ctx.settings 9 "Queue" "pop" := ⟨_, rfl, rfl⟩
  have hm : ctx.settings.separator.toList.head? = some ':' := by decide
  obtain ⟨-, hsame, hfunction⟩ := (dispatch_tells_methods_apart ctx hm).2.2 Source.drain {} q hq
  refine ⟨hm, q, hq, ?_, ?_, ?_, ?_⟩
  · exact (hsame 0 7 _ _ _ _ hstart hagain (by decide) (by decide)).mpr ⟨rfl, rfl⟩
  · rw [ne_eq, hsame 5 9 _ _ _ _ hstack hqueue (by decide) (by decide)]
    decide
  · rw [ne_eq, hsame 2 9 _ _ _ _ hall hqueue (by decide) (by decide)]
    decide
  · exact hfunction 9 _ _ hqueue _ List.mem_cons_self (by decide)

end BlockLowering
