import BlockLowering.Proofs.ProgramValidity
import BlockLowering.Proofs.SourceFaults

/-! The fault that lowering ends in. Lowering follows the stops of a source tree: it draws the names
in front of the first fault and ends there, or in a value if there is none. So it ends in the
first of the faults, and the settings and the supply of names have no part in this. -/

namespace BlockLowering

open Source (Expr Stmt Note Loc classFault? bodyFaults bodyStops entryStops)
open Flat (Operand Rhs)

/-- A result is the given fault, or a value where there is none. -/
def Judged {α : Type} (result : Except Fault α) : Option Fault → Prop
  | none => ∃ a, result = .ok a
  | some f => result = .error f

theorem Judged.ok_iff {α : Type} {result : Except Fault α} {fault : Option Fault}
    (h : Judged result fault) : (∃ a, result = .ok a) ↔ fault = none := by
  cases fault with
  | none => exact ⟨fun _ => rfl, fun _ => h⟩
  | some f =>
    obtain rfl : result = .error f := h
    simp

theorem Judged.error_iff {α : Type} {result : Except Fault α} {fault : Option Fault}
    (h : Judged result fault) (f : Fault) : result = .error f ↔ fault = some f := by
  cases fault with
  | none =>
    obtain ⟨a, rfl⟩ := h
    simp
  | some g =>
    obtain rfl : result = .error g := h
    simp

/-- The supply at the first fault, and the fault. -/
def Names.follow (names : Names) : List WalkStop → Names × Option Fault
  | [] => (names, none)
  | .need n :: rest => (names.advance n.base).follow rest
  | .fault f :: _ => (names, some f)

namespace Names

theorem follow_snd (names : Names) (stops : List WalkStop) :
    (names.follow stops).2 = (faultsOf stops).head? := by
  induction stops generalizing names with
  | nil => rfl
  | cons stop rest ih =>
    cases stop with
    | need n => exact ih _
    | fault f => rfl

theorem follow_append {names mid : Names} {first : List WalkStop}
    (h : names.follow first = (mid, none)) (later : List WalkStop) :
    names.follow (first ++ later) = mid.follow later := by
  induction first generalizing names with
  | nil =>
    obtain rfl : names = mid := congrArg Prod.fst h
    rfl
  | cons stop rest ih =>
    cases stop with
    | need n => exact ih h
    | fault f => cases h

theorem follow_append_fault {names mid : Names} {first : List WalkStop} {f : Fault}
    (h : names.follow first = (mid, some f)) (later : List WalkStop) :
    names.follow (first ++ later) = (mid, some f) := by
  induction first generalizing names with
  | nil => cases h
  | cons stop rest ih =>
    cases stop with
    | need n => exact ih h
    | fault g => exact h

end Names

/-- From whatever supply of names it starts, the step ends in the first of the faults, or in a value
if there are none. -/
def Lower.Meets {ω α : Type} (m : Lower ω α) (faults : List Fault) : Prop :=
  ∀ names, Judged (m names).result faults.head?

/-- The step draws the names in front of the first fault, and ends in it. -/
def Lower.Walks {ω α : Type} (m : Lower ω α) (stops : List WalkStop) : Prop :=
  ∀ names, (m names).names = (names.follow stops).1 ∧ Judged (m names).result (names.follow stops).2

namespace Lower

variable {ω ω' α β : Type}

theorem Walks.meets {m : Lower ω α} {stops : List WalkStop} (hm : m.Walks stops) :
    m.Meets (faultsOf stops) := by
  intro names
  rw [← names.follow_snd]
  exact (hm names).2

theorem Walks.mapTrail {m : Lower ω α} {stops : List WalkStop} (hm : m.Walks stops) (f : ω → ω') :
    (m.mapTrail f).Walks stops :=
  hm

theorem walks_leave (trail : ω) : (leave trail).Walks [] := fun _ => ⟨rfl, (), rfl⟩

variable [EmptyCollection ω] [Append ω]

theorem walks_pure (a : α) : (pure a : Lower ω α).Walks [] := fun _ => ⟨rfl, a, rfl⟩

/-- What comes next is only asked of the values that the first step can give. -/
theorem Walks.bind_of_yields {m : Lower ω α} {next : α → Lower ω β} {first later : List WalkStop}
    (hm : m.Walks first) (hn : ∀ {a names mid t}, m.Yields names a mid t → (next a).Walks later) :
    (m >>= next).Walks (first ++ later) := by
  intro names
  obtain ⟨hnames, hresult⟩ := hm names
  change (andThen m next names).names = _ ∧ Judged (andThen m next names).result _
  unfold andThen
  rcases hr : m names with ⟨r, mid, t⟩
  rcases hf : names.follow first with ⟨mid', fault⟩
  rw [hr, hf] at hnames hresult
  obtain rfl : mid = mid' := hnames
  cases fault with
  | none =>
    obtain ⟨a, rfl⟩ := hresult
    rw [Names.follow_append hf]
    exact hn hr mid
  | some f =>
    obtain rfl : r = .error f := hresult
    rw [Names.follow_append_fault hf]
    exact ⟨rfl, rfl⟩

theorem Walks.bind {m : Lower ω α} {next : α → Lower ω β} {first later : List WalkStop}
    (hm : m.Walks first) (hn : ∀ a, (next a).Walks later) :
    (m >>= next).Walks (first ++ later) :=
  hm.bind_of_yields fun {a _ _ _} _ => hn a

theorem Walks.last {m : Lower ω α} {next : α → Lower ω β} {stops : List WalkStop}
    (hm : m.Walks stops) (hn : ∀ a, (next a).Walks []) : (m >>= next).Walks stops := by
  have h := hm.bind hn
  rwa [List.append_nil] at h

theorem Walks.each {step : α → Lower ω β} {stops : α → List WalkStop}
    (h : ∀ a, (step a).Walks (stops a)) (items : List α) :
    (each step items).Walks (items.flatMap stops) := by
  induction items with
  | nil => exact walks_pure []
  | cons a rest ih => exact (h a).bind fun b => ih.last fun bs => walks_pure (b :: bs)

end Lower

open Lower (Walks walks_pure walks_leave)

theorem walks_draw (n : Need) : (draw n.base).Walks [.need n] :=
  fun names => ⟨rfl, names.fresh n.base, rfl⟩

theorem walks_check {α : Type} {result : Except Fault α} {fault : Option Fault}
    (h : Judged result fault) : (check result).Walks (fault.toList.map .fault) := by
  intro names
  cases fault <;> exact ⟨rfl, h⟩

theorem judged_requireObject (access : Access) (receiver : Expr) :
    Judged (requireObject access receiver) (receiver.objectFault? access) := by
  unfold requireObject Expr.objectFault?
  cases receiver.ty with
  | object name => exact ⟨name, rfl⟩
  | _ => rfl

theorem judged_requireList (access : Access) (receiver : Expr) :
    Judged (requireList access receiver) (receiver.listFault? access) := by
  unfold requireList Expr.listFault?
  cases receiver.ty with
  | list elem => exact ⟨(), rfl⟩
  | _ => rfl

theorem judged_requireClass (layout : Layout) (className : String) (loc : Loc) :
    Judged (requireClass layout className loc) (classFault? layout className loc) := by
  unfold requireClass classFault?
  cases layout.fields? className with
  | none => rfl
  | some fields => exact ⟨fields, rfl⟩

theorem judged_requireField (layout : Layout) (access : Access) (receiver : Expr)
    (field : String) : Judged (requireField layout access receiver field)
      (receiver.fieldFault? layout access field) := by
  unfold requireField requireObject requireClass Expr.fieldFault?
  cases receiver.ty with
  | object className =>
    cases hf : layout.fields? className with
    | none => simp [Source.Ty.objectName?, hf, bind, Except.bind, Judged]
    | some fields =>
      cases hs : fields.get? field with
      | none => simp [Source.Ty.objectName?, hf, hs, bind, Except.bind, Judged]
      | some slot => simp [Source.Ty.objectName?, hf, hs, bind, Except.bind, Judged]
  | _ => rfl

variable {ctx : Context}

theorem walks_asOperand {e : Expr} {flat : WithPrelude Rhs} {a b : Names} {t : List String}
    (h : Flattens ctx a e flat b t) : (asOperand e.ty flat).Walks (e.holder.map .need) := by
  obtain ⟨p, r⟩ := flat
  cases r with
  | operand v =>
    have hc : ¬ e.isComposite = true := fun hc => h.isComposite_iff.mp hc v rfl
    rw [Expr.holder, if_neg hc]
    exact walks_pure _
  | _ =>
    rw [Expr.holder, if_pos (h.isComposite_iff.mpr fun v hv => by cases hv)]
    exact (walks_draw (.temporary Base.operand e.ty)).last fun _ => walks_pure _

theorem walks_elementOffset (index list : Operand) : (elementOffset ctx index list).Walks
    [.need (.temporary Base.length .number), .need (.temporary Base.offset .number)] :=
  (walks_draw (.temporary Base.length .number)).bind fun _ =>
    (walks_draw (.temporary Base.offset .number)).last fun _ => walks_pure _

theorem walks_flattenOperand_of {e : Expr} (h : (flatten ctx e).Walks (e.stops ctx.layout)) :
    (flattenOperand ctx e).Walks (e.operandStops ctx.layout) :=
  h.bind_of_yields fun hy => walks_asOperand (flatten_flattens hy)

theorem walks_flattenAll_of {es : List Expr}
    (hes : ∀ e ∈ es, (flatten ctx e).Walks (e.stops ctx.layout)) :
    (flattenAll ctx es).Walks (Expr.allStops ctx.layout es) := by
  induction es with
  | nil =>
    rw [flattenAll]
    exact walks_pure _
  | cons e es ih =>
    rw [List.forall_mem_cons] at hes
    rw [flattenAll_cons, Expr.allStops]
    exact (walks_flattenOperand_of hes.1).bind fun _ => (ih hes.2).last fun _ => walks_pure _

theorem walks_flatten (e : Expr) : (flatten ctx e).Walks (e.stops ctx.layout) := by
  induction e with
  | unary note op arg ih =>
    rw [flatten_unary, Expr.stops]
    exact (walks_flattenOperand_of ih).last fun _ => walks_pure _
  | binary note op l r ihl ihr =>
    rw [flatten_binary, Expr.stops]
    exact (walks_flattenOperand_of ihl).bind fun _ =>
      (walks_flattenOperand_of ihr).last fun _ => walks_pure _
  | builtin1 note name arg ih =>
    rw [flatten_builtin1, Expr.stops]
    exact (walks_flattenOperand_of ih).last fun _ => walks_pure _
  | builtin2 note name l r ihl ihr =>
    rw [flatten_builtin2, Expr.stops]
    exact (walks_flattenOperand_of ihl).bind fun _ =>
      (walks_flattenOperand_of ihr).last fun _ => walks_pure _
  | call note name args ih =>
    rw [flatten, Expr.stops]
    exact (walks_flattenAll_of ih).last fun _ => walks_pure _
  | methodCall note receiver method args ihr ih =>
    rw [flatten_methodCall, Expr.stops]
    exact (walks_check (judged_requireObject _ _)).bind fun _ =>
      (walks_flattenOperand_of ihr).bind fun _ =>
        (walks_flattenAll_of ih).last fun _ => walks_pure _
  | field note receiver name ih =>
    rw [flatten_field, Expr.stops]
    exact (walks_check (judged_requireField _ _ _ _)).bind fun _ =>
      (walks_flattenOperand_of ih).last fun _ => walks_pure _
  | index note receiver index ihr ihi =>
    rw [flatten_index, Expr.stops, List.append_assoc]
    exact (walks_check (judged_requireList _ _)).bind fun _ =>
      (walks_flattenOperand_of ihr).bind fun _ => (walks_flattenOperand_of ihi).bind fun _ =>
        (walks_elementOffset _ _).last fun _ => walks_pure _
  | construct note className =>
    rw [flatten, Expr.stops]
    exact (walks_check (judged_requireClass _ _ _)).bind fun _ =>
      (walks_draw (.temporary Base.object note.ty)).last fun _ => walks_pure _
  | listLiteral note elements ih =>
    rw [flatten, Expr.stops]
    exact (walks_draw (.temporary Base.list note.ty)).bind fun _ =>
      (walks_flattenAll_of ih).last fun _ => walks_pure _
  | var note name =>
    rw [flatten]
    exact walks_pure _
  | literal note value =>
    rw [flatten]
    exact walks_pure _

theorem walks_flattenOperand (e : Expr) :
    (flattenOperand ctx e).Walks (e.operandStops ctx.layout) :=
  walks_flattenOperand_of (walks_flatten e)

theorem walks_flattenStmt {stmt : Stmt} (h : stmt.isPlain = true) :
    (flattenStmt ctx stmt).Walks (stmt.stops ctx.layout) := by
  cases stmt with
  | assign note name value => exact (walks_flatten value).last fun _ => walks_pure _
  | eval note e => exact (walks_flatten e).last fun _ => walks_pure _
  | ret note value => exact (walks_flattenOperand value).last fun _ => walks_pure _
  | pass note => exact walks_pure _
  | assignField note receiver name value =>
    exact (walks_check (judged_requireField _ _ _ _)).bind fun _ =>
      (walks_flattenOperand receiver).bind fun _ =>
        (walks_flattenOperand value).last fun _ => walks_pure _
  | assignIndex note receiver index value =>
    exact (walks_check (judged_requireList _ _)).bind fun _ =>
      (walks_flattenOperand receiver).bind fun _ => (walks_flattenOperand index).bind fun _ =>
        (walks_flattenOperand value).bind fun _ =>
          (walks_elementOffset _ _).last fun _ => walks_pure _
  | ifElse note cond thenBody elseBody => cases h
  | whileLoop note cond body => cases h

theorem walks_label (base : String) : (Build.drawing (draw base)).Walks [.need (.label base)] :=
  (walks_draw (.label base)).mapTrail _

theorem walks_emit (code : List Flat.Instr) : (Build.emit code).Walks [] := walks_leave _

theorem walks_openBlock (label : String) : (Build.openBlock label).Walks [] := walks_leave _

theorem walks_flush {m : Draw Prelude} {stops : List WalkStop} (h : m.Walks stops) :
    (Build.flush m).Walks stops :=
  (h.mapTrail _).last fun _ => (walks_emit _).bind fun _ => walks_pure _

theorem walks_flattenTest (cond : Expr) (thenLabel elseLabel : String) :
    (flattenTest ctx cond thenLabel elseLabel).Walks (cond.operandStops ctx.layout) :=
  (walks_flattenOperand cond).last fun _ => walks_pure _

theorem walks_buildStmts (body : List Stmt) :
    (buildStmts ctx body).Walks (bodyStops ctx.layout body) := by
  induction body using Stmt.bodyInduction with
  | nil =>
    rw [buildStmts]
    exact walks_pure _
  | plain stmt rest hp ih =>
    rw [buildStmts, buildStmt_plain hp, bodyStops]
    exact (walks_flush (walks_flattenStmt hp)).bind fun _ => ih.last fun _ => walks_pure _
  | ifElse note cond thenBody elseBody rest iht ihe ih =>
    rw [buildStmts, buildStmt, bodyStops, Stmt.stops]
    refine Walks.bind ?_ fun _ => ih.last fun _ => walks_pure _
    refine (walks_label _).bind fun _ => (walks_label _).bind fun _ => ?_
    refine (walks_label _).bind fun _ => ?_
    refine (walks_flush (walks_flattenTest cond _ _)).bind fun _ => ?_
    refine (walks_openBlock _).bind fun _ => ?_
    refine iht.bind fun _ => (walks_emit _).bind fun _ => (walks_openBlock _).bind fun _ => ?_
    exact ihe.last fun _ => (walks_emit _).bind fun _ => (walks_openBlock _).bind fun _ =>
      walks_pure _
  | whileLoop note cond body rest ihb ih =>
    rw [buildStmts, buildStmt, bodyStops, Stmt.stops]
    refine Walks.bind ?_ fun _ => ih.last fun _ => walks_pure _
    refine (walks_label _).bind fun _ => (walks_label _).bind fun _ => ?_
    refine (walks_label _).bind fun _ => ?_
    refine (walks_emit _).bind fun _ => (walks_openBlock _).bind fun _ => ?_
    refine (walks_flush (walks_flattenTest cond _ _)).bind fun _ => ?_
    refine (walks_openBlock _).bind fun _ => ?_
    exact ihb.last fun _ => (walks_emit _).bind fun _ => (walks_openBlock _).bind fun _ =>
      walks_pure _

theorem walks_buildBody (entry : String) (body : List Stmt) :
    (buildBody ctx entry body).Walks (entryStops ctx.layout entry body) := by
  intro names
  obtain ⟨hnames, hresult⟩ := @walks_buildStmts ctx body (names.advance entry)
  refine ⟨hnames, ?_⟩
  change Judged (Except.map _ _) ((names.advance entry).follow (bodyStops ctx.layout body)).2
  cases hf : ((names.advance entry).follow (bodyStops ctx.layout body)).2 with
  | none =>
    rw [hf] at hresult
    obtain ⟨decls, hr⟩ := hresult
    exact ⟨_, by rw [hr]; rfl⟩
  | some f =>
    rw [hf] at hresult
    change Except.map _ _ = _
    rw [show (buildStmts ctx body (names.advance entry)).result = .error f from hresult]
    rfl

theorem walks_logBody (spans : List Span) (entry : String) (body : List Stmt) :
    (logBody spans ctx entry body).Walks (entryStops ctx.layout entry body) :=
  (walks_buildBody entry body).mapTrail _

theorem walks_flattenFunction (spans : List Span) (f : Source.Function) :
    (flattenFunction ctx spans f).Walks (entryStops ctx.layout Base.functionStart f.body) :=
  (walks_logBody _ _ _).last fun _ => (walks_leave _).bind fun _ => walks_pure _

theorem walks_flattenClass (c : Source.Class) : (flattenClass ctx c).Walks
    (c.methods.flatMap fun f => entryStops ctx.layout Base.functionStart f.body) :=
  (Walks.each (walks_flattenFunction _) c.methods).last fun _ => walks_pure _

theorem walks_flattenProgram (p : Source.Program) :
    (flattenProgram ctx p).Walks (p.stops ctx.layout) := by
  rw [flattenProgram_unchecked, flattenProgram_checking, Source.Program.stops]
  refine (walks_logBody _ _ _).bind fun _ => ?_
  refine (Walks.each (walks_flattenFunction _) p.functions).bind fun _ => ?_
  exact (Walks.each walks_flattenClass p.classes).last fun _ =>
    (walks_leave _).bind fun _ => walks_pure _

theorem meets_flatten (e : Expr) : (flatten ctx e).Meets (e.faults ctx.layout) := by
  rw [← e.faultsOf_stops]
  exact (walks_flatten e).meets

theorem meets_flattenOperand (e : Expr) : (flattenOperand ctx e).Meets (e.faults ctx.layout) := by
  rw [← e.faultsOf_operandStops]
  exact (walks_flattenOperand e).meets

theorem meets_flattenProgram (p : Source.Program) :
    (flattenProgram ctx p).Meets (p.faults ctx.layout) := by
  rw [← p.faultsOf_stops]
  exact (walks_flattenProgram p).meets

end BlockLowering
