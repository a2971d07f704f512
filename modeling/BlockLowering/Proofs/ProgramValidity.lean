import BlockLowering.Proofs.LoweredShape
import BlockLowering.Proofs.ProgramNames

/-! Lowered programs keep the rules of flat code, from whatever supply their names are drawn. So the
check at the end of lowering never fails, and to make it or not is the same. -/

namespace BlockLowering

open Source (Expr Stmt)
open Flat (Operand Decl Block ValidBody)

/-- The same context, with or without the check. -/
def Context.checking (ctx : Context) (checked : Bool) : Context :=
  ⟨ctx.layout, { ctx.settings with validate := checked }⟩

/-- Contexts that lower every body alike: their layouts have the same tables, and their settings
differ at most in the check of the result. -/
structure Context.Alike (ctx ctx' : Context) : Prop where
  fields? : ∀ name, ctx.layout.fields? name = ctx'.layout.fields? name
  settings : ∃ checked, ctx.settings = { ctx'.settings with validate := checked }

theorem Context.checking_alike (ctx : Context) (checked : Bool) :
    (ctx.checking checked).Alike ctx :=
  ⟨fun _ => rfl, checked, rfl⟩

section

variable {ctx ctx' : Context}

theorem flattenAll_congr {es : List Expr} (hes : ∀ e ∈ es, flatten ctx e = flatten ctx' e) :
    flattenAll ctx es = flattenAll ctx' es := by
  induction es with
  | nil => simp only [flattenAll]
  | cons e es ih =>
    have htail := ih fun e' he' => hes e' (List.mem_cons_of_mem _ he')
    simp only [flattenAll, hes e List.mem_cons_self, htail]

namespace Context.Alike

variable (h : ctx.Alike ctx')
include h

theorem requireClass_eq : requireClass ctx.layout = requireClass ctx'.layout := by
  funext className loc
  simp only [requireClass, h.fields?]

theorem requireField_eq : requireField ctx.layout = requireField ctx'.layout := by
  funext access receiver field
  simp only [requireField, h.requireClass_eq]

theorem methodName_eq : ctx.settings.methodName = ctx'.settings.methodName := by
  obtain ⟨checked, hs⟩ := h.settings
  rw [hs]
  rfl

theorem notNoneHelper_eq : ctx.settings.notNoneHelper = ctx'.settings.notNoneHelper := by
  obtain ⟨checked, hs⟩ := h.settings
  rw [hs]

theorem elementOffset_eq : elementOffset ctx = elementOffset ctx' := by
  obtain ⟨checked, hs⟩ := h.settings
  funext index list
  simp only [elementOffset, hs]

theorem flattenConstruct_eq : flattenConstruct ctx = flattenConstruct ctx' := by
  have hinit : ctx.settings.initMethod = ctx'.settings.initMethod := by
    obtain ⟨checked, hs⟩ := h.settings
    rw [hs]
  funext note className
  simp only [flattenConstruct, h.requireClass_eq, h.methodName_eq, hinit]

theorem flatten_eq (e : Expr) : flatten ctx e = flatten ctx' e := by
  induction e with
  | unary note op arg ih | builtin1 note name arg ih => simp only [flatten, ih]
  | binary note op l r ihl ihr | builtin2 note name l r ihl ihr => simp only [flatten, ihl, ihr]
  | call note name args ih => simp only [flatten, flattenAll_congr ih]
  | methodCall note receiver method args ihr ih =>
    simp only [flatten, ihr, flattenAll_congr ih, h.methodName_eq, h.notNoneHelper_eq]
  | field note receiver name ih => simp only [flatten, ih, h.requireField_eq]
  | index note receiver index ihr ihi => simp only [flatten, ihr, ihi, h.elementOffset_eq]
  | construct note className => simp only [flatten, h.flattenConstruct_eq]
  | listLiteral note elements ih => simp only [flatten, flattenAll_congr ih]
  | var note name => simp only [flatten]
  | literal note value => simp only [flatten]

theorem flattenOperand_eq : flattenOperand ctx = flattenOperand ctx' := by
  funext e
  simp only [flattenOperand, h.flatten_eq]

theorem flattenStmt_eq (stmt : Stmt) : flattenStmt ctx stmt = flattenStmt ctx' stmt := by
  cases stmt with
  | assignField note receiver name value =>
    simp only [flattenStmt, h.flattenOperand_eq, h.requireField_eq]
  | assignIndex note receiver index value =>
    simp only [flattenStmt, h.flattenOperand_eq, h.elementOffset_eq]
  | _ => simp only [flattenStmt, h.flatten_eq, h.flattenOperand_eq]

theorem buildStmts_eq (body : List Stmt) : buildStmts ctx body = buildStmts ctx' body := by
  induction body using Stmt.bodyInduction with
  | nil => simp only [buildStmts]
  | plain stmt rest hp ih =>
    simp only [buildStmts, buildStmt_plain hp, h.flattenStmt_eq, ih]
  | ifElse note cond thenBody elseBody rest iht ihe ih =>
    simp only [buildStmts, buildStmt, flattenTest, h.flattenOperand_eq, iht, ihe, ih]
  | whileLoop note cond body rest ihb ih =>
    simp only [buildStmts, buildStmt, flattenTest, h.flattenOperand_eq, ihb, ih]

theorem logBody_eq (spans : List Span) (entry : String) (body : List Stmt) :
    logBody spans ctx entry body = logBody spans ctx' entry body := by
  have hbody : buildBody ctx entry body = buildBody ctx' entry body := by
    funext names
    simp only [buildBody, h.buildStmts_eq]
  rw [logBody, hbody, logBody]

theorem flattenFunction_eq : flattenFunction ctx = flattenFunction ctx' := by
  funext spans f
  simp only [flattenFunction, h.logBody_eq]

theorem flattenClass_eq : flattenClass ctx = flattenClass ctx' := by
  funext c
  simp only [flattenClass, h.flattenFunction_eq]

end Context.Alike

end

variable {ctx : Context}

theorem flattenProgram_checking (checked : Bool) (p : Source.Program) :
    flattenProgram (ctx.checking checked) p = (do
      let (temporaries, body) ← logBody [] ctx Base.programStart p.body
      let functions ← Lower.each (flattenFunction ctx []) p.functions
      let classes ← Lower.each (flattenClass ctx) p.classes
      finishProgram checked
        ⟨functions, temporaries ++ p.globals.map .ofSource, classes, body⟩) := by
  have h := ctx.checking_alike checked
  rw [flattenProgram_eq, h.logBody_eq, h.flattenFunction_eq, h.flattenClass_eq]
  rfl

section

variable {ω α β : Type} [EmptyCollection ω] [Append ω]

theorem Lower.Supplied.draws [Naming ω] {m : Lower ω α} (h : m.Supplied) {a b : Names} {x : α}
    {t : ω} (hy : m.Yields a x b t) : Draws a b (drawn t) := by
  have hd := h a
  rwa [show m a = _ from hy] at hd

theorem Lower.each_yields_exists {step : α → Lower ω β} {R : α → β → Prop}
    (h : ∀ {item a x b t}, (step item).Yields a x b t → R item x) {items : List α} {a b : Names}
    {xs : List β} {t : ω} (hy : (each step items).Yields a xs b t) :
    ∀ x ∈ xs, ∃ item ∈ items, R item x := by
  induction items generalizing a xs t with
  | nil =>
    obtain ⟨rfl, _, _⟩ := yields_pure.mp hy
    simp
  | cons item rest ih =>
    obtain ⟨x, ys, mid, t₁, t₂, hx, hys, rfl, rfl⟩ := exists_of_each_cons hy
    refine List.forall_mem_cons.mpr ⟨⟨item, List.mem_cons_self, h hx⟩, fun y hy => ?_⟩
    obtain ⟨item', hmem, hr⟩ := ih hys y hy
    exact ⟨item', List.mem_cons_of_mem _ hmem, hr⟩

theorem Lower.each_yields_forall {step : α → Lower ω β} {P : β → Prop}
    (h : ∀ {item a x b t}, (step item).Yields a x b t → P x) {items : List α} {a b : Names}
    {xs : List β} {t : ω} (hy : (each step items).Yields a xs b t) : ∀ x ∈ xs, P x := by
  intro x hx
  obtain ⟨_, _, hp⟩ := each_yields_exists (R := fun _ x => P x) h hy x hx
  exact hp

theorem Lower.bind_congr {m : Lower ω α} {f g : α → Lower ω β} {names : Names}
    (h : ∀ {a after t}, m.Yields names a after t → f a after = g a after) :
    (m >>= f) names = (m >>= g) names := by
  change andThen m f names = andThen m g names
  unfold andThen
  rcases hm : m names with ⟨e | a, after, t⟩
  · rfl
  · simp only [h hm]

end

theorem logBody_valid {spans : List Span} {entry : String} {body : List Stmt} {ds : List Decl}
    {blocks : List Block} {a b : Names} {t : List Event}
    (h : (logBody spans ctx entry body).Yields a (ds, blocks) b t) : ValidBody blocks := by
  obtain ⟨steps, hy, rfl⟩ := Lower.yields_mapTrail.mp h
  obtain ⟨f, u, hb, rfl, hd⟩ := buildBody_builds hy
  exact hb.validBody _

theorem flattenFunction_valid {spans : List Span} {f : Source.Function} {g : Flat.Function}
    {a b : Names} {t : List Event} (h : (flattenFunction ctx spans f).Yields a g b t) :
    ValidBody g.body := by
  obtain ⟨ds, blocks, t', hb, -, rfl⟩ := flattenFunction_cases h
  exact logBody_valid hb

theorem flattenClass_valid {c : Source.Class} {d : Flat.Class} {a b : Names} {t : List Event}
    (h : (flattenClass ctx c).Yields a d b t) : ∀ g ∈ d.methods, ValidBody g.body := by
  obtain ⟨methods, hm, rfl⟩ := flattenClass_parts h
  exact Lower.each_yields_forall flattenFunction_valid hm

theorem program_valid {p : Source.Program} {ds : List Decl} {body : List Block}
    {functions : List Flat.Function} {classes : List Flat.Class} {a b c d : Names}
    {t₁ t₂ t₃ : List Event}
    (hb : (logBody [] ctx Base.programStart p.body).Yields a (ds, body) b t₁)
    (hf : (Lower.each (flattenFunction ctx []) p.functions).Yields b functions c t₂)
    (hc : (Lower.each (flattenClass ctx) p.classes).Yields c classes d t₃) :
    (⟨functions, ds ++ p.globals.map .ofSource, classes, body⟩ : Flat.Program).Valid := by
  have hvf := Lower.each_yields_forall flattenFunction_valid hf
  have hvc := Lower.each_yields_forall flattenClass_valid hc
  have hdb : Draws a b (drawn t₁) := (LogStep.supplied (.body (by decide))).draws hb
  have hdf : Draws b c (drawn t₂) := ((Lower.Composed.each (composed_flattenFunction [])
    p.functions).supplied fun _ _ => LogStep.supplied).draws hf
  have hdc : Draws c d (drawn t₃) := ((Lower.Composed.each composed_flattenClass
    p.classes).supplied fun _ _ => LogStep.supplied).draws hc
  constructor
  · simp only [Flat.Program.bodies, List.cons_append, List.forall_mem_cons,
      List.forall_mem_append, List.mem_map, List.mem_flatMap]
    refine ⟨logBody_valid hb, ?_, ?_⟩
    · rintro _ ⟨g, hg, rfl⟩
      exact hvf g hg
    · rintro _ ⟨k, hk, g, hg, rfl⟩
      exact hvc k hk g hg
  · have hn := (program_names hb hf hc).nodup_iff.mpr ((hdb.trans hdf).trans hdc).nodup
    exact hn.of_append_left

theorem complaints_valid {p : Flat.Program} (h : p.Valid) : p.complaints = [] := by
  rw [Flat.Program.complaints, p.valid_iff.mp h, List.map_nil]

theorem finishProgram_valid {p : Flat.Program} (h : p.Valid) :
    finishProgram true p = finishProgram false p := by
  have hv : validate p = pure () := by
    unfold validate
    rw [complaints_valid h]
  funext names
  simp only [finishProgram, hv, if_true]
  rfl

theorem flattenProgram_checked (p : Source.Program) (names : Names) :
    flattenProgram (ctx.checking true) p names = flattenProgram (ctx.checking false) p names := by
  rw [flattenProgram_checking, flattenProgram_checking]
  refine Lower.bind_congr fun {parts _ _} hb => ?_
  obtain ⟨ds, body⟩ := parts
  refine Lower.bind_congr fun hf => Lower.bind_congr fun hc => ?_
  rw [finishProgram_valid (program_valid hb hf hc)]

theorem flattenProgram_unchecked (ctx : Context) (p : Source.Program) :
    flattenProgram ctx p = flattenProgram (ctx.checking false) p := by
  have h : ∀ checked,
      flattenProgram (ctx.checking checked) p = flattenProgram (ctx.checking false) p := by
    intro checked
    cases checked with
    | false => rfl
    | true => exact funext (flattenProgram_checked p)
  exact h ctx.settings.validate

/-- A program is lowered by its top-level body, its functions and its classes, one after the other,
with or without the check, and then its end is logged. -/
theorem flattenProgram_parts {p : Source.Program} {q : Flat.Program} {a d : Names}
    {t : List Event} (h : (flattenProgram ctx p).Yields a q d t) :
    ∃ ds body functions classes b c t₁ t₂ t₃,
      (logBody [] ctx Base.programStart p.body).Yields a (ds, body) b t₁ ∧
      (Lower.each (flattenFunction ctx []) p.functions).Yields b functions c t₂ ∧
      (Lower.each (flattenClass ctx) p.classes).Yields c classes d t₃ ∧
      t = t₁ ++ (t₂ ++ (t₃ ++
        [⟨[], .loweredProgram functions.length classes.length body.length⟩])) ∧
      q = ⟨functions, ds ++ p.globals.map .ofSource, classes, body⟩ := by
  rw [flattenProgram_unchecked, flattenProgram_checking] at h
  obtain ⟨⟨ds, body⟩, b, t₁, _, hb, h₁, rfl⟩ := Lower.yields_bind.mp h
  obtain ⟨functions, c, t₂, _, hf, h₂, rfl⟩ := Lower.yields_bind.mp h₁
  obtain ⟨classes, _, t₃, _, hc, h₃, rfl⟩ := Lower.yields_bind.mp h₂
  obtain ⟨_, _, _, _, hl, h₄, rfl⟩ := Lower.yields_bind.mp h₃
  obtain ⟨rfl, rfl⟩ := Lower.yields_leave.mp hl
  obtain ⟨rfl, rfl, rfl⟩ := Lower.yields_pure.mp h₄
  exact ⟨ds, body, functions, classes, b, c, t₁, t₂, t₃, hb, hf, hc, rfl, rfl⟩

/-- The end of a program has no names in it. -/
theorem flattenProgram_cases {p : Source.Program} {q : Flat.Program} {a d : Names}
    {t : List Event} (h : (flattenProgram ctx p).Yields a q d t) :
    ∃ ds body functions classes b c t₁ t₂ t₃,
      (logBody [] ctx Base.programStart p.body).Yields a (ds, body) b t₁ ∧
      (Lower.each (flattenFunction ctx []) p.functions).Yields b functions c t₂ ∧
      (Lower.each (flattenClass ctx) p.classes).Yields c classes d t₃ ∧
      drawn t = drawn t₁ ++ drawn t₂ ++ drawn t₃ ∧
      q = ⟨functions, ds ++ p.globals.map .ofSource, classes, body⟩ := by
  obtain ⟨ds, body, functions, classes, b, c, t₁, t₂, t₃, hb, hf, hc, rfl, rfl⟩ :=
    flattenProgram_parts h
  refine ⟨ds, body, functions, classes, b, c, t₁, t₂, t₃, hb, hf, hc, ?_, rfl⟩
  rw [drawn_append, drawn_append, drawn_append]
  change drawn t₁ ++ (drawn t₂ ++ (drawn t₃ ++ [])) = _
  rw [List.append_nil, List.append_assoc]

/-- What a lowered program is: it keeps the rules, and the names drawn for it are its labels and
its temporaries. -/
theorem flattenProgram_yields {p : Source.Program} {q : Flat.Program} {a b : Names}
    {t : List Event} (h : (flattenProgram ctx p).Yields a q b t) :
    q.Valid ∧ (q.labels ++ q.temporaries p).Perm (drawn t) := by
  obtain ⟨ds, body, functions, classes, _, _, t₁, t₂, t₃, hb, hf, hc, hdrawn, rfl⟩ :=
    flattenProgram_cases h
  refine ⟨program_valid hb hf hc, ?_⟩
  rw [hdrawn]
  exact program_names hb hf hc

theorem composed_flattenProgram (p : Source.Program) :
    Lower.Composed LogStep Flat.Program (flattenProgram ctx p) := by
  rw [flattenProgram_unchecked, flattenProgram_checking]
  exact (Lower.Composed.step (.body (by decide))).bind fun _ =>
    (Lower.Composed.each (composed_flattenFunction []) p.functions).bind fun _ =>
      (Lower.Composed.each composed_flattenClass p.classes).bind fun _ =>
        composed_finishProgram _

/-- Lowering makes no invalid programs: without the check its result keeps the rules, with it or
without it no program is rejected as invalid, and the check changes nothing at all. -/
theorem lowered_program_valid (ctx : Context) (p : Source.Program) (names : Names) :
    (∀ q, (flattenProgram (ctx.checking false) p names).result = .ok q →
      q.Valid ∧ q.complaints = []) ∧
    (∀ complaints, (flattenProgram ctx p names).result ≠ .error (.invalidCode complaints)) ∧
    flattenProgram (ctx.checking true) p names = flattenProgram (ctx.checking false) p names := by
  refine ⟨fun q hq => ?_, ?_, flattenProgram_checked p names⟩
  · obtain ⟨hv, _⟩ := flattenProgram_yields (Lower.yields_of_result hq)
    exact ⟨hv, complaints_valid hv⟩
  · exact (composed_flattenProgram p).accepting (fun _ _ => LogStep.accepting) names

/-- A function that counts down to zero, and a call of it where the number is positive. -/
def Source.guardedCount : Source.Program :=
  let number : Source.Note := ⟨.number, {}⟩
  let n : Source.Expr := .var number "n"
  let zero : Source.Expr := .literal number (.num 0)
  let one : Source.Expr := .literal number (.num 1)
  { functions := [⟨"count", [⟨"n", .number⟩], .number, [],
      [.whileLoop number (.binary number .gt n zero)
        [.assign number "n" (.binary number .minus n one)], .ret number n], {}⟩]
    globals := [⟨"n", .number, .num 3, {}⟩]
    body := [.ifElse number (.binary number .gt n zero)
      [.eval number (.call number "count" [n])] []] }

theorem guardedCount_valid :
    ∃ q, (flattenProgram (Context.checking ⟨{}, {}⟩ false) Source.guardedCount {}).result = .ok q ∧
      q.blocks.length = 8 ∧ q.Valid ∧ q.complaints = [] := by
  let ctx := Context.checking ⟨{}, {}⟩ false
  obtain ⟨q, hq⟩ := ok_of_isOk
    (show (flattenProgram ctx Source.guardedCount {}).result.isOk = true by decide +kernel)
  have hlength : ((flattenProgram ctx Source.guardedCount {}).result.toOption.map
      fun q => q.blocks.length) = some 8 := by
    decide +kernel
  rw [hq] at hlength
  exact ⟨q, hq, Option.some.inj hlength,
    (lowered_program_valid ⟨{}, {}⟩ Source.guardedCount {}).1 q hq⟩

end BlockLowering
