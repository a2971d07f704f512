import BlockLowering.Proofs.LiteralLayouts
import BlockLowering.Proofs.ProgramValidity
import BlockLowering.Proofs.Renumbering

/-! Lowering does not depend on the supply that it starts from, but for the numbers in names. Two runs
of a step from supplies that are level draw the same bases in the same order, and so they end
alike: with the same fault, or with values that are the same once the names of the one are
renumbered as in the other; and the supplies are level again. -/

namespace BlockLowering

open Source (Expr Stmt)
open Flat (Operand Rhs Instr Decl Block)

/-- Trails in which names can be replaced. -/
class Renaming (ω : Type) [EmptyCollection ω] [Append ω] where
  renamed : (String → String) → ω → ω
  renamed_empty (ρ : String → String) : renamed ρ ∅ = ∅
  renamed_append (ρ : String → String) (t u : ω) : renamed ρ (t ++ u) = renamed ρ t ++ renamed ρ u

export Renaming (renamed renamed_empty renamed_append)

@[reducible] def Renaming.ofMap {α : Type} (f : (String → String) → α → α) : Renaming (List α) :=
  ⟨fun ρ => List.map (f ρ), fun _ => rfl, fun _ _ _ => List.map_append⟩

instance : Renaming (List String) := .ofMap id

instance : Renaming (List Step) := .ofMap Step.rename

instance : Renaming (List Event) := .ofMap Event.rename

instance : Renaming Trail where
  renamed := Trail.rename
  renamed_empty _ := rfl
  renamed_append ρ t u := by
    change Trail.mk _ _ = Trail.mk _ _
    simp only [Trail.rename, Trail.mk.injEq]
    exact ⟨List.map_append, Fragment.rename_append ρ t.code u.code⟩

variable {ω ω' α β γ δ : Type} [EmptyCollection ω] [Append ω] [Renaming ω]

/-- Two runs end alike: the value of the one goes over into the value of the other by `f`, and the
names on the trails correspond. -/
structure Outcome.Corresponds (old new : Names) (f : α → β) (o : Outcome ω α) (o' : Outcome ω β) :
    Prop where
  result : o'.result = o.result.map f
  names : Names.Level old new o.names o'.names
  trail : o'.trail = renamed (old.renumber new) o.trail

/-- Runs of two steps from supplies that are level end alike. -/
def Lower.Parallel (old new : Names) (f : α → β) (m : Lower ω α) (m' : Lower ω β) : Prop :=
  ∀ a a', Names.Level old new a a' → Outcome.Corresponds old new f (m a) (m' a')

variable {old new : Names}

namespace Lower

theorem parallel_pure {f : α → β} {x : α} {y : β} (h : f x = y) :
    Parallel old new f (pure x : Lower ω α) (pure y) :=
  fun _ _ hl => ⟨congrArg Except.ok h.symm, hl, (renamed_empty _).symm⟩

theorem Parallel.bind {f : α → β} {g : γ → δ} {m : Lower ω α} {m' : Lower ω β}
    {next : α → Lower ω γ} {next' : β → Lower ω δ} (hm : Parallel old new f m m')
    (hn : ∀ x, Parallel old new g (next x) (next' (f x))) :
    Parallel old new g (m >>= next) (m' >>= next') := by
  intro a a' hl
  have h := hm a a' hl
  change Outcome.Corresponds old new g (andThen m next a) (andThen m' next' a')
  unfold andThen
  rcases hr : m a with ⟨r, mid, t⟩
  rcases hr' : m' a' with ⟨r', mid', t'⟩
  rw [hr, hr'] at h
  obtain ⟨rfl, hmid, rfl⟩ := h
  cases r with
  | error fault => exact ⟨rfl, hmid, rfl⟩
  | ok x =>
    have hx := hn x mid mid' hmid
    refine ⟨hx.result, hx.names, ?_⟩
    rw [renamed_append, ← hx.trail]
    rfl

theorem parallel_leave {t u : ω} (h : u = renamed (old.renumber new) t) :
    Parallel old new id (leave t) (leave u) :=
  fun _ _ hl => ⟨rfl, hl, h⟩

theorem Parallel.mapTrail [EmptyCollection ω'] [Append ω'] [Renaming ω'] {f : α → β}
    {m : Lower ω α} {m' : Lower ω β} (hm : Parallel old new f m m') {g : ω → ω'}
    (hg : ∀ ρ t, g (renamed ρ t) = renamed ρ (g t)) :
    Parallel old new f (m.mapTrail g) (m'.mapTrail g) := by
  intro a a' hl
  have h := hm a a' hl
  exact ⟨h.result, h.names, (congrArg g h.trail).trans (hg _ _)⟩

theorem Parallel.each {step : α → Lower ω β} {f : β → β} {items : List α}
    (h : ∀ item ∈ items, Parallel old new f (step item) (step item)) :
    Parallel old new (List.map f) (each step items) (each step items) := by
  induction items with
  | nil => exact parallel_pure rfl
  | cons item rest ih =>
    rw [List.forall_mem_cons] at h
    exact h.1.bind fun x => (ih h.2).bind fun xs => parallel_pure rfl

end Lower

open Lower (Parallel parallel_pure parallel_leave)

theorem parallel_draw {base : String} (h : base ∈ Base.all) :
    Parallel old new (old.renumber new) (draw base) (draw base) := fun _ _ hl =>
  ⟨congrArg Except.ok (hl.fresh h), hl.advance base, congrArg ([·]) (hl.fresh h)⟩

theorem parallel_checked {result : Except Fault α} {next next' : α → Draw β} {f : β → β}
    (h : ∀ x, result = .ok x → Parallel old new f (next x) (next' x)) :
    Parallel old new f (check result >>= next) (check result >>= next') := by
  intro a a' hl
  cases result with
  | error fault => exact ⟨rfl, hl, rfl⟩
  | ok x => exact h x rfl a a' hl

variable {ctx : Context}

/-- Flattening to a value whose names are replaced by `f`. -/
abbrev Flattened (old new : Names) (f : (String → String) → α → α) (m m' : Draw (WithPrelude α)) :
    Prop :=
  Parallel old new (WithPrelude.rename (old.renumber new) (f (old.renumber new))) m m'

theorem asOperand_parallel (ty : Source.Ty) (x : WithPrelude Rhs) :
    Flattened old new Operand.rename (asOperand ty x)
      (asOperand ty (x.rename (old.renumber new) (Rhs.rename (old.renumber new)))) := by
  obtain ⟨p, r⟩ := x
  cases r with
  | operand v => exact parallel_pure rfl
  | _ =>
    refine (parallel_draw (by decide)).bind fun name => parallel_pure ?_
    simp [WithPrelude.rename, Operand.rename]

theorem elementOffset_parallel (index list : Operand) :
    Flattened old new Operand.rename (elementOffset ctx index list)
      (elementOffset ctx (index.rename (old.renumber new)) (list.rename (old.renumber new))) := by
  refine (parallel_draw (by decide)).bind fun length => (parallel_draw (by decide)).bind fun offset =>
    parallel_pure ?_
  simp [WithPrelude.rename, Rhs.rename, Instr.rename, Operand.rename, helperCall]

theorem flattenOperand_parallel_of {e : Expr}
    (h : Flattened old new Rhs.rename (flatten ctx e) (flatten ctx e)) :
    Flattened old new Operand.rename (flattenOperand ctx e) (flattenOperand ctx e) :=
  h.bind (asOperand_parallel e.ty)

theorem flattenAll_parallel_of {es : List Expr}
    (h : ∀ e ∈ es, (∀ x ∈ e.vars, ¬ IsGenerated x) →
      Flattened old new Rhs.rename (flatten ctx e) (flatten ctx e))
    (hv : ∀ x ∈ Expr.allVars es, ¬ IsGenerated x) :
    Flattened old new (fun ρ => List.map (Operand.rename ρ)) (flattenAll ctx es)
      (flattenAll ctx es) := by
  induction es with
  | nil =>
    rw [flattenAll]
    exact parallel_pure rfl
  | cons e es ih =>
    rw [List.forall_mem_cons] at h
    rw [Expr.allVars_cons, List.forall_mem_append] at hv
    rw [flattenAll_cons]
    refine (flattenOperand_parallel_of (h.1 hv.1)).bind fun x => (ih h.2 hv.2).bind fun xs =>
      parallel_pure ?_
    simp [WithPrelude.rename]

theorem flatten_parallel (hl : ctx.layout.Literal) {e : Expr}
    (hv : ∀ x ∈ e.vars, ¬ IsGenerated x) :
    Flattened old new Rhs.rename (flatten ctx e) (flatten ctx e) := by
  induction e with
  | unary note op arg ih =>
    rw [flatten_unary]
    exact (flattenOperand_parallel_of (ih hv)).bind fun x => parallel_pure rfl
  | binary note op l r ihl ihr =>
    rw [Expr.vars_binary, List.forall_mem_append] at hv
    rw [flatten_binary]
    refine (flattenOperand_parallel_of (ihl hv.1)).bind fun x =>
      (flattenOperand_parallel_of (ihr hv.2)).bind fun y => parallel_pure ?_
    simp [WithPrelude.rename, Rhs.rename]
  | builtin1 note name arg ih =>
    rw [flatten_builtin1]
    exact (flattenOperand_parallel_of (ih hv)).bind fun x => parallel_pure rfl
  | builtin2 note name l r ihl ihr =>
    rw [Expr.vars_builtin2, List.forall_mem_append] at hv
    rw [flatten_builtin2]
    refine (flattenOperand_parallel_of (ihl hv.1)).bind fun x =>
      (flattenOperand_parallel_of (ihr hv.2)).bind fun y => parallel_pure ?_
    simp [WithPrelude.rename, Rhs.rename]
  | call note name args ih =>
    rw [flatten]
    exact (flattenAll_parallel_of ih hv).bind fun xs => parallel_pure rfl
  | methodCall note receiver method args ihr ih =>
    rw [Expr.vars_methodCall, List.forall_mem_append] at hv
    rw [flatten_methodCall]
    refine parallel_checked fun className _ => (flattenOperand_parallel_of (ihr hv.1)).bind fun x =>
      (flattenAll_parallel_of ih hv.2).bind fun xs => parallel_pure ?_
    simp [WithPrelude.rename, Rhs.rename, Instr.rename, helperCall]
  | field note receiver name ih =>
    rw [flatten_field]
    exact parallel_checked fun slot _ => (flattenOperand_parallel_of (ih hv)).bind fun x =>
      parallel_pure rfl
  | index note receiver index ihr ihi =>
    rw [Expr.vars_index, List.forall_mem_append] at hv
    rw [flatten_index]
    refine parallel_checked fun _ _ => (flattenOperand_parallel_of (ihr hv.1)).bind fun x =>
      (flattenOperand_parallel_of (ihi hv.2)).bind fun i =>
        (elementOffset_parallel i.value x.value).bind fun o => parallel_pure ?_
    simp [WithPrelude.rename, Rhs.rename]
  | construct note className =>
    rw [flatten, flattenConstruct]
    refine parallel_checked fun fields hf => (parallel_draw (by decide)).bind fun name =>
      parallel_pure ?_
    have hstores : (fields.values.map fun slot =>
        Instr.store (.var name) (.word slot.offset) slot.initial).map
          (Instr.rename (old.renumber new)) =
        fields.values.map fun slot =>
          .store (.var (old.renumber new name)) (.word slot.offset) slot.initial := by
      rw [List.map_map]
      refine List.map_congr_left fun slot hs => ?_
      have hi := hl className fields (requireClass_eq_ok hf) slot hs
      simp only [Function.comp, Instr.rename, Operand.rename_of_varName? hi]
      rfl
    simp only [WithPrelude.rename, Prelude.rename_append, Prelude.rename_ofCode, hstores]
    rfl
  | listLiteral note elements ih =>
    rw [flatten]
    refine (parallel_draw (by decide)).bind fun name =>
      (flattenAll_parallel_of ih hv).bind fun xs => parallel_pure ?_
    simp [WithPrelude.rename, Rhs.rename, Instr.rename, Operand.rename, storeElements_rename]
  | var note name =>
    rw [flatten]
    refine parallel_pure ?_
    simp [WithPrelude.rename, Rhs.rename, Operand.rename,
      Names.renumber_of_not_isGenerated (hv name (by simp))]
  | literal note value =>
    rw [flatten]
    refine parallel_pure ?_
    simp [WithPrelude.rename, Rhs.rename, Operand.rename_ofLiteral]

theorem flattenOperand_parallel (hl : ctx.layout.Literal) {e : Expr}
    (hv : ∀ x ∈ e.vars, ¬ IsGenerated x) :
    Flattened old new Operand.rename (flattenOperand ctx e) (flattenOperand ctx e) :=
  flattenOperand_parallel_of (flatten_parallel hl hv)

theorem flattenStmt_parallel (hl : ctx.layout.Literal) {stmt : Stmt}
    (ht : ∀ x ∈ stmt.assigned?, ¬ IsGenerated x) (hv : ∀ x ∈ Expr.allVars stmt.exprs, ¬ IsGenerated x) :
    Parallel old new (Prelude.rename (old.renumber new)) (flattenStmt ctx stmt)
      (flattenStmt ctx stmt) := by
  cases stmt with
  | assign note name value =>
    simp only [Stmt.exprs, Expr.allVars_cons, List.forall_mem_append] at hv
    refine (flatten_parallel hl hv.1).bind fun x => parallel_pure ?_
    simp [WithPrelude.rename, Instr.rename, Names.renumber_of_not_isGenerated (ht name rfl)]
  | ret note value =>
    simp only [Stmt.exprs, Expr.allVars_cons, List.forall_mem_append] at hv
    refine (flattenOperand_parallel hl hv.1).bind fun x => parallel_pure ?_
    simp [WithPrelude.rename, Instr.rename]
  | eval note e =>
    simp only [Stmt.exprs, Expr.allVars_cons, List.forall_mem_append] at hv
    refine (flatten_parallel hl hv.1).bind fun x => parallel_pure ?_
    simp [WithPrelude.rename, Instr.rename]
  | assignField note receiver name value =>
    simp only [Stmt.exprs, Expr.allVars_cons, List.forall_mem_append] at hv
    refine parallel_checked fun slot _ => (flattenOperand_parallel hl hv.1).bind fun x =>
      (flattenOperand_parallel hl hv.2.1).bind fun y => parallel_pure ?_
    simp [WithPrelude.rename, Instr.rename, Operand.rename]
  | assignIndex note receiver index value =>
    simp only [Stmt.exprs, Expr.allVars_cons, List.forall_mem_append] at hv
    refine parallel_checked fun _ _ => (flattenOperand_parallel hl hv.1).bind fun x =>
      (flattenOperand_parallel hl hv.2.1).bind fun i =>
        (flattenOperand_parallel hl hv.2.2.1).bind fun y =>
          (elementOffset_parallel i.value x.value).bind fun o => parallel_pure ?_
    simp [WithPrelude.rename, Instr.rename]
  | pass note => exact parallel_pure rfl
  | ifElse note cond thenBody elseBody => exact parallel_pure rfl
  | whileLoop note cond body => exact parallel_pure rfl

theorem flattenTest_parallel (hl : ctx.layout.Literal) {cond : Expr}
    (hv : ∀ x ∈ cond.vars, ¬ IsGenerated x) (thenLabel elseLabel : String) :
    Parallel old new (Prelude.rename (old.renumber new)) (flattenTest ctx cond thenLabel elseLabel)
      (flattenTest ctx cond (old.renumber new thenLabel) (old.renumber new elseLabel)) := by
  refine (flattenOperand_parallel hl hv).bind fun x => parallel_pure ?_
  simp [WithPrelude.rename, Instr.rename]

theorem drawing_parallel {f : α → β} {m : Draw α} {m' : Draw β} (h : Parallel old new f m m') :
    Parallel old new f (Build.drawing m) (Build.drawing m') := by
  refine h.mapTrail fun ρ names => ?_
  refine congrArg₂ Trail.mk ?_ rfl
  simp [renamed, Trail.ofNames, Step.rename]

theorem label_parallel {base : String} (h : base ∈ Base.all) :
    Parallel old new (old.renumber new) (Build.drawing (draw base)) (Build.drawing (draw base)) :=
  drawing_parallel (parallel_draw h)

theorem emit_parallel (code : List Instr) :
    Parallel old new id (Build.emit code)
      (Build.emit (code.map (Instr.rename (old.renumber new)))) :=
  parallel_leave rfl

theorem openBlock_parallel (label : String) :
    Parallel old new id (Build.openBlock label) (Build.openBlock (old.renumber new label)) :=
  parallel_leave rfl

theorem flush_parallel {m m' : Draw Prelude}
    (h : Parallel old new (Prelude.rename (old.renumber new)) m m') :
    Parallel old new (List.map (Decl.rename (old.renumber new))) (Build.flush m)
      (Build.flush m') :=
  (drawing_parallel h).bind fun p => (emit_parallel p.code).bind fun _ => parallel_pure rfl

theorem buildStmts_parallel (hl : ctx.layout.Literal) {body : List Stmt}
    (hv : ∀ x ∈ Source.bodyVars body, ¬ IsGenerated x) :
    Parallel old new (List.map (Decl.rename (old.renumber new))) (buildStmts ctx body)
      (buildStmts ctx body) := by
  obtain ⟨ht, hr⟩ := List.forall_mem_append.mp hv
  clear hv
  change ∀ x ∈ Source.bodyTargets body, _ at ht
  induction body using Stmt.bodyInduction with
  | nil =>
    rw [buildStmts]
    exact parallel_pure rfl
  | plain stmt rest hp ih =>
    rw [Source.bodyTargets_plain rest hp, List.forall_mem_append] at ht
    rw [Source.bodyReads_plain rest hp, List.forall_mem_append] at hr
    rw [buildStmts, buildStmt_plain hp]
    refine (flush_parallel (flattenStmt_parallel hl (by simpa using ht.1) hr.1)).bind fun _ => ?_
    exact (ih hr.2 ht.2).bind fun _ => parallel_pure List.map_append
  | ifElse note cond thenBody elseBody rest iht ihe ih =>
    simp only [Source.bodyTargets_ifElse, List.forall_mem_append] at ht
    simp only [Source.bodyReads_ifElse, List.forall_mem_append] at hr
    rw [buildStmts, buildStmt]
    refine Parallel.bind ?_ fun _ => (ih hr.2 ht.2).bind fun _ => parallel_pure List.map_append
    refine (label_parallel (by decide)).bind fun _ => (label_parallel (by decide)).bind fun _ =>
      (label_parallel (by decide)).bind fun _ =>
        (flush_parallel (flattenTest_parallel hl hr.1.1.1 _ _)).bind fun _ =>
          (openBlock_parallel _).bind fun _ => (iht hr.1.1.2 ht.1.1).bind fun _ =>
            (emit_parallel _).bind fun _ => (openBlock_parallel _).bind fun _ =>
              (ihe hr.1.2 ht.1.2).bind fun _ => (emit_parallel _).bind fun _ =>
                (openBlock_parallel _).bind fun _ => parallel_pure ?_
    simp
  | whileLoop note cond body rest ihb ih =>
    simp only [Source.bodyTargets_whileLoop, List.forall_mem_append] at ht
    simp only [Source.bodyReads_whileLoop, List.forall_mem_append] at hr
    rw [buildStmts, buildStmt]
    refine Parallel.bind ?_ fun _ => (ih hr.2 ht.2).bind fun _ => parallel_pure List.map_append
    refine (label_parallel (by decide)).bind fun _ => (label_parallel (by decide)).bind fun _ =>
      (label_parallel (by decide)).bind fun _ => (emit_parallel _).bind fun _ =>
        (openBlock_parallel _).bind fun _ =>
          (flush_parallel (flattenTest_parallel hl hr.1.1 _ _)).bind fun _ =>
            (openBlock_parallel _).bind fun _ => (ihb hr.1.2 ht.1).bind fun _ =>
              (emit_parallel _).bind fun _ => (openBlock_parallel _).bind fun _ =>
                parallel_pure List.map_append

theorem logBody_parallel (hl : ctx.layout.Literal) (spans : List Span) {entry : String}
    (he : entry ∈ Base.all) {body : List Stmt} (hv : ∀ x ∈ Source.bodyVars body, ¬ IsGenerated x) :
    Parallel old new (Prod.map (List.map (Decl.rename (old.renumber new)))
        (List.map (Block.rename (old.renumber new))))
      (logBody spans ctx entry body) (logBody spans ctx entry body) := by
  have hb : Parallel old new (Prod.map (List.map (Decl.rename (old.renumber new)))
        (List.map (Block.rename (old.renumber new))))
      (buildBody ctx entry body) (buildBody ctx entry body) := by
    intro a a' hlevel
    have h := buildStmts_parallel hl hv _ _ (hlevel.advance entry)
    refine ⟨?_, h.names, ?_⟩
    · simp only [buildBody, h.result, h.trail, hlevel.fresh he]
      cases (buildStmts ctx body (a.advance entry)).result with
      | error f => rfl
      | ok ds => rfl
    · simp only [buildBody, h.trail, hlevel.fresh he]
      rfl
  exact hb.mapTrail fun ρ steps => stepEvents_rename ρ spans 0 steps

theorem flattenFunction_parallel (hl : ctx.layout.Literal) (spans : List Span)
    {f : Source.Function} (hv : ∀ x ∈ f.variables, ¬ IsGenerated x) :
    Parallel old new (Flat.Function.rename (old.renumber new)) (flattenFunction ctx spans f)
      (flattenFunction ctx spans f) := by
  simp only [Source.Function.variables, List.forall_mem_append, List.forall_mem_map] at hv
  obtain ⟨⟨_, hlocals⟩, hbody⟩ := hv
  refine (logBody_parallel hl _ (by decide) hbody).bind fun (ds, blocks) =>
    (parallel_leave ?_).bind fun _ => parallel_pure ?_
  · simp [renamed, Event.rename, Happening.rename]
  · simp [Flat.Function.rename, old.renumber_ofSource new hlocals]

theorem flattenFunctions_parallel (hl : ctx.layout.Literal) (spans : List Span)
    {fs : List Source.Function}
    (hv : ∀ x ∈ fs.flatMap Source.Function.variables, ¬ IsGenerated x) :
    Parallel old new (List.map (Flat.Function.rename (old.renumber new)))
      (Lower.each (flattenFunction ctx spans) fs) (Lower.each (flattenFunction ctx spans) fs) :=
  Parallel.each fun f hf => flattenFunction_parallel hl spans fun x hx =>
    hv x (List.mem_flatMap.mpr ⟨f, hf, hx⟩)

theorem flattenClass_parallel (hl : ctx.layout.Literal) {c : Source.Class}
    (hv : ∀ x ∈ c.variables, ¬ IsGenerated x) :
    Parallel old new (Flat.Class.rename (old.renumber new)) (flattenClass ctx c)
      (flattenClass ctx c) :=
  (flattenFunctions_parallel hl _ hv).bind fun _ => parallel_pure rfl

theorem flattenProgram_parallel (hl : ctx.layout.Literal) {p : Source.Program}
    (hv : ∀ x ∈ p.variables, ¬ IsGenerated x) :
    Parallel old new (Flat.Program.rename (old.renumber new)) (flattenProgram ctx p)
      (flattenProgram ctx p) := by
  simp only [Source.Program.variables, List.forall_mem_append, List.forall_mem_map] at hv
  obtain ⟨⟨⟨hglobals, hbody⟩, hfunctions⟩, hclasses⟩ := hv
  have hcs : Parallel old new (List.map (Flat.Class.rename (old.renumber new)))
      (Lower.each (flattenClass ctx) p.classes) (Lower.each (flattenClass ctx) p.classes) :=
    Parallel.each fun c hc => flattenClass_parallel hl fun x hx =>
      hclasses x (List.mem_flatMap.mpr ⟨c, hc, hx⟩)
  rw [flattenProgram_unchecked, flattenProgram_checking]
  refine (logBody_parallel hl _ (by decide) hbody).bind fun (ds, blocks) =>
    (flattenFunctions_parallel hl _ hfunctions).bind fun functions => hcs.bind fun classes =>
      (parallel_leave ?_).bind fun _ => parallel_pure ?_
  · simp [renamed, Event.rename, Happening.rename]
  · simp [Flat.Program.rename, old.renumber_ofSource new hglobals]

/-- From whatever supply a program is lowered, the outcome is the same but for numbers: the same
fault, or the same program with every new name renumbered as the supplies differ, and the counters
advance equally. The same holds of each of its functions and methods, whatever was lowered before. -/
theorem lowering_independent_of_seed {ctx : Context} {p : Source.Program}
    (hl : ctx.layout.Literal) (hv : ∀ x ∈ p.variables, ¬ IsGenerated x) (old new : Names) :
    (flattenProgram ctx p new).result =
      (flattenProgram ctx p old).result.map (Flat.Program.rename (old.renumber new)) ∧
    (∀ base, ∃ k, (flattenProgram ctx p old).names.count base = old.count base + k ∧
      (flattenProgram ctx p new).names.count base = new.count base + k) ∧
    (∀ base ∈ Base.all, ∀ k, 0 < k → old.renumber new (base ++ toString (old.count base + k)) =
      base ++ toString (new.count base + k)) ∧
    (∀ x ∈ p.variables, old.renumber new x = x) ∧
    ∀ f ∈ p.functions ++ p.classes.flatMap (·.methods), ∀ spans,
      (flattenFunction ctx spans f new).result =
        (flattenFunction ctx spans f old).result.map (Flat.Function.rename (old.renumber new)) ∧
      ∀ base, ∃ k, (flattenFunction ctx spans f old).names.count base = old.count base + k ∧
        (flattenFunction ctx spans f new).names.count base = new.count base + k := by
  have hp := flattenProgram_parallel hl hv old new (.refl old new)
  refine ⟨hp.result, hp.names, fun base hb k hk => Names.renumber_numbered hb hk,
    fun x hx => Names.renumber_of_not_isGenerated (hv x hx), fun f hf spans => ?_⟩
  have hfv : f.variables ⊆ p.variables := by
    rcases List.mem_append.mp hf with hf | hf
    · refine List.Subset.trans ?_ (List.subset_append_left _ _)
      exact List.Subset.trans (fun x hx => List.mem_flatMap.mpr ⟨f, hf, hx⟩)
        (List.subset_append_right _ _)
    · obtain ⟨c, hc, hf⟩ := List.mem_flatMap.mp hf
      refine List.Subset.trans (fun x hx => ?_) (List.subset_append_right _ _)
      exact List.mem_flatMap.mpr ⟨c, hc, List.mem_flatMap.mpr ⟨f, hf, hx⟩⟩
  have h := flattenFunction_parallel hl spans (fun x hx => hv x (hfv hx)) old new (.refl old new)
  exact ⟨h.result, h.names⟩

/-- Turns a number over until it is large, at the top level and in a function. -/
def Source.turnOver : Source.Program :=
  let number : Source.Note := ⟨.number, {}⟩
  let x : Expr := .var number "x"
  let loop : List Stmt := [.whileLoop number (.binary number .lt x (.literal number (.num 9)))
    [.assign number "x" (.unary number .neg (.call number "twice" [.unary number .neg x]))]]
  { globals := [⟨"x", .number, .num 1, {}⟩]
    functions := [{ name := "turn", params := [⟨"x", .number⟩], ret := .none, locals := [],
                    body := loop, loc := {} }]
    body := loop }

theorem lowering_independent_of_seed_turnOver :
    let ctx : Context := ⟨.ofClasses [], {}⟩
    let seed : Names := .ofCounters [("valname", 7), ("$whileend", 2), ("other", 5)]
    ctx.layout.Literal ∧ (∀ x ∈ Source.turnOver.variables, ¬ IsGenerated x) ∧
    (flattenProgram ctx Source.turnOver seed).result =
      (flattenProgram ctx Source.turnOver {}).result.map
        (Flat.Program.rename (Names.renumber {} seed)) ∧
    ((flattenProgram ctx Source.turnOver seed).result.toOption.map fun q =>
      (q.labels, q.decls.map (·.name))) =
      some (["$startProg1", "$whilestart1", "$whilebody1", "$whileend3", "$startFun1",
        "$whilestart2", "$whilebody2", "$whileend4"], ["valname8", "valname9", "valname10", "x"]) := by
  intro ctx seed
  have hl : ctx.layout.Literal := Layout.literal_ofClasses []
  have hv : ∀ x ∈ Source.turnOver.variables, ¬ IsGenerated x := by decide
  exact ⟨hl, hv, (lowering_independent_of_seed hl hv {} seed).1, by decide +kernel⟩

end BlockLowering
