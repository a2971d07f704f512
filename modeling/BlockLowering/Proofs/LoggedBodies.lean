import BlockLowering.Proofs.ProgramBodies

/-! What the log of a lowering run says about its result. While a body is built, a block is opened
only under a label that was drawn before, and each block that is opened is one of the body, in the
order in which they stand there. Counting, spans and the events that close functions and the program
are then read off how the logs of bodies are put together. -/

namespace BlockLowering

open Source (Stmt)
open Flat (Instr Decl Block)

/-- Every block is opened under a label that is known from the start or was drawn before. -/
def Announced (known : List String) : List Step → Prop
  | [] => True
  | .named name :: rest => Announced (name :: known) rest
  | .opened label :: rest => label ∈ known ∧ Announced known rest

namespace Announced

theorem mono {known more : List String} {steps : List Step} (h : Announced known steps)
    (hs : known ⊆ more) : Announced more steps := by
  induction steps generalizing known more with
  | nil => trivial
  | cons step rest ih =>
    cases step with
    | named name => exact ih h (List.cons_subset_cons name hs)
    | opened label => exact ⟨hs h.1, ih h.2 hs⟩

theorem append {known : List String} {steps steps' : List Step} (h : Announced known steps)
    (h' : Announced known steps') : Announced known (steps ++ steps') := by
  induction steps generalizing known with
  | nil => exact h'
  | cons step rest ih =>
    cases step with
    | named name => exact ih h (h'.mono (List.subset_cons_self name known))
    | opened label => exact ⟨h.1, ih h.2 h'⟩

theorem ofNames (known names : List String) : Announced known (names.map .named) := by
  induction names generalizing known with
  | nil => trivial
  | cons name rest ih => exact ih (name :: known)

end Announced

/-- From whatever supply the step starts, it opens no block without a label from `known` or one
that it drew, also when it ends in a fault. -/
def Build.Announces {α : Type} (known : List String) (m : Build α) : Prop :=
  ∀ names, Announced known (m names).trail.steps

namespace Build.Announces

variable {α β : Type} {known : List String}

theorem pure (a : α) : Announces known (Pure.pure a : Build α) := fun _ => trivial

theorem emit (code : List Instr) : Announces known (Build.emit code) := fun _ => trivial

theorem openBlock {label : String} (h : label ∈ known) : Announces known (Build.openBlock label) :=
  fun _ => ⟨h, trivial⟩

theorem drawing (m : Draw α) : Announces known (Build.drawing m) :=
  fun names => .ofNames known (m names).trail

theorem bind {m : Build α} {next : α → Build β} (hm : Announces known m)
    (hn : ∀ a, Announces known (next a)) : Announces known (m >>= next) := by
  intro names
  have h := hm names
  change Announced known (Lower.andThen m next names).trail.steps
  unfold Lower.andThen
  rcases hr : m names with ⟨_ | a, mid, t⟩
  · rwa [hr] at h
  · rw [hr] at h
    exact h.append (hn a mid)

theorem flush (m : Draw Prelude) : Announces known (Build.flush m) :=
  (drawing m).bind fun _ => (emit _).bind fun _ => pure _

/-- What follows a label that was drawn may open its block. -/
theorem label (base : String) {next : String → Build β}
    (h : ∀ name, Announces (name :: known) (next name)) :
    Announces known (Build.drawing (draw base) >>= next) :=
  fun names => h (names.fresh base) (names.advance base)

end Build.Announces

variable {ctx : Context}

theorem announces_buildStmts (body : List Stmt) (known : List String) :
    Build.Announces known (buildStmts ctx body) := by
  induction body using Stmt.bodyInduction generalizing known with
  | nil =>
    rw [buildStmts]
    exact .pure _
  | plain stmt rest hp ih =>
    rw [buildStmts, buildStmt_plain hp]
    exact (Build.Announces.flush _).bind fun _ => (ih known).bind fun _ => .pure _
  | ifElse note cond thenBody elseBody rest iht ihe ih =>
    rw [buildStmts, buildStmt]
    refine Build.Announces.bind ?_ fun _ => (ih known).bind fun _ => .pure _
    refine .label _ fun thenLabel => .label _ fun elseLabel => .label _ fun endLabel => ?_
    exact (Build.Announces.flush _).bind fun _ =>
      (Build.Announces.openBlock (by simp)).bind fun _ => (iht _).bind fun _ =>
        (Build.Announces.emit _).bind fun _ => (Build.Announces.openBlock (by simp)).bind fun _ =>
          (ihe _).bind fun _ => (Build.Announces.emit _).bind fun _ =>
            (Build.Announces.openBlock (by simp)).bind fun _ => .pure _
  | whileLoop note cond body rest ihb ih =>
    rw [buildStmts, buildStmt]
    refine Build.Announces.bind ?_ fun _ => (ih known).bind fun _ => .pure _
    refine .label _ fun startLabel => .label _ fun bodyLabel => .label _ fun endLabel => ?_
    exact (Build.Announces.emit _).bind fun _ => (Build.Announces.openBlock (by simp)).bind fun _ =>
      (Build.Announces.flush _).bind fun _ => (Build.Announces.openBlock (by simp)).bind fun _ =>
        (ihb _).bind fun _ => (Build.Announces.emit _).bind fun _ =>
          (Build.Announces.openBlock (by simp)).bind fun _ => .pure _

def Step.label? : Step → Option String
  | .named _ => none
  | .opened label => some label

/-- The blocks that the steps opened are those of the code. -/
def Trail.Opens (t : Trail) : Prop := t.steps.filterMap Step.label? = t.code.labels

theorem Trail.Opens.append {t u : Trail} (ht : t.Opens) (hu : u.Opens) : (t ++ u).Opens := by
  change (t.steps ++ u.steps).filterMap Step.label? = (t.code ++ u.code).labels
  rw [List.filterMap_append, ht, hu, Fragment.labels_append]

theorem Trail.opens_ofNames (names : List String) : (ofNames names).Opens := by
  change (names.map Step.named).filterMap Step.label? = []
  rw [List.filterMap_map, List.filterMap_eq_nil_iff]
  exact fun _ _ => rfl

theorem BuildStep.opens {α : Type} {m : Build α} (h : BuildStep α m) (names : Names) :
    (m names).trail.Opens := by
  cases h with
  | drawing hm => exact Trail.opens_ofNames _
  | emit code => rfl
  | openBlock label => rfl

/-- What holds of the trail of every basic step, and of two trails together if it holds of both,
holds of the trail of a composed one. -/
theorem Lower.Composed.trail {ω α : Type} [EmptyCollection ω] [Append ω]
    {basic : (α : Type) → Lower ω α → Prop} {P : ω → Prop} (hempty : P ∅)
    (happend : ∀ {t u}, P t → P u → P (t ++ u))
    (hb : ∀ α m, basic α m → ∀ names, P (m names).trail) {m : Lower ω α}
    (h : Composed basic α m) (names : Names) : P (m names).trail := by
  induction h generalizing names with
  | step h => exact hb _ _ h names
  | pure a => exact hempty
  | @bind α β m next _ _ ihm ihn =>
    have hm := ihm names
    change P (andThen m next names).trail
    unfold andThen
    rcases hr : m names with ⟨_ | a, mid, t⟩
    · rwa [hr] at hm
    · rw [hr] at hm
      exact happend hm (ihn a mid)

theorem opens_buildStmts (body : List Stmt) (names : Names) :
    (buildStmts ctx body names).trail.Opens :=
  (composed_buildStmts body).trail (P := Trail.Opens) rfl Trail.Opens.append
    (fun _ _ => BuildStep.opens) names

/-- The label of the block that an event tells of, with its number. -/
def Event.opening? (e : Event) : Option (String × Nat) :=
  match e.happening with
  | .openBlock label opened => some (label, opened)
  | _ => none

/-- The log of a body with these blocks: names are drawn and blocks opened, all of it inside the
given spans. The blocks opened are those after the first, in order and counted from one, and the
label of each has been logged as drawn before. -/
structure BodyLog (spans : List Span) (blocks : List Block) (log : List Event) : Prop where
  kinds : ∀ e ∈ log, (∃ name, e = ⟨spans, .freshName name⟩) ∨
    ∃ label opened, e = ⟨spans, .openBlock label opened⟩
  openings : log.filterMap Event.opening? = (Flat.labelsOf blocks.tail).zipIdx 1
  announced : ∀ {earlier later : List Event} {e : Event} {label : String} {opened : Nat},
    log = earlier ++ e :: later → e.opening? = some (label, opened) → label ∈ drawn earlier

theorem kinds_stepEvents (spans : List Span) (opened : Nat) (steps : List Step) :
    ∀ e ∈ stepEvents spans opened steps, (∃ name, e = ⟨spans, .freshName name⟩) ∨
      ∃ label opened, e = ⟨spans, .openBlock label opened⟩ := by
  induction steps generalizing opened with
  | nil => exact fun e he => absurd he List.not_mem_nil
  | cons step rest ih =>
    cases step with
    | named name => exact List.forall_mem_cons.mpr ⟨.inl ⟨name, rfl⟩, ih opened⟩
    | opened label => exact List.forall_mem_cons.mpr ⟨.inr ⟨label, _, rfl⟩, ih (opened + 1)⟩

theorem openings_stepEvents (spans : List Span) (opened : Nat) (steps : List Step) :
    (stepEvents spans opened steps).filterMap Event.opening? =
      (steps.filterMap Step.label?).zipIdx (opened + 1) := by
  induction steps generalizing opened with
  | nil => rfl
  | cons step rest ih =>
    cases step with
    | named name => exact ih opened
    | opened label => exact congrArg ((label, opened + 1) :: ·) (ih (opened + 1))

theorem announced_stepEvents {spans : List Span} {opened : Nat} {known : List String}
    {steps : List Step} (h : Announced known steps) {earlier later : List Event} {e : Event}
    {label : String} {count : Nat} (hs : stepEvents spans opened steps = earlier ++ e :: later)
    (he : e.opening? = some (label, count)) : label ∈ known ++ drawn earlier := by
  induction steps generalizing opened known earlier with
  | nil => exact absurd hs (by simp [stepEvents])
  | cons step rest ih =>
    cases step with
    | named name =>
      cases earlier with
      | nil =>
        obtain ⟨rfl, -⟩ := List.cons.inj hs
        cases he
      | cons first earlier =>
        obtain ⟨rfl, hrest⟩ := List.cons.inj hs
        have hmem := ih h hrest
        change label ∈ known ++ name :: drawn earlier
        rwa [List.cons_append, List.perm_middle.symm.mem_iff] at hmem
    | opened next =>
      cases earlier with
      | nil =>
        obtain ⟨rfl, -⟩ := List.cons.inj hs
        obtain ⟨rfl, -⟩ := Prod.mk.inj (Option.some.inj he)
        exact List.mem_append_left _ h.1
      | cons first earlier =>
        obtain ⟨rfl, hrest⟩ := List.cons.inj hs
        have hmem : label ∈ known ++ drawn earlier := ih h.2 hrest
        exact hmem

theorem logBody_bodyLog {spans : List Span} {entry : String} {body : List Stmt} {ds : List Decl}
    {blocks : List Block} {a b : Names} {t : List Event}
    (h : (logBody spans ctx entry body).Yields a (ds, blocks) b t) : BodyLog spans blocks t := by
  obtain ⟨steps, hy, rfl⟩ := Lower.yields_mapTrail.mp h
  have hopens : (buildStmts ctx body (a.advance entry)).trail.Opens := opens_buildStmts _ _
  have hannounced : Announced []
      (.named (a.fresh entry) :: (buildStmts ctx body (a.advance entry)).trail.steps) :=
    announces_buildStmts body [a.fresh entry] (a.advance entry)
  rcases hr : buildStmts ctx body (a.advance entry) with ⟨_ | decls, after, trail⟩
  · simp [Lower.Yields, buildBody, hr, Except.map] at hy
  rw [hr] at hopens hannounced
  simp only [Lower.Yields, buildBody, hr, Outcome.mk.injEq, Except.map, Except.ok.injEq,
    Prod.mk.injEq] at hy
  obtain ⟨⟨rfl, rfl⟩, rfl, rfl⟩ := hy
  refine ⟨kinds_stepEvents _ _ _, ?_, fun hs he => announced_stepEvents hannounced hs he⟩
  rw [openings_stepEvents]
  exact congrArg (List.zipIdx · 1) hopens

/-- The log of a function or method inside the given spans: that of its body, and then its end with
the numbers of its blocks and of the declarations that lowering added. -/
def FunctionLog (spans : List Span) (f : Source.Function) (g : Flat.Function) (log : List Event) :
    Prop :=
  g.name = f.name ∧ f.locals.length ≤ g.decls.length ∧
  ∃ body, BodyLog (spans ++ [.function g.name]) g.body body ∧
    log = body ++ [⟨spans ++ [.function g.name],
      .loweredFunction g.body.length (g.decls.length - f.locals.length)⟩]

/-- The log of several parts is made of their logs, one after another. -/
inductive Logs {α β : Type} (part : α → β → List Event → Prop) :
    List α → List β → List Event → Prop
  | nil : Logs part [] [] []
  | cons {x y log xs ys rest} : part x y log → Logs part xs ys rest →
      Logs part (x :: xs) (y :: ys) (log ++ rest)

/-- The log of a class: that of its methods. -/
def ClassLog (c : Source.Class) (d : Flat.Class) (log : List Event) : Prop :=
  d.name = c.name ∧ Logs (FunctionLog [.inClass d.name]) c.methods d.methods log

/-- The log of a program: the top level, the functions, the methods class by class, and then its end
with the numbers of its functions, classes and top-level blocks. The names it tells of are the
labels and temporaries of the program, each of them once. -/
structure ProgramLog (p : Source.Program) (q : Flat.Program) (log : List Event) : Prop where
  names_nodup : (drawn log).Nodup
  names_perm : (drawn log).Perm (q.labels ++ q.temporaries p)
  parts : ∃ top functions classes, BodyLog [] q.body top ∧
    Logs (FunctionLog []) p.functions q.functions functions ∧
    Logs ClassLog p.classes q.classes classes ∧
    log = top ++ functions ++ classes ++
      [⟨[], .loweredProgram q.functions.length q.classes.length q.body.length⟩]

theorem flattenFunction_functionLog {spans : List Span} {f : Source.Function} {g : Flat.Function}
    {a b : Names} {t : List Event} (h : (flattenFunction ctx spans f).Yields a g b t) :
    FunctionLog spans f g t := by
  obtain ⟨ds, blocks, t', hb, rfl, rfl⟩ := flattenFunction_parts h
  have hlength : (ds ++ f.locals.map Decl.ofSource).length = ds.length + f.locals.length := by
    rw [List.length_append, List.length_map]
  refine ⟨rfl, ?_, t', logBody_bodyLog hb, ?_⟩
  · rw [hlength]
    exact Nat.le_add_left _ _
  · rw [hlength, Nat.add_sub_cancel]

theorem Lower.each_logs {α β : Type} {step : α → Logged β} {part : α → β → List Event → Prop}
    (h : ∀ {item a x b t}, (step item).Yields a x b t → part item x t) {items : List α}
    {a b : Names} {xs : List β} {t : List Event} (hy : (each step items).Yields a xs b t) :
    Logs part items xs t := by
  induction items generalizing a xs t with
  | nil =>
    obtain ⟨rfl, _, rfl⟩ := yields_pure.mp hy
    exact .nil
  | cons item rest ih =>
    obtain ⟨x, ys, mid, t₁, t₂, hx, hys, rfl, rfl⟩ := exists_of_each_cons hy
    have htail : t₂ ++ ∅ = t₂ := List.append_nil t₂
    rw [htail]
    exact .cons (h hx) (ih hys)

theorem flattenClass_classLog {c : Source.Class} {d : Flat.Class} {a b : Names} {t : List Event}
    (h : (flattenClass ctx c).Yields a d b t) : ClassLog c d t := by
  obtain ⟨methods, hm, rfl⟩ := flattenClass_parts h
  exact ⟨rfl, Lower.each_logs flattenFunction_functionLog hm⟩

/-- The log of a run that lowers a program tells the truth about the lowered program. -/
theorem log_tells_truth {p : Source.Program} {q : Flat.Program} {names : Names}
    (h : (flattenProgram ctx p names).result = .ok q) :
    ProgramLog p q (flattenProgram ctx p names).trail := by
  have hy := Lower.yields_of_result h
  have hdraws := ((composed_flattenProgram p).supplied fun _ _ => LogStep.supplied).draws hy
  refine ⟨hdraws.nodup, (flattenProgram_yields hy).2.symm, ?_⟩
  obtain ⟨ds, body, functions, classes, _, _, t₁, t₂, t₃, hb, hf, hc, ht, rfl⟩ :=
    flattenProgram_parts hy
  refine ⟨t₁, t₂, t₃, logBody_bodyLog hb, Lower.each_logs flattenFunction_functionLog hf,
    Lower.each_logs flattenClass_classLog hc, ?_⟩
  rw [ht, List.append_assoc, List.append_assoc]

/-- A function with a conditional, and a class with a method that loops. -/
def Source.latch : Source.Program :=
  let bool : Note := ⟨.bool, {}⟩
  let flag : Expr := .var bool "flag"
  { functions := [{
      name := "toggle", params := [⟨"flag", .bool⟩], ret := .bool, loc := {}
      locals := [⟨"was", .bool, .none, {}⟩]
      body := [.ifElse bool (.unary bool .not (.unary bool .not flag))
        [.assign bool "was" flag] [.pass bool], .ret bool flag] }]
    classes := [{
      name := "Latch", fields := [], loc := {}
      methods := [{
        name := "wait", params := [⟨"flag", .bool⟩], ret := .none, locals := [], loc := {}
        body := [.whileLoop bool flag [.pass bool]] }] }]
    body := [.eval bool (.call bool "toggle" [.literal bool (.bool true)])] }

theorem log_tells_truth_latch : ∃ q, (lower {} Source.latch).result = .ok q ∧
    ProgramLog Source.latch q (lower {} Source.latch).trail ∧
    (lower {} Source.latch).trail.length = 20 := by
  obtain ⟨q, hq⟩ := ok_of_isOk (show (lower {} Source.latch).result.isOk = true by decide +kernel)
  exact ⟨q, hq, log_tells_truth hq, by decide +kernel⟩

end BlockLowering
