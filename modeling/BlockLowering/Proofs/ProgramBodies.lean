import BlockLowering.Proofs.ProgramValidity
import Mathlib.Data.List.Forall2

/-! A program as the list of its bodies. Lowering takes one body after another, and leaves their
blocks one after another; so a fact about lowered programs is a fact about one lowered body that
can be put together. -/

namespace BlockLowering

open Source (Expr Stmt)
open Flat (Block Decl)

namespace Source.Program

/-- The top level, the functions, then the methods class by class. -/
def bodies (p : Program) : List (List Stmt) :=
  p.body :: p.functions.map (·.body) ++ p.classes.flatMap fun c => c.methods.map (·.body)

def stmts (p : Program) : List Stmt := p.bodies.flatMap Stmt.allNodes

def exprs (p : Program) : List Expr := p.bodies.flatMap bodyExprs

end Source.Program

/-- Bodies, the blocks they are lowered to, and the names drawn for them. -/
inductive Lowers (ctx : Context) : List (List Stmt) → List Block → List String → Prop
  | nil : Lowers ctx [] [] []
  | cons {entry b body ds f u bodies blocks t} {a : Names} :
      Builds ctx (a.advance entry) body ds f b u →
      Lowers ctx bodies blocks t →
      Lowers ctx (body :: bodies) (f.toBlocks (a.fresh entry) ++ blocks)
        (a.fresh entry :: u ++ t)

variable {ctx : Context}

theorem Lowers.append {bodies bodies' : List (List Stmt)} {blocks blocks' : List Block}
    {t t' : List String} (h : Lowers ctx bodies blocks t) (h' : Lowers ctx bodies' blocks' t') :
    Lowers ctx (bodies ++ bodies') (blocks ++ blocks') (t ++ t') := by
  induction h with
  | nil => exact h'
  | cons hb _ ih =>
    rw [List.cons_append, List.append_assoc, List.append_assoc]
    exact .cons hb ih

theorem Lower.each_lowers {ω α β : Type} [EmptyCollection ω] [Append ω] [Naming ω]
    {step : α → Lower ω β} {bodies : α → List (List Stmt)} {blocks : β → List Block}
    (h : ∀ {item a x b t}, (step item).Yields a x b t →
      Lowers ctx (bodies item) (blocks x) (drawn t))
    {items : List α} {a b : Names} {xs : List β} {t : ω}
    (hy : (each step items).Yields a xs b t) :
    Lowers ctx (items.flatMap bodies) (xs.flatMap blocks) (drawn t) := by
  induction items generalizing a xs t with
  | nil =>
    obtain ⟨rfl, _, rfl⟩ := yields_pure.mp hy
    rw [drawn_empty]
    exact .nil
  | cons item rest ih =>
    obtain ⟨x, ys, mid, t₁, t₂, hx, hys, rfl, rfl⟩ := exists_of_each_cons hy
    rw [drawn_append, drawn_append, drawn_empty, List.append_nil]
    exact (h hx).append (ih hys)

theorem logBody_lowers {spans : List Span} {entry : String} {body : List Stmt} {ds : List Decl}
    {blocks : List Block} {a b : Names} {t : List Event}
    (h : (logBody spans ctx entry body).Yields a (ds, blocks) b t) :
    Lowers ctx [body] blocks (drawn t) := by
  obtain ⟨steps, hy, rfl⟩ := Lower.yields_mapTrail.mp h
  obtain ⟨f, u, hb, rfl, hd⟩ := buildBody_builds hy
  rw [drawn_stepEvents, hd]
  simpa using Lowers.cons hb .nil

theorem flattenFunction_lowers {spans : List Span} {f : Source.Function} {g : Flat.Function}
    {a b : Names} {t : List Event} (h : (flattenFunction ctx spans f).Yields a g b t) :
    Lowers ctx [f.body] g.body (drawn t) := by
  obtain ⟨ds, blocks, t', hb, hdrawn, rfl⟩ := flattenFunction_cases h
  rw [hdrawn]
  exact logBody_lowers hb

theorem each_flattenFunction_lowers {spans : List Span} {fs : List Source.Function}
    {gs : List Flat.Function} {a b : Names} {t : List Event}
    (h : (Lower.each (flattenFunction ctx spans) fs).Yields a gs b t) :
    Lowers ctx (fs.map (·.body)) (gs.flatMap (·.body)) (drawn t) := by
  rw [List.map_eq_flatMap]
  exact Lower.each_lowers flattenFunction_lowers h

theorem flattenClass_lowers {c : Source.Class} {d : Flat.Class} {a b : Names} {t : List Event}
    (h : (flattenClass ctx c).Yields a d b t) :
    Lowers ctx (c.methods.map (·.body)) (d.methods.flatMap (·.body)) (drawn t) := by
  obtain ⟨methods, hm, rfl⟩ := flattenClass_parts h
  exact each_flattenFunction_lowers hm

theorem flattenProgram_lowers {p : Source.Program} {q : Flat.Program} {a b : Names}
    {t : List Event} (h : (flattenProgram ctx p).Yields a q b t) :
    Lowers ctx p.bodies q.blocks (drawn t) := by
  obtain ⟨ds, body, functions, classes, _, _, t₁, t₂, t₃, hb, hf, hc, hdrawn, rfl⟩ :=
    flattenProgram_cases h
  rw [hdrawn]
  exact ((logBody_lowers hb).append (each_flattenFunction_lowers hf)).append
    (Lower.each_lowers flattenClass_lowers hc)

/-- A program that is lowered, with the names drawn for it, no two of which are equal. -/
theorem lowers_of_result {p : Source.Program} {q : Flat.Program} {names : Names}
    (h : (flattenProgram ctx p names).result = .ok q) :
    ∃ t, Lowers ctx p.bodies q.blocks t ∧ t.Nodup := by
  have hy := Lower.yields_of_result h
  have hdraws := ((composed_flattenProgram p).supplied fun _ _ => LogStep.supplied).draws hy
  exact ⟨_, flattenProgram_lowers hy, hdraws.nodup⟩

/-- One body and its blocks, from some state of the supply. -/
def LowersBody (ctx : Context) (body : List Stmt) (blocks : List Block) : Prop :=
  ∃ entry a ds f b t, entry ∈ [Base.programStart, Base.functionStart] ∧
    Builds ctx (Names.advance a entry) body ds f b t ∧ blocks = f.toBlocks (a.fresh entry)

theorem Lower.each_yields_forall₂ {ω α β : Type} [EmptyCollection ω] [Append ω]
    {step : α → Lower ω β} {R : α → β → Prop}
    (h : ∀ {item a x b t}, (step item).Yields a x b t → R item x) {items : List α} {a b : Names}
    {xs : List β} {t : ω} (hy : (each step items).Yields a xs b t) : List.Forall₂ R items xs := by
  induction items generalizing a xs t with
  | nil =>
    obtain ⟨rfl, _, _⟩ := yields_pure.mp hy
    exact .nil
  | cons item rest ih =>
    obtain ⟨x, ys, mid, t₁, t₂, hx, hys, rfl, rfl⟩ := exists_of_each_cons hy
    exact .cons (h hx) (ih hys)

theorem logBody_lowersBody {spans : List Span} {entry : String}
    (he : entry ∈ [Base.programStart, Base.functionStart]) {body : List Stmt} {ds : List Decl}
    {blocks : List Block} {a b : Names} {t : List Event}
    (h : (logBody spans ctx entry body).Yields a (ds, blocks) b t) : LowersBody ctx body blocks := by
  obtain ⟨steps, hy, rfl⟩ := Lower.yields_mapTrail.mp h
  obtain ⟨f, u, hb, rfl, -⟩ := buildBody_builds hy
  exact ⟨entry, a, ds, f, b, u, he, hb, rfl⟩

theorem flattenFunction_lowersBody {spans : List Span} {f : Source.Function} {g : Flat.Function}
    {a b : Names} {t : List Event} (h : (flattenFunction ctx spans f).Yields a g b t) :
    LowersBody ctx f.body g.body := by
  obtain ⟨ds, blocks, t', hb, -, rfl⟩ := flattenFunction_cases h
  exact logBody_lowersBody (by decide) hb

/-- The bodies of a lowered program are those of its source, one by one. -/
theorem flattenProgram_lowersBodies {p : Source.Program} {q : Flat.Program} {a b : Names}
    {t : List Event} (h : (flattenProgram ctx p).Yields a q b t) :
    List.Forall₂ (fun body part => LowersBody ctx body part.2) p.bodies q.bodies := by
  obtain ⟨ds, body, functions, classes, _, _, t₁, t₂, t₃, hb, hf, hc, -, rfl⟩ :=
    flattenProgram_cases h
  have hfunctions := Lower.each_yields_forall₂ flattenFunction_lowersBody hf
  have hclasses : List.Forall₂ (fun (c : Source.Class) (d : Flat.Class) => List.Forall₂
      (fun f g => LowersBody ctx f.body g.body) c.methods d.methods) p.classes classes := by
    refine Lower.each_yields_forall₂ (fun hy => ?_) hc
    obtain ⟨methods, hm, rfl⟩ := flattenClass_parts hy
    exact Lower.each_yields_forall₂ flattenFunction_lowersBody hm
  refine .cons (logBody_lowersBody (by decide) hb) (List.rel_append ?_ ?_)
  · rwa [List.forall₂_map_left_iff, List.forall₂_map_right_iff]
  · refine List.rel_flatMap hclasses fun c d hcd => ?_
    rwa [List.forall₂_map_left_iff, List.forall₂_map_right_iff]

end BlockLowering
