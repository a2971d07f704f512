import BlockLowering.Flatten.Statement
import BlockLowering.Proofs.FlattenedNames
import BlockLowering.Proofs.Fragments

/-! Lowering of statements as a relation between a supply of names, a body, what it declares, the
fragment it is lowered to, the supply afterwards and the names drawn. It goes from statement to
statement. Conditionals and loops stand in it as chains of fragments, each of which closes the
block before it. -/

namespace BlockLowering

open Source (Expr Stmt)
open Flat (Operand Rhs Instr Decl)

inductive FlattensStmt (ctx : Context) : Names → Stmt → Prelude → Names → List String → Prop
  | assign {a b t note name e x} : Flattens ctx a e x b t →
      FlattensStmt ctx a (.assign note name e) (x.prelude ++ .ofCode [.assign name x.value]) b t
  | ret {a b t note e x} : FlattensOperand ctx a e x b t →
      FlattensStmt ctx a (.ret note e) (x.prelude ++ .ofCode [.ret x.value]) b t
  | eval {a b t note e x} : Flattens ctx a e x b t →
      FlattensStmt ctx a (.eval note e) (x.prelude ++ .ofCode [.eval x.value]) b t
  | pass {a note} : FlattensStmt ctx a (.pass note) ∅ a []
  | assignField {a b c t u note receiver name value slot x y} :
      Source.fieldSlot? ctx.layout receiver name = some slot → FlattensOperand ctx a receiver x b t →
      FlattensOperand ctx b value y c u →
      FlattensStmt ctx a (.assignField note receiver name value)
        (x.prelude ++ y.prelude ++ .ofCode [.store x.value (.word slot.offset) y.value]) c (t ++ u)
  | assignIndex {a b c d t u w note receiver index value x i y} :
      FlattensOperand ctx a receiver x b t → FlattensOperand ctx b index i c u →
      FlattensOperand ctx c value y d w →
      FlattensStmt ctx a (.assignIndex note receiver index value)
        (x.prelude ++ i.prelude ++ y.prelude ++
          guardedOffset ctx (d.fresh Base.length) ((d.advance Base.length).fresh Base.offset)
            i.value x.value ++
          .ofCode [.store x.value (.var ((d.advance Base.length).fresh Base.offset)) y.value])
        ((d.advance Base.length).advance Base.offset)
        (t ++ u ++ w ++ [d.fresh Base.length, (d.advance Base.length).fresh Base.offset])

/-- Three labels drawn one after another, and the supply after them. -/
structure Labels where
  first : String
  second : String
  third : String
  after : Names

def Names.labels (names : Names) (first second third : String) : Labels :=
  ⟨names.fresh first, (names.advance first).fresh second,
    ((names.advance first).advance second).fresh third,
    ((names.advance first).advance second).advance third⟩

def Names.branchLabels (names : Names) : Labels :=
  names.labels Base.thenBlock Base.elseBlock Base.endBlock

def Names.loopLabels (names : Names) : Labels :=
  names.labels Base.loopStart Base.loopBody Base.loopEnd

/-- The test of a conditional or loop. -/
def testCode (x : WithPrelude Operand) (thenLabel elseLabel : String) : List Instr :=
  x.prelude.code ++ [.branch x.value thenLabel elseLabel]

open Fragment (ofCode closing)

inductive Builds (ctx : Context) :
    Names → List Stmt → List Decl → Fragment → Names → List String → Prop
  | nil {a} : Builds ctx a [] [] ∅ a []
  | plain {a b c t u stmt rest p ds f} : FlattensStmt ctx a stmt p b t →
      Builds ctx b rest ds f c u →
      Builds ctx a (stmt :: rest) (p.decls ++ ds) (ofCode p.code ++ f) c (t ++ u)
  | ifElse {a b c d e t u v w note cond thenBody elseBody rest l x ds ds' ds'' f g h} :
      a.branchLabels = l → FlattensOperand ctx l.after cond x b t →
      Builds ctx b thenBody ds f c u → Builds ctx c elseBody ds' g d v →
      Builds ctx d rest ds'' h e w →
      Builds ctx a (.ifElse note cond thenBody elseBody :: rest)
        (x.prelude.decls ++ ds ++ ds' ++ ds'')
        (closing (testCode x l.first l.second) l.first ++ f ++
          closing [.jump l.third] l.second ++ g ++ closing [.jump l.third] l.third ++ h) e
        ([l.first, l.second, l.third] ++ t ++ u ++ v ++ w)
  | whileLoop {a b c d t u v note cond body rest l x ds ds' f g} :
      a.loopLabels = l → FlattensOperand ctx l.after cond x b t →
      Builds ctx b body ds f c u → Builds ctx c rest ds' g d v →
      Builds ctx a (.whileLoop note cond body :: rest) (x.prelude.decls ++ ds ++ ds')
        (closing [.jump l.first] l.first ++ closing (testCode x l.second l.third) l.second ++ f ++
          closing [.jump l.first] l.third ++ g) d
        ([l.first, l.second, l.third] ++ t ++ u ++ v)

variable {ctx : Context}

theorem FlattensStmt.isPlain {a b : Names} {stmt : Stmt} {p : Prelude} {t : List String}
    (h : FlattensStmt ctx a stmt p b t) : stmt.isPlain = true := by
  cases h <;> rfl

theorem flattenStmt_flattens {stmt : Stmt} (hs : stmt.isPlain = true) {a b : Names} {p : Prelude}
    {t : List String} (h : (flattenStmt ctx stmt).Yields a p b t) :
    FlattensStmt ctx a stmt p b t := by
  cases stmt with
  | assign note name e =>
    simp only [flattenStmt, Lower.yields_bind, Lower.yields_pure] at h
    obtain ⟨x, mid, t₁, _, hx, ⟨rfl, rfl, rfl⟩, rfl⟩ := h
    simpa using FlattensStmt.assign (flatten_flattens hx)
  | ret note e =>
    simp only [flattenStmt, Lower.yields_bind, Lower.yields_pure] at h
    obtain ⟨x, mid, t₁, _, hx, ⟨rfl, rfl, rfl⟩, rfl⟩ := h
    simpa using FlattensStmt.ret (flattenOperand_flattens hx)
  | eval note e =>
    simp only [flattenStmt, Lower.yields_bind, Lower.yields_pure] at h
    obtain ⟨x, mid, t₁, _, hx, ⟨rfl, rfl, rfl⟩, rfl⟩ := h
    simpa using FlattensStmt.eval (flatten_flattens hx)
  | pass note =>
    obtain ⟨rfl, rfl, rfl⟩ := Lower.yields_pure.mp h
    exact .pass
  | assignField note receiver name value =>
    simp only [flattenStmt, Lower.yields_bind, Lower.yields_pure, yields_check] at h
    obtain ⟨slot, _, _, _, ⟨hs, rfl, rfl⟩, ⟨x, mid, t₁, _, hx, ⟨y, mid', t₂, _, hy,
      ⟨rfl, rfl, rfl⟩, rfl⟩, rfl⟩, rfl⟩ := h
    simpa using FlattensStmt.assignField (requireField_eq_ok hs) (flattenOperand_flattens hx)
      (flattenOperand_flattens hy)
  | assignIndex note receiver index value =>
    simp only [flattenStmt, Lower.yields_bind, Lower.yields_pure, yields_check] at h
    obtain ⟨_, _, _, _, ⟨_, rfl, rfl⟩, ⟨x, mid, t₁, _, hx, ⟨i, mid', t₂, _, hi,
      ⟨y, mid'', t₃, _, hy, ⟨o, _, t₄, _, ho, ⟨rfl, rfl, rfl⟩, rfl⟩, rfl⟩, rfl⟩, rfl⟩, rfl⟩ := h
    obtain ⟨rfl, rfl, rfl⟩ := yields_elementOffset.mp ho
    simpa using FlattensStmt.assignIndex (flattenOperand_flattens hx) (flattenOperand_flattens hi)
      (flattenOperand_flattens hy)
  | ifElse note cond thenBody elseBody => cases hs
  | whileLoop note cond body => cases hs

def Step.name? : Step → Option String
  | .named name => some name
  | .opened _ => none

instance : Naming Trail where
  drawn t := t.steps.filterMap Step.name?
  drawn_empty := rfl
  drawn_append _ _ := List.filterMap_append

namespace Trail

@[simp] theorem code_empty : (∅ : Trail).code = ∅ := rfl

@[simp] theorem code_append (t u : Trail) : (t ++ u).code = t.code ++ u.code := rfl

theorem append_empty (t : Trail) : t ++ (∅ : Trail) = t := by
  obtain ⟨steps, code⟩ := t
  change Trail.mk (steps ++ []) (code ++ ∅) = _
  rw [List.append_nil, Fragment.append_empty]

@[simp] theorem code_ofNames (names : List String) : (ofNames names).code = ∅ := rfl

@[simp] theorem drawn_ofNames (names : List String) : drawn (ofNames names) = names := by
  change (names.map Step.named).filterMap Step.name? = names
  rw [List.filterMap_map]
  exact List.filterMap_some

@[simp] theorem drawn_ofCode (code : Fragment) : drawn (⟨[], code⟩ : Trail) = [] := rfl

@[simp] theorem drawn_opened (label : String) (code : Fragment) :
    drawn (⟨[.opened label], code⟩ : Trail) = [] := rfl

end Trail

theorem yields_drawing {α : Type} {m : Draw α} {a b : Names} {x : α} {u : Trail} :
    (Build.drawing m).Yields a x b u ↔ ∃ t, m.Yields a x b t ∧ u = .ofNames t :=
  Lower.yields_mapTrail

theorem yields_emit {code : List Instr} {a b : Names} {x : Unit} {u : Trail} :
    (Build.emit code).Yields a x b u ↔ b = a ∧ u = ⟨[], ofCode code⟩ :=
  Lower.yields_leave

theorem yields_openBlock {label : String} {a b : Names} {x : Unit} {u : Trail} :
    (Build.openBlock label).Yields a x b u ↔ b = a ∧ u = ⟨[.opened label], .openBlock label⟩ :=
  Lower.yields_leave

theorem yields_flush {m : Draw Prelude} {a b : Names} {ds : List Decl} {u : Trail} :
    (Build.flush m).Yields a ds b u ↔ ∃ p t, m.Yields a p b t ∧ ds = p.decls ∧
      u = .ofNames t ++ ⟨[], ofCode p.code⟩ := by
  unfold Build.flush
  simp only [Lower.yields_bind, Lower.yields_pure, yields_drawing, yields_emit]
  constructor
  · rintro ⟨p, _, _, _, ⟨t, hm, rfl⟩, ⟨_, _, _, _, ⟨rfl, rfl⟩, ⟨rfl, rfl, rfl⟩, rfl⟩, rfl⟩
    exact ⟨p, t, hm, rfl, by rw [Trail.append_empty]⟩
  · rintro ⟨p, t, hm, rfl, rfl⟩
    exact ⟨p, b, _, _, ⟨t, hm, rfl⟩, ⟨(), b, _, ∅, ⟨rfl, rfl⟩, ⟨rfl, rfl, rfl⟩,
      (Trail.append_empty _).symm⟩, rfl⟩

theorem yields_flattenTest {cond : Expr} {thenLabel elseLabel : String} {p : Prelude}
    {a b : Names} {t : List String} (h : (flattenTest ctx cond thenLabel elseLabel).Yields a p b t) :
    ∃ x, FlattensOperand ctx a cond x b t ∧ p.decls = x.prelude.decls ∧
      p.code = testCode x thenLabel elseLabel := by
  simp only [flattenTest, Lower.yields_bind, Lower.yields_pure] at h
  obtain ⟨x, mid, t₁, _, hx, ⟨rfl, rfl, rfl⟩, rfl⟩ := h
  refine ⟨x, by simpa using flattenOperand_flattens hx, ?_, rfl⟩
  simp [Prelude.append_decls, Prelude.ofCode]

theorem buildStmt_plain {stmt : Stmt} (h : stmt.isPlain = true) :
    buildStmt ctx stmt = Build.flush (flattenStmt ctx stmt) := by
  cases stmt <;> first | rfl | cases h

theorem buildStmts_builds {body : List Stmt} {a b : Names} {ds : List Decl} {u : Trail}
    (h : (buildStmts ctx body).Yields a ds b u) : Builds ctx a body ds u.code b (drawn u) := by
  induction body using Stmt.bodyInduction generalizing a b ds u with
  | nil =>
    obtain ⟨rfl, rfl, rfl⟩ := Lower.yields_pure.mp h
    exact .nil
  | plain stmt rest hp ih =>
    simp only [buildStmts, buildStmt_plain hp, Lower.yields_bind, Lower.yields_pure, yields_flush]
      at h
    obtain ⟨_, mid, _, _, ⟨p, t, hm, rfl, rfl⟩, ⟨ds', _, v, _, hr, ⟨rfl, rfl, rfl⟩, rfl⟩, rfl⟩ := h
    have hb := Builds.plain (flattenStmt_flattens hp hm) (ih hr)
    simpa [Fragment.append_assoc, Fragment.append_empty, Fragment.empty_append] using hb
  | ifElse note cond thenBody elseBody rest iht ihe ih =>
    simp only [buildStmts, buildStmt, Lower.yields_bind, Lower.yields_pure, yields_flush,
      yields_drawing, yields_emit, yields_openBlock, yields_draw] at h
    obtain ⟨_, _, _, _, h₁, ⟨ds₃, _, _, _, hrest, ⟨rfl, rfl, rfl⟩, rfl⟩, rfl⟩ := h
    obtain ⟨_, _, _, _, ⟨_, ⟨rfl, rfl, rfl⟩, rfl⟩, h₂, rfl⟩ := h₁
    obtain ⟨_, _, _, _, ⟨_, ⟨rfl, rfl, rfl⟩, rfl⟩, h₃, rfl⟩ := h₂
    obtain ⟨_, _, _, _, ⟨_, ⟨rfl, rfl, rfl⟩, rfl⟩, h₄, rfl⟩ := h₃
    obtain ⟨_, _, _, _, ⟨p, t, htest, rfl, rfl⟩, h₅, rfl⟩ := h₄
    obtain ⟨_, _, _, _, ⟨rfl, rfl⟩, ⟨ds₁, _, _, _, hthen, h₆, rfl⟩, rfl⟩ := h₅
    obtain ⟨_, _, _, _, ⟨rfl, rfl⟩, ⟨_, _, _, _, ⟨rfl, rfl⟩, h₇, rfl⟩, rfl⟩ := h₆
    obtain ⟨ds₂, _, _, _, helse, ⟨_, _, _, _, ⟨rfl, rfl⟩, ⟨_, _, _, _, ⟨rfl, rfl⟩,
      ⟨rfl, rfl, rfl⟩, rfl⟩, rfl⟩, rfl⟩ := h₇
    obtain ⟨x, hx, hd, hc⟩ := yields_flattenTest htest
    have hb : Builds ctx a (.ifElse note cond thenBody elseBody :: rest) _ _ _ _ :=
      .ifElse rfl hx (iht hthen) (ihe helse) (ih hrest)
    simpa [Fragment.append_assoc, Fragment.append_empty, Fragment.empty_append,
      ← Fragment.ofCode_append_openBlock, hd, hc, Names.branchLabels, Names.labels] using hb
  | whileLoop note cond body rest ihb ih =>
    simp only [buildStmts, buildStmt, Lower.yields_bind, Lower.yields_pure, yields_flush,
      yields_drawing, yields_emit, yields_openBlock, yields_draw] at h
    obtain ⟨_, _, _, _, h₁, ⟨ds₂, _, _, _, hrest, ⟨rfl, rfl, rfl⟩, rfl⟩, rfl⟩ := h
    obtain ⟨_, _, _, _, ⟨_, ⟨rfl, rfl, rfl⟩, rfl⟩, h₂, rfl⟩ := h₁
    obtain ⟨_, _, _, _, ⟨_, ⟨rfl, rfl, rfl⟩, rfl⟩, h₃, rfl⟩ := h₂
    obtain ⟨_, _, _, _, ⟨_, ⟨rfl, rfl, rfl⟩, rfl⟩, h₄, rfl⟩ := h₃
    obtain ⟨_, _, _, _, ⟨rfl, rfl⟩, ⟨_, _, _, _, ⟨rfl, rfl⟩, h₅, rfl⟩, rfl⟩ := h₄
    obtain ⟨_, _, _, _, ⟨p, t, htest, rfl, rfl⟩, h₆, rfl⟩ := h₅
    obtain ⟨_, _, _, _, ⟨rfl, rfl⟩, ⟨ds₁, _, _, _, hbody, h₇, rfl⟩, rfl⟩ := h₆
    obtain ⟨_, _, _, _, ⟨rfl, rfl⟩, ⟨_, _, _, _, ⟨rfl, rfl⟩, ⟨rfl, rfl, rfl⟩, rfl⟩, rfl⟩ := h₇
    obtain ⟨x, hx, hd, hc⟩ := yields_flattenTest htest
    have hb : Builds ctx a (.whileLoop note cond body :: rest) _ _ _ _ :=
      .whileLoop rfl hx (ihb hbody) (ih hrest)
    simpa [Fragment.append_assoc, Fragment.append_empty, Fragment.empty_append,
      ← Fragment.ofCode_append_openBlock, hd, hc, Names.loopLabels, Names.labels] using hb

end BlockLowering
