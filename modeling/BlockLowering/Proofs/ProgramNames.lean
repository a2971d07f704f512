import BlockLowering.Proofs.StepComposition

/-! The names in lowered programs. Each name that is drawn while a program is lowered is the label of
one of its blocks or a temporary that it declares, and it is so once. The temporaries of a body
stand before the declarations that come from the source. -/

namespace BlockLowering

open Source (Stmt)
open Flat (Decl Block)

namespace Flat

def labelsOf (blocks : List Block) : List String := blocks.map (·.label)

/-- The names declared before the last `own` ones. -/
def namesBefore (own : Nat) (decls : List Decl) : List String :=
  (decls.take (decls.length - own)).map (·.name)

def Function.labels (f : Function) : List String := labelsOf f.body

def Function.temporaries (source : Source.Function) (f : Function) : List String :=
  namesBefore source.locals.length f.decls

def Class.labels (c : Class) : List String := c.methods.flatMap Function.labels

def Class.temporaries (source : Source.Class) (c : Class) : List String :=
  (List.zipWith Function.temporaries source.methods c.methods).flatten

def Program.labels (p : Program) : List String := labelsOf p.blocks

def Program.temporaries (source : Source.Program) (p : Program) : List String :=
  namesBefore source.globals.length p.decls ++
    (List.zipWith Function.temporaries source.functions p.functions).flatten ++
    (List.zipWith Class.temporaries source.classes p.classes).flatten

theorem namesBefore_append (ds : List Decl) (own : List Source.Decl) :
    namesBefore own.length (ds ++ own.map .ofSource) = ds.map (·.name) := by
  simp [namesBefore]

theorem Program.labels_eq (p : Program) : p.labels =
    labelsOf p.body ++ p.functions.flatMap Function.labels ++ p.classes.flatMap Class.labels := by
  simp only [labels, blocks, labelsOf, List.map_append, List.map_flatMap]
  rfl

end Flat

theorem Lower.each_yields_perm {ω α β : Type} [EmptyCollection ω] [Append ω] [Naming ω]
    {step : α → Lower ω β} (labels : β → List String) (temporaries : α → β → List String)
    (h : ∀ {item a x b t}, (step item).Yields a x b t →
      (labels x ++ temporaries item x).Perm (drawn t))
    {items : List α} {a b : Names} {xs : List β} {t : ω}
    (hy : (each step items).Yields a xs b t) :
    (xs.flatMap labels ++ (List.zipWith temporaries items xs).flatten).Perm (drawn t) := by
  induction items generalizing a xs t with
  | nil =>
    obtain ⟨rfl, _, rfl⟩ := yields_pure.mp hy
    simp
  | cons item rest ih =>
    obtain ⟨x, ys, mid, t₁, t₂, hx, hys, rfl, rfl⟩ := exists_of_each_cons hy
    have hhead := h hx
    have htail := ih hys
    simp only [List.perm_iff_count, List.flatMap_cons, List.zipWith_cons_cons,
      List.flatten_cons, List.count_append, drawn_append, drawn_empty,
      List.append_nil] at hhead htail ⊢
    intro name
    rw [← hhead, ← htail]
    omega

variable {ctx : Context}

theorem logBody_names {spans : List Span} {entry : String} {body : List Stmt} {ds : List Decl}
    {blocks : List Block} {a b : Names} {t : List Event}
    (h : (logBody spans ctx entry body).Yields a (ds, blocks) b t) :
    (Flat.labelsOf blocks ++ ds.map (·.name)).Perm (drawn t) := by
  obtain ⟨steps, hy, rfl⟩ := Lower.yields_mapTrail.mp h
  obtain ⟨f, u, hb, rfl, hd⟩ := buildBody_builds hy
  rw [drawn_stepEvents, hd]
  exact hb.names_perm.cons (a.fresh entry)

/-- A function is lowered by its body, and then its end is logged. -/
theorem flattenFunction_parts {spans : List Span} {f : Source.Function} {g : Flat.Function}
    {a b : Names} {t : List Event} (h : (flattenFunction ctx spans f).Yields a g b t) :
    ∃ ds blocks t', (logBody (spans ++ [.function f.name]) ctx Base.functionStart f.body).Yields a
        (ds, blocks) b t' ∧
      t = t' ++ [⟨spans ++ [.function f.name], .loweredFunction blocks.length ds.length⟩] ∧
      g = ⟨f.name, f.params, f.ret, ds ++ f.locals.map .ofSource, blocks⟩ := by
  obtain ⟨⟨ds, blocks⟩, _, t', _, hb, hrest, rfl⟩ := Lower.yields_bind.mp h
  obtain ⟨_, _, _, _, hl, hp, rfl⟩ := Lower.yields_bind.mp hrest
  obtain ⟨rfl, rfl⟩ := Lower.yields_leave.mp hl
  obtain ⟨rfl, rfl, rfl⟩ := Lower.yields_pure.mp hp
  exact ⟨ds, blocks, t', hb, rfl, rfl⟩

/-- What a function leaves after its body has no names in it. -/
theorem flattenFunction_cases {spans : List Span} {f : Source.Function} {g : Flat.Function}
    {a b : Names} {t : List Event} (h : (flattenFunction ctx spans f).Yields a g b t) :
    ∃ ds blocks t', (logBody (spans ++ [.function f.name]) ctx Base.functionStart f.body).Yields a
        (ds, blocks) b t' ∧ drawn t = drawn t' ∧
      g = ⟨f.name, f.params, f.ret, ds ++ f.locals.map .ofSource, blocks⟩ := by
  obtain ⟨ds, blocks, t', hb, rfl, rfl⟩ := flattenFunction_parts h
  refine ⟨ds, blocks, t', hb, ?_, rfl⟩
  rw [drawn_append]
  exact List.append_nil _

theorem flattenClass_parts {c : Source.Class} {d : Flat.Class} {a b : Names} {t : List Event}
    (h : (flattenClass ctx c).Yields a d b t) :
    ∃ methods,
      (Lower.each (flattenFunction ctx [.inClass c.name]) c.methods).Yields a methods b t ∧
      d = ⟨c.name, c.fields.map .ofSource, methods⟩ := by
  obtain ⟨methods, _, t', _, hm, hp, rfl⟩ := Lower.yields_bind.mp h
  obtain ⟨rfl, rfl, rfl⟩ := Lower.yields_pure.mp hp
  exact ⟨methods, (List.append_nil t').symm ▸ hm, rfl⟩

theorem flattenFunction_names {spans : List Span} {f : Source.Function} {g : Flat.Function}
    {a b : Names} {t : List Event} (h : (flattenFunction ctx spans f).Yields a g b t) :
    (g.labels ++ g.temporaries f).Perm (drawn t) := by
  obtain ⟨ds, blocks, t', hb, hdrawn, rfl⟩ := flattenFunction_cases h
  rw [Flat.Function.temporaries, Flat.namesBefore_append, hdrawn]
  exact logBody_names hb

theorem flattenClass_names {c : Source.Class} {d : Flat.Class} {a b : Names} {t : List Event}
    (h : (flattenClass ctx c).Yields a d b t) : (d.labels ++ d.temporaries c).Perm (drawn t) := by
  obtain ⟨methods, hm, rfl⟩ := flattenClass_parts h
  exact Lower.each_yields_perm Flat.Function.labels Flat.Function.temporaries
    flattenFunction_names hm

theorem program_names {p : Source.Program} {ds : List Decl} {body : List Block}
    {functions : List Flat.Function} {classes : List Flat.Class} {a b c d : Names}
    {t₁ t₂ t₃ : List Event}
    (hb : (logBody [] ctx Base.programStart p.body).Yields a (ds, body) b t₁)
    (hf : (Lower.each (flattenFunction ctx []) p.functions).Yields b functions c t₂)
    (hc : (Lower.each (flattenClass ctx) p.classes).Yields c classes d t₃) :
    let q : Flat.Program := ⟨functions, ds ++ p.globals.map .ofSource, classes, body⟩
    (q.labels ++ q.temporaries p).Perm (drawn t₁ ++ drawn t₂ ++ drawn t₃) := by
  have hb := logBody_names hb
  have hf := Lower.each_yields_perm Flat.Function.labels Flat.Function.temporaries
    flattenFunction_names hf
  have hc := Lower.each_yields_perm Flat.Class.labels Flat.Class.temporaries flattenClass_names hc
  simp only [List.perm_iff_count, Flat.Program.labels_eq, Flat.Program.temporaries,
    Flat.namesBefore_append, List.count_append] at hb hf hc ⊢
  intro name
  rw [← hb, ← hf, ← hc]
  omega

end BlockLowering
