import BlockLowering.Proofs.FirstFault
import BlockLowering.Proofs.NameOrder
import BlockLowering.Proofs.ProgramBodies
import BlockLowering.Proofs.SeedIndependence

/-! The order in which a program declares its classes. Lowering reads a layout by the names of classes
only, so it has no part in the code of the top level and of functions. Methods are lowered class by
class with one supply of names: in another order they are the same but for the numbers in names. -/

namespace BlockLowering

open Source (bodyFaults)

variable {ctx ctx' : Context}

theorem Context.Alike.flattenProgram_eq (h : ctx.Alike ctx') :
    flattenProgram ctx = flattenProgram ctx' := by
  funext p
  rw [flattenProgram_unchecked ctx, flattenProgram_unchecked ctx', flattenProgram_checking,
    flattenProgram_checking, h.logBody_eq, h.flattenFunction_eq, h.flattenClass_eq]

/-- The faults of the top level and of the functions. -/
def Source.Program.topFaults (layout : Layout) (p : Source.Program) : List Fault :=
  bodyFaults layout p.body ++ p.functions.flatMap fun f => bodyFaults layout f.body

/-- The faults of the methods, class by class. -/
def Source.methodFaults (layout : Layout) (classes : List Source.Class) : List Fault :=
  classes.flatMap fun c => c.methods.flatMap fun f => bodyFaults layout f.body

theorem Source.Program.faults_eq (layout : Layout) (p : Source.Program) :
    p.faults layout = p.topFaults layout ++ methodFaults layout p.classes :=
  rfl

theorem Source.methodFaults_perm (layout : Layout) {classes classes' : List Source.Class}
    (h : classes.Perm classes') : (methodFaults layout classes).Perm (methodFaults layout classes') :=
  h.flatMap_right _

section

variable {p : Source.Program} {classes : List Source.Class} (hperm : p.classes.Perm classes)
include hperm

theorem flattenProgram_reordered_fault {names : Names} {f : Fault}
    (h : (flattenProgram ctx p names).result = .error f) :
    ∃ f', (flattenProgram ctx { p with classes := classes } names).result = .error f' ∧
      (p.topFaults ctx.layout ≠ [] → f' = f) := by
  have hmethods := Source.methodFaults_perm ctx.layout hperm
  have hhead := ((meets_flattenProgram p names).error_iff f).mp h
  rw [Source.Program.faults_eq] at hhead
  have hfails : ∀ f', (p.topFaults ctx.layout ++ Source.methodFaults ctx.layout classes).head? =
      some f' → (flattenProgram ctx { p with classes := classes } names).result = .error f' :=
    fun f' => ((meets_flattenProgram { p with classes := classes } names).error_iff f').mpr
  by_cases htop : p.topFaults ctx.layout = []
  · rw [htop, List.nil_append] at hhead hfails
    cases hfaults : Source.methodFaults ctx.layout classes with
    | nil =>
      rw [hfaults] at hmethods
      rw [hmethods.eq_nil] at hhead
      cases hhead
    | cons f' rest =>
      rw [hfaults] at hfails
      exact ⟨f', hfails f' rfl, fun hne => absurd htop hne⟩
  · obtain ⟨g, rest, hcons⟩ := List.exists_cons_of_ne_nil htop
    rw [hcons] at hhead hfails
    obtain rfl : g = f := Option.some.inj hhead
    exact ⟨g, hfails g rfl, fun _ => rfl⟩

theorem flattenProgram_reordered_ok {names : Names} {q : Flat.Program}
    (h : (flattenProgram ctx p names).result = .ok q) :
    ∃ q', (flattenProgram ctx { p with classes := classes } names).result = .ok q' := by
  rcases hr : (flattenProgram ctx { p with classes := classes } names).result with f | q'
  · obtain ⟨f', hf', -⟩ := flattenProgram_reordered_fault
      (p := { p with classes := classes }) hperm.symm hr
    rw [h] at hf'
    cases hf'
  · exact ⟨q', rfl⟩

end

/-- Lowered classes that differ in the numbers of new names in their methods only: either goes over
into the other by a renumbering. -/
def Flat.Class.Renumbered (c d : Flat.Class) : Prop :=
  ∃ old new : Names, c.rename (old.renumber new) = d ∧ d.rename (new.renumber old) = c

theorem flattenClass_renumbered (hl : ctx.layout.Literal) {c : Source.Class}
    (hv : ∀ x ∈ c.variables, ¬ IsGenerated x) {a a' : Names} {d d' : Flat.Class}
    (h : (flattenClass ctx c a).result = .ok d) (h' : (flattenClass ctx c a').result = .ok d') :
    d.Renumbered d' := by
  have hto := (flattenClass_parallel hl hv a a' (.refl a a')).result
  have hfrom := (flattenClass_parallel hl hv a' a (.refl a' a)).result
  rw [h, h'] at hto hfrom
  exact ⟨a, a', (Except.ok.inj hto).symm, (Except.ok.inj hfrom).symm⟩

/-- Lists made from the same items, one by one. -/
theorem forall₂_of_common {α β : Type} {R : α → β → Prop} {S : β → β → Prop} {items : List α}
    (h : ∀ item ∈ items, ∀ {x y}, R item x → R item y → S x y) {xs ys : List β}
    (hx : List.Forall₂ R items xs) (hy : List.Forall₂ R items ys) : List.Forall₂ S xs ys := by
  induction hx generalizing ys with
  | nil =>
    cases hy
    exact .nil
  | cons hr _ ih =>
    cases hy with
    | cons hr' hrest =>
      rw [List.forall_mem_cons] at h
      exact .cons (h.1 hr hr') (ih h.2 hrest)

theorem each_flattenClass_reordered (hl : ctx.layout.Literal)
    {classes classes' : List Source.Class} (hperm : classes.Perm classes')
    (hv : ∀ c ∈ classes, ∀ x ∈ c.variables, ¬ IsGenerated x) {a b a' b' : Names}
    {ds ds' : List Flat.Class} {t t' : List Event}
    (h : (Lower.each (flattenClass ctx) classes).Yields a ds b t)
    (h' : (Lower.each (flattenClass ctx) classes').Yields a' ds' b' t') :
    ∃ es, ds.Perm es ∧ List.Forall₂ Flat.Class.Renumbered es ds' := by
  let R (c : Source.Class) (d : Flat.Class) : Prop :=
    ∃ names, (flattenClass ctx c names).result = .ok d
  have hR : ∀ {c : Source.Class} {a d b t}, (flattenClass ctx c).Yields a d b t → R c d :=
    fun hy => ⟨_, congrArg Outcome.result hy⟩
  obtain ⟨es, hes, hp⟩ := List.perm_comp_forall₂ hperm.symm (Lower.each_yields_forall₂ hR h)
  refine ⟨es, hp.symm, forall₂_of_common ?_ hes (Lower.each_yields_forall₂ hR h')⟩
  rintro c hc d d' ⟨a, hd⟩ ⟨a', hd'⟩
  exact flattenClass_renumbered hl (hv c (hperm.mem_iff.mpr hc)) hd hd'

theorem Lower.Yields.unique {ω α : Type} {m : Lower ω α} {a b b' : Names} {x x' : α} {t t' : ω}
    (h : m.Yields a x b t) (h' : m.Yields a x' b' t') : x = x' ∧ b = b' := by
  have he : Outcome.mk (.ok x) b t = ⟨.ok x', b', t'⟩ := h.symm.trans h'
  cases he
  exact ⟨rfl, rfl⟩

/-- The order of the classes has no part in what lowering makes of a program. Layouts have the same
tables and the same sorted list; a program fails in every order or in none, with the same fault if
one is outside of methods; and lowered programs are the same but for the order of their classes
and for numbers of names in methods. -/
theorem class_order_irrelevant (p : Source.Program) {classes : List Source.Class}
    (hperm : p.classes.Perm classes) (hnames : (p.classes.map (·.name)).Nodup)
    (settings : Settings) (names : Names) :
    let layout := Layout.ofClasses p.classes
    let layout' := Layout.ofClasses classes
    let o := flattenProgram ⟨layout, settings⟩ p names
    let o' := flattenProgram ⟨layout', settings⟩ { p with classes := classes } names
    (∀ name, layout.fields? name = layout'.fields? name) ∧
    (layout.sorted = layout'.sorted ∧
      layout.sorted.Pairwise (fun a b => Utf8.bytes a.1 < Utf8.bytes b.1) ∧
      layout.sorted.Perm (p.classes.map fun c => (c.name, .ofFields c.fields))) ∧
    (∀ f, o.result = .error f →
      ∃ f', o'.result = .error f' ∧ (p.topFaults layout ≠ [] → f' = f)) ∧
    ∀ q, o.result = .ok q → ∃ q', o'.result = .ok q' ∧
      q'.body = q.body ∧ q'.decls = q.decls ∧ q'.functions = q.functions ∧
      ((∀ x ∈ p.variables, ¬ IsGenerated x) →
        ∃ ds, q.classes.Perm ds ∧ List.Forall₂ Flat.Class.Renumbered ds q'.classes) := by
  intro layout layout' o o'
  have hfields : ∀ name, layout.fields? name = layout'.fields? name :=
    Layout.fields?_ofClasses_eq hnames hperm
  have halike : Context.Alike ⟨layout, settings⟩ ⟨layout', settings⟩ :=
    ⟨hfields, settings.validate, rfl⟩
  have ho' : o' = flattenProgram ⟨layout, settings⟩ { p with classes := classes } names := by
    rw [halike.flattenProgram_eq]
  have hsorted := Layout.sorted_ofClasses_eq hnames hperm
  refine ⟨hfields, ⟨hsorted, Layout.sorted_ofClasses_increasing hnames,
    Layout.sorted_ofClasses_perm hnames⟩, fun f hf => ?_, fun q hq => ?_⟩
  · rw [ho']
    exact flattenProgram_reordered_fault hperm hf
  · rw [ho']
    obtain ⟨q', hq'⟩ := flattenProgram_reordered_ok hperm hq
    refine ⟨q', hq', ?_⟩
    obtain ⟨ds, body, functions, lowered, _, _, _, _, _, hb, hf, hc, -, rfl⟩ :=
      flattenProgram_cases (Lower.yields_of_result hq)
    obtain ⟨ds', body', functions', lowered', _, _, _, _, _, hb', hf', hc', -, rfl⟩ :=
      flattenProgram_cases (Lower.yields_of_result hq')
    obtain ⟨hbody, rfl⟩ := hb.unique hb'
    obtain ⟨rfl, rfl⟩ := Prod.mk.inj hbody
    obtain ⟨rfl, rfl⟩ := hf.unique hf'
    refine ⟨rfl, rfl, rfl, fun hv => ?_⟩
    refine each_flattenClass_reordered (Layout.literal_ofClasses _) hperm (fun c hc x hx => ?_) hc hc'
    exact hv x (List.mem_append_right _ (List.mem_flatMap.mpr ⟨c, hc, hx⟩))

/-- Two classes with the same method, after a statement that draws a name. -/
def Source.tallies : Source.Program :=
  let number : Source.Note := ⟨.number, {}⟩
  let negated : Source.Expr := .unary number .neg (.var number "x")
  let negate : Source.Function :=
    { name := "negate", params := [⟨"x", .number⟩], ret := .number, locals := [],
      body := [.ret number negated], loc := {} }
  { globals := [⟨"x", .number, .num 1, {}⟩]
    classes := [⟨"Tally", [⟨"total", .number, .num 0, {}⟩], [negate], {}⟩, ⟨"Sum", [], [negate], {}⟩]
    body := [.assign number "x" (.unary number .neg negated)] }

theorem class_order_irrelevant_tallies :
    let p := Source.tallies
    let p' := { p with classes := p.classes.reverse }
    p.classes.Perm p'.classes ∧ (p.classes.map (·.name)).Nodup ∧
    (∀ x ∈ p.variables, ¬ IsGenerated x) ∧
    ∃ q q', (lower {} p).result = .ok q ∧ (lower {} p').result = .ok q' ∧ q'.body = q.body ∧
      (∃ ds, q.classes.Perm ds ∧ List.Forall₂ Flat.Class.Renumbered ds q'.classes) ∧
      q.classes.flatMap (fun c => c.methods.flatMap fun f => f.decls.map (·.name)) =
        ["valname2", "valname3"] := by
  intro p p'
  have hperm : p.classes.Perm p'.classes := (List.reverse_perm _).symm
  have hnames : (p.classes.map (·.name)).Nodup := by decide
  have hv : ∀ x ∈ p.variables, ¬ IsGenerated x := by decide
  obtain ⟨-, -, -, h⟩ := class_order_irrelevant p hperm hnames {} {}
  obtain ⟨q', hq', hbody, -, -, hclasses⟩ := h _ rfl
  exact ⟨hperm, hnames, hv, _, q', rfl, hq', hbody, hclasses hv, by decide +kernel⟩

end BlockLowering
