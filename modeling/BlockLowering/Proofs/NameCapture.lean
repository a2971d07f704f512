import BlockLowering.Proofs.ProgramValidity

/-! Which variables of a program its temporaries capture. The names drawn from a supply are those
numbered from where its counters stood to where they stand afterwards. Temporaries look like
variables, and variables are not looked at when a name is drawn: so a variable that is called like
one of these names is captured, and no other one is. Where nothing is captured, declarations that
are distinct in the source stay distinct among the temporaries that join them. -/

namespace BlockLowering

open Source (Stmt)
open Flat (Decl Block)

/-- The names drawn are the numbers between the two states of the supply. -/
theorem Draws.numbered_mem_iff {a b : Names} {d : List String} (h : Draws a b d) {base : String}
    (hb : PlainBase base) {k : Nat} :
    base ++ toString k ∈ d ↔ a.count base < k ∧ k ≤ b.count base := by
  induction h with
  | refl names =>
    simp only [List.not_mem_nil, false_iff]
    omega
  | @next names after other drawn ho hd ih =>
    have hle := hd.noBehind.count_le base
    rw [List.mem_cons, ih]
    by_cases he : base = other
    · subst he
      rw [names.count_advance_self] at hle ⊢
      have hfresh : base ++ toString k = names.fresh base ↔ k = names.count base + 1 := by
        refine ⟨fun hk => (numbered_inj hb ho hk).2, ?_⟩
        rintro rfl
        rfl
      rw [hfresh]
      omega
    · have hfresh : base ++ toString k ≠ names.fresh other :=
        fun hk => he (numbered_inj hb ho hk).1
      rw [names.count_advance_of_ne he]
      simp only [hfresh, false_or]

theorem Draws.exists_number {a b : Names} {d : List String} (h : Draws a b d) :
    ∀ name ∈ d, ∃ (base : String) (k : Nat), PlainBase base ∧ name = base ++ toString k := by
  induction h with
  | refl => simp
  | @next names _ base _ hb _ ih =>
    exact List.forall_mem_cons.mpr ⟨⟨base, names.next base, hb, rfl⟩, ih⟩

theorem not_isTemporary_of_label {name : String} (h : NumberedFrom Base.labels name) :
    ¬ IsTemporary name := by
  rintro ⟨base, hb, digits, -, -, he⟩
  obtain ⟨label, hl, digits', -, -, he'⟩ := h
  have hdollar : ∀ l ∈ Base.labels, l.toList.head? = some '$' := by decide
  have hletter : ∀ t ∈ Base.temporaries, t.toList.head? ≠ some '$' ∧ t.toList.head? ≠ none := by
    decide
  have hname : name.toList.head? = some '$' := by
    rw [he', List.head?_append, hdollar label hl, Option.some_or]
  rw [he, List.head?_append, Option.or_eq_some_iff] at hname
  rcases hname with hd | ⟨hn, -⟩
  · exact (hletter base hb).1 hd
  · exact (hletter base hb).2 hn

variable {ctx : Context}

theorem Names.numberedFrom_labels (names : Names) {bases : List String}
    {first second third : String} (h₁ : first ∈ bases) (h₂ : second ∈ bases) (h₃ : third ∈ bases) :
    NumberedFrom bases (names.labels first second third).first ∧
      NumberedFrom bases (names.labels first second third).second ∧
      NumberedFrom bases (names.labels first second third).third :=
  ⟨numberedFrom_numbered h₁ _, numberedFrom_numbered h₂ _, numberedFrom_numbered h₃ _⟩

theorem Builds.labels_numbered {a b : Names} {body : List Stmt} {ds : List Decl} {f : Fragment}
    {t : List String} (h : Builds ctx a body ds f b t) :
    ∀ label ∈ f.labels, NumberedFrom Base.labels label := by
  induction h with
  | nil => simp
  | plain hs _ ih => simpa using ih
  | @ifElse a _ _ _ _ _ _ _ _ _ _ _ _ _ l _ _ _ _ _ _ _ hl hx _ _ _ iht ihe ih =>
    obtain ⟨h₁, h₂, h₃⟩ : NumberedFrom Base.labels l.first ∧ NumberedFrom Base.labels l.second ∧
        NumberedFrom Base.labels l.third :=
      hl ▸ a.numberedFrom_labels (by decide) (by decide) (by decide)
    simp only [Fragment.labels_append, Fragment.labels_closing, List.forall_mem_append,
      List.forall_mem_singleton]
    exact ⟨⟨⟨⟨⟨h₁, iht⟩, h₂⟩, ihe⟩, h₃⟩, ih⟩
  | @whileLoop a _ _ _ _ _ _ _ _ _ _ l _ _ _ _ _ hl hx _ _ ihb ih =>
    obtain ⟨h₁, h₂, h₃⟩ : NumberedFrom Base.labels l.first ∧ NumberedFrom Base.labels l.second ∧
        NumberedFrom Base.labels l.third :=
      hl ▸ a.numberedFrom_labels (by decide) (by decide) (by decide)
    simp only [Fragment.labels_append, Fragment.labels_closing, List.forall_mem_append,
      List.forall_mem_singleton]
    exact ⟨⟨⟨⟨h₁, h₂⟩, ihb⟩, h₃⟩, ih⟩

namespace Source

def Function.scope (f : Function) : List String := f.params.map (·.name) ++ f.locals.map (·.name)

def Class.scopes (c : Class) : List (List String) := c.methods.map Function.scope

/-- The names declared in each body: the globals, then the parameters and locals of each function
and method. -/
def Program.scopes (p : Program) : List (List String) :=
  p.globals.map (·.name) :: p.functions.map Function.scope ++ p.classes.flatMap Class.scopes

theorem Program.scopes_subset (p : Program) : ∀ scope ∈ p.scopes, scope ⊆ p.variables := by
  have hf : ∀ f : Function, f.scope ⊆ f.variables := fun f => List.subset_append_left _ _
  intro scope hs x hx
  simp only [scopes, List.cons_append, List.mem_cons, List.mem_append, List.mem_map,
    List.mem_flatMap] at hs
  simp only [Program.variables, List.mem_append, List.mem_flatMap]
  rcases hs with rfl | ⟨f, hm, rfl⟩ | ⟨c, hm, hc⟩
  · exact Or.inl (Or.inl (Or.inl hx))
  · exact Or.inl (Or.inr ⟨f, hm, hf f hx⟩)
  · obtain ⟨f, hfm, rfl⟩ := List.mem_map.mp hc
    exact Or.inr ⟨c, hm, List.mem_flatMap.mpr ⟨f, hfm, hf f hx⟩⟩

end Source

namespace Flat

def Function.scope (f : Function) : List String := f.params.map (·.name) ++ f.decls.map (·.name)

def Class.scopes (c : Class) : List (List String) := c.methods.map Function.scope

/-- The names declared in each body, temporaries included. -/
def Program.scopes (p : Program) : List (List String) :=
  p.decls.map (·.name) :: p.functions.map Function.scope ++ p.classes.flatMap Class.scopes

end Flat

/-- The labels `ls` and temporaries `ts` of lowered bodies can be told apart; and as long as the
temporaries are not among the `own` names of the bodies, these being distinct in each, all names
of each body are distinct. -/
structure Hygiene (ls ts : List String) (own all : List (List String)) : Prop where
  labels : ∀ l ∈ ls, ¬ IsTemporary l
  temporaries : ∀ t ∈ ts, IsTemporary t
  scopes : ∀ vars : List String, (∀ t ∈ ts, t ∉ vars) →
    (∀ scope ∈ own, scope.Nodup ∧ scope ⊆ vars) → ∀ scope ∈ all, scope.Nodup

namespace Hygiene

variable {ls ls' ts ts' : List String} {own own' all all' : List (List String)}

theorem nil : Hygiene [] [] [] [] := ⟨by simp, by simp, by simp⟩

theorem append (h : Hygiene ls ts own all) (h' : Hygiene ls' ts' own' all') :
    Hygiene (ls ++ ls') (ts ++ ts') (own ++ own') (all ++ all') := by
  refine ⟨List.forall_mem_append.mpr ⟨h.labels, h'.labels⟩,
    List.forall_mem_append.mpr ⟨h.temporaries, h'.temporaries⟩, fun vars ht ho => ?_⟩
  rw [List.forall_mem_append] at ht ho ⊢
  exact ⟨h.scopes vars ht.1 ho.1, h'.scopes vars ht.2 ho.2⟩

end Hygiene

theorem Lower.each_hygiene {ω α β : Type} [EmptyCollection ω] [Append ω] {step : α → Lower ω β}
    (labels : β → List String) (temporaries : α → β → List String)
    (own : α → List (List String)) (all : β → List (List String))
    (h : ∀ {item a x b t}, (step item).Yields a x b t →
      Hygiene (labels x) (temporaries item x) (own item) (all x))
    {items : List α} {a b : Names} {xs : List β} {t : ω}
    (hy : (each step items).Yields a xs b t) :
    Hygiene (xs.flatMap labels) (List.zipWith temporaries items xs).flatten (items.flatMap own)
      (xs.flatMap all) := by
  induction items generalizing a xs t with
  | nil =>
    obtain ⟨rfl, _, _⟩ := yields_pure.mp hy
    exact .nil
  | cons item rest ih =>
    obtain ⟨x, ys, mid, t₁, t₂, hx, hys, rfl, rfl⟩ := exists_of_each_cons hy
    exact (h hx).append (ih hys)

/-- A body whose other declarations are the names `front` and the variables `own`. -/
theorem logBody_hygiene {spans : List Span} {entry : String} (he : entry ∈ Base.labels)
    {body : List Stmt} {ds : List Decl} {blocks : List Block} {a b : Names} {t : List Event}
    (h : (logBody spans ctx entry body).Yields a (ds, blocks) b t) (front : List String)
    (own : List Source.Decl) :
    Hygiene (Flat.labelsOf blocks) (ds.map (·.name)) [front ++ own.map (·.name)]
      [front ++ (ds ++ own.map Decl.ofSource).map (·.name)] := by
  have hplain : ∀ base ∈ Base.labels, PlainBase base := by decide
  have hdraws := (LogStep.supplied (.body (hplain entry he))).draws h
  have hnodup : (ds.map (·.name)).Nodup :=
    ((logBody_names h).nodup_iff.mpr hdraws.nodup).of_append_right
  obtain ⟨steps, hy, rfl⟩ := Lower.yields_mapTrail.mp h
  obtain ⟨f, u, hb, rfl, hd⟩ := buildBody_builds hy
  refine ⟨fun l hl => not_isTemporary_of_label ?_, hb.temporaries, fun vars ht ho => ?_⟩
  · rcases List.mem_cons.mp hl with rfl | hl
    · exact numberedFrom_numbered he _
    · exact hb.labels_numbered l hl
  · obtain ⟨hown, hsub⟩ := ho _ List.mem_cons_self
    have hnames : (own.map Decl.ofSource).map (·.name) = own.map (·.name) := by
      rw [List.map_map]
      rfl
    rw [List.forall_mem_singleton, List.map_append, hnames]
    have hperm : (front ++ (ds.map (·.name) ++ own.map (·.name))).Perm
        (ds.map (·.name) ++ (front ++ own.map (·.name))) := by
      rw [← List.append_assoc, ← List.append_assoc]
      exact (List.perm_append_comm).append_right _
    rw [hperm.nodup_iff]
    refine hnodup.append hown fun x hx hx' => ht x hx (hsub hx')

theorem flattenFunction_hygiene {spans : List Span} {f : Source.Function} {g : Flat.Function}
    {a b : Names} {t : List Event} (h : (flattenFunction ctx spans f).Yields a g b t) :
    Hygiene g.labels (g.temporaries f) [f.scope] [g.scope] := by
  obtain ⟨ds, blocks, t', hb, -, rfl⟩ := flattenFunction_cases h
  rw [Flat.Function.temporaries, Flat.namesBefore_append]
  exact logBody_hygiene (by decide) hb (f.params.map (·.name)) f.locals

theorem flattenClass_hygiene {c : Source.Class} {d : Flat.Class} {a b : Names} {t : List Event}
    (h : (flattenClass ctx c).Yields a d b t) :
    Hygiene d.labels (d.temporaries c) c.scopes d.scopes := by
  obtain ⟨methods, hm, rfl⟩ := flattenClass_parts h
  have hall := Lower.each_hygiene Flat.Function.labels Flat.Function.temporaries
    (fun f => [f.scope]) (fun g => [g.scope]) flattenFunction_hygiene hm
  rw [← List.map_eq_flatMap, ← List.map_eq_flatMap] at hall
  exact hall

theorem flattenProgram_hygiene {p : Source.Program} {q : Flat.Program} {a b : Names}
    {t : List Event} (h : (flattenProgram ctx p).Yields a q b t) :
    Hygiene q.labels (q.temporaries p) p.scopes q.scopes := by
  obtain ⟨ds, body, functions, classes, _, _, t₁, t₂, t₃, hb, hf, hc, -, rfl⟩ :=
    flattenProgram_cases h
  have htop := logBody_hygiene (by decide) hb [] p.globals
  have hfuns := Lower.each_hygiene Flat.Function.labels Flat.Function.temporaries
    (fun f => [f.scope]) (fun g => [g.scope]) flattenFunction_hygiene hf
  have hclasses := Lower.each_hygiene Flat.Class.labels Flat.Class.temporaries Source.Class.scopes
    Flat.Class.scopes flattenClass_hygiene hc
  rw [Flat.Program.labels_eq, Flat.Program.temporaries, Flat.namesBefore_append,
    Source.Program.scopes, Flat.Program.scopes]
  rw [← List.map_eq_flatMap, ← List.map_eq_flatMap] at hfuns
  exact (htop.append hfuns).append hclasses

/-- Temporaries capture the variables that are called like the names drawn for them, and only
those: a program whose bodies declare distinct names is lowered without any capture, to bodies
that declare distinct names, exactly if no variable of it is a base of temporaries with one of the
numbers that the supply gave out meanwhile. -/
theorem capture_free_iff_numbers_unused {ctx : Context} {p : Source.Program} {names : Names}
    {q : Flat.Program} (hd : ∀ scope ∈ p.scopes, scope.Nodup)
    (h : (flattenProgram ctx p names).result = .ok q) :
    ((∀ t ∈ q.temporaries p, t ∉ p.variables) ∧ ∀ scope ∈ q.scopes, scope.Nodup) ↔
      ∀ base ∈ Base.temporaries, ∀ k, names.count base < k →
        k ≤ (flattenProgram ctx p names).names.count base → base ++ toString k ∉ p.variables := by
  have hy := Lower.yields_of_result h
  have hg := flattenProgram_hygiene hy
  have hdraws := ((composed_flattenProgram p).supplied fun _ _ => LogStep.supplied).draws hy
  have hnames := (flattenProgram_yields hy).2
  have hplain : ∀ base ∈ Base.temporaries, PlainBase base := by decide
  constructor
  · rintro ⟨hfree, -⟩ base hb k hlt hle
    have hmem := hnames.mem_iff.mpr ((hdraws.numbered_mem_iff (hplain base hb)).mpr ⟨hlt, hle⟩)
    rcases List.mem_append.mp hmem with hl | ht
    · exact absurd (isTemporary_numbered hb k) (hg.labels _ hl)
    · exact hfree _ ht
  · intro hunused
    have hfree : ∀ t ∈ q.temporaries p, t ∉ p.variables := by
      intro t ht
      have hmem := hnames.subset (List.mem_append_right _ ht)
      obtain ⟨base, k, hb, rfl⟩ := hdraws.exists_number t hmem
      obtain ⟨base', hb', digits, -, hdigits, he⟩ := hg.temporaries _ ht
      rw [String.toList_append] at he
      obtain rfl : base = base' :=
        hb.unique (hplain base' hb') (toString_toList_digits k) hdigits he
      obtain ⟨hlt, hle⟩ := (hdraws.numbered_mem_iff hb).mp hmem
      exact hunused base hb' k hlt hle
    refine ⟨hfree, hg.scopes p.variables hfree fun scope hs => ⟨hd scope hs, ?_⟩⟩
    exact p.scopes_subset scope hs

/-- Three times a variable of the given name. -/
def Source.tripled (factor : String) : Source.Program :=
  let number : Source.Note := ⟨.number, {}⟩
  let sum : Source.Expr := .binary number .plus (.literal number (.num 1)) (.literal number (.num 2))
  { globals := [⟨factor, .number, .num 5, {}⟩, ⟨"product", .number, .num 0, {}⟩]
    body := [.assign number "product" (.binary number .mul sum (.var number factor))] }

/-- What it is lowered to. -/
def Flat.tripled (factor : String) : Flat.Program where
  functions := []
  decls := [.temporary "valname1" .number, ⟨factor, .number, .num 5⟩, ⟨"product", .number, .num 0⟩]
  classes := []
  body := [⟨"$startProg1", [.assign "valname1" (.binary .plus (.num 1) (.num 2)),
    .assign "product" (.binary .mul (.var "valname1") (.var factor))]⟩]

theorem capture_free_tripled :
    let p := Source.tripled "valname2"
    (∀ scope ∈ p.scopes, scope.Nodup) ∧
    (flattenProgram ⟨{}, {}⟩ p {}).result = .ok (Flat.tripled "valname2") ∧
    (∀ t ∈ (Flat.tripled "valname2").temporaries p, t ∉ p.variables) ∧
    ∀ scope ∈ (Flat.tripled "valname2").scopes, scope.Nodup := by
  intro p
  have hd : ∀ scope ∈ p.scopes, scope.Nodup := by decide
  have hq : (flattenProgram ⟨{}, {}⟩ p {}).result = .ok (Flat.tripled "valname2") := rfl
  have hunused : ∀ base ∈ Base.temporaries,
      ∀ k < (flattenProgram ⟨{}, {}⟩ p {}).names.count base + 1,
        base ++ toString k ∉ p.variables := by decide +kernel
  refine ⟨hd, hq, (capture_free_iff_numbers_unused hd hq).mpr fun base hb k _ hle => ?_⟩
  exact hunused base hb k (Nat.lt_succ_of_le hle)

/-- A variable with the number of the first temporary is captured: the sum takes the place of its
value, and its name is declared twice. -/
theorem tripled_variable_captured :
    let p := Source.tripled "valname1"
    (∀ scope ∈ p.scopes, scope.Nodup) ∧
    (flattenProgram ⟨{}, {}⟩ p {}).result = .ok (Flat.tripled "valname1") ∧
    (∃ t ∈ (Flat.tripled "valname1").temporaries p, t ∈ p.variables) ∧
    (∃ scope ∈ (Flat.tripled "valname1").scopes, ¬ scope.Nodup) :=
  ⟨by decide, rfl, by decide, by decide⟩

end BlockLowering
