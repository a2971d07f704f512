import BlockLowering.Proofs.ProgramValidity
import BlockLowering.Proofs.TemporaryRuns
import Mathlib.Data.List.Perm.Subperm

/-! Temporaries of lowered programs. Each is declared once, in the body that uses it, and holds nothing
there; one instruction assigns it, and it is read only later in the same block. For one body this
follows from what it assigns and where it reads; that bodies share no temporaries follows from the
supply that all of them draw their names from. -/

namespace BlockLowering

open Source (Stmt)
open Flat (Operand Rhs Instr Decl Block Config step)

namespace Flat

/-- A body of a program with its declarations. -/
structure Part where
  decls : List Decl
  body : List Block

def Function.part (f : Function) : Part := ⟨f.decls, f.body⟩

/-- The top level, the functions, then the methods class by class. -/
def Program.parts (p : Program) : List Part :=
  ⟨p.decls, p.body⟩ :: p.functions.map Function.part ++
    p.classes.flatMap fun c => c.methods.map Function.part

/-- The instruction assigns or reads the name. -/
def Instr.Uses (i : Instr) (name : String) : Prop :=
  i.assigned? = some name ∨ .var name ∈ i.operands

instance (i : Instr) (name : String) : Decidable (i.Uses name) :=
  inferInstanceAs (Decidable (_ ∨ _))

namespace Part

def Mentions (part : Part) (name : String) : Prop :=
  (∃ d ∈ part.decls, d.name = name) ∨ ∃ b ∈ part.body, ∃ i ∈ b.code, i.Uses name

instance (part : Part) (name : String) : Decidable (part.Mentions name) :=
  inferInstanceAs (Decidable (_ ∨ _))

/-- The temporaries that are declared. -/
def temporaries (part : Part) : List String := (part.decls.map (·.name)).filter (IsTemporary ·)

def DeclaresOnce (part : Part) (name : String) : Prop :=
  ∃ before ty after, part.decls = before ++ .temporary name ty :: after ∧
    ∀ d ∈ before ++ after, d.name ≠ name

/-- One instruction assigns the name. It does not read it, nor does anything that comes before it
in its block or stands in another block. -/
def AssignsOnce (part : Part) (name : String) : Prop :=
  ∃ earlier b later front r back,
    part.body = earlier ++ b :: later ∧ b.code = front ++ .assign name r :: back ∧
    (∀ other ∈ earlier ++ later, ∀ i ∈ other.code, ¬ i.Uses name) ∧
    (∀ i ∈ front, ¬ i.Uses name) ∧ .var name ∉ r.operands ∧ ∀ i ∈ back, i.assigned? ≠ some name

end Part

/-- One body alone has the name. It declares it once, and assigns it once before it reads it. -/
def Program.AssignsOnce (p : Program) (name : String) : Prop :=
  ∃ before part after, p.parts = before ++ part :: after ∧
    part.DeclaresOnce name ∧ part.AssignsOnce name ∧
    ∀ other ∈ before ++ after, ¬ other.Mentions name

end Flat

open Flat (Part)

theorem exists_split_of_nodup {α β : Type} {f : α → List β} {l : List α} {y : β}
    (h : (l.flatMap f).Nodup) (hy : y ∈ l.flatMap f) :
    ∃ before x after, l = before ++ x :: after ∧ y ∈ f x ∧ ∀ z ∈ before ++ after, y ∉ f z := by
  obtain ⟨x, hx, hyx⟩ := List.mem_flatMap.mp hy
  obtain ⟨before, after, rfl⟩ := List.append_of_mem hx
  refine ⟨before, x, after, rfl, hyx, fun z hz hyz => ?_⟩
  rw [List.flatMap_append, List.flatMap_cons] at h
  have hd := List.disjoint_of_nodup_append h
  have hd' := List.disjoint_of_nodup_append h.of_append_right
  rcases List.mem_append.mp hz with hz | hz
  · exact hd (List.mem_flatMap.mpr ⟨z, hz, hyz⟩) (List.mem_append_left _ hyx)
  · exact hd' hyx (List.mem_flatMap.mpr ⟨z, hz, hyz⟩)

variable {code rest : List Instr} {name : String}

theorem mem_assignedTemporaries (ht : IsTemporary name) :
    name ∈ assignedTemporaries code ↔ ∃ i ∈ code, i.assigned? = some name := by
  simp [assignedTemporaries, ht]

theorem Settled.of_append {known : List String} (h : Settled known (code ++ rest)) :
    Settled known code := by
  induction code generalizing known with
  | nil => trivial
  | cons i code ih => exact ⟨h.1, ih h.2⟩

/-- A temporary that a block uses is assigned in it. -/
theorem Settled.assigned_of_uses (h : Settled [] code) (ht : IsTemporary name) {i : Instr}
    (hi : i ∈ code) (hu : i.Uses name) : name ∈ assignedTemporaries code := by
  rw [mem_assignedTemporaries ht]
  rcases hu with ha | hr
  · exact ⟨i, hi, ha⟩
  · obtain ⟨front, back, rfl⟩ := List.append_of_mem hi
    have hm := (h.read hr ht).resolve_right List.not_mem_nil
    obtain ⟨j, hj, ha⟩ := List.mem_filterMap.mp hm
    exact ⟨j, List.mem_append_left _ hj, ha⟩

/-- A body whose temporaries are the ones it declares. -/
structure Flat.Part.Tidy (part : Part) : Prop where
  assigned : assignedTemporaries (part.body.flatMap (·.code)) = part.temporaries
  placeholders : ∀ d ∈ part.decls, IsTemporary d.name → d.value = .none
  settled : ∀ b ∈ part.body, Settled [] b.code

namespace Flat.Part

variable {part : Part}

theorem Tidy.mem_of_mentions (h : part.Tidy) (ht : IsTemporary name) (hm : part.Mentions name) :
    name ∈ part.temporaries := by
  rcases hm with ⟨d, hd, rfl⟩ | ⟨b, hb, i, hi, hu⟩
  · exact List.mem_filter.mpr ⟨List.mem_map.mpr ⟨d, hd, rfl⟩, decide_eq_true ht⟩
  · rw [← h.assigned, mem_assignedTemporaries ht]
    obtain ⟨j, hj, ha⟩ := (mem_assignedTemporaries ht).mp ((h.settled b hb).assigned_of_uses ht hi hu)
    exact ⟨j, List.mem_flatMap.mpr ⟨b, hb, hj⟩, ha⟩

theorem Tidy.declaresOnce (h : part.Tidy) (ht : IsTemporary name) (hn : part.temporaries.Nodup)
    (hm : name ∈ part.temporaries) : part.DeclaresOnce name := by
  have he : part.temporaries = part.decls.flatMap fun d => [d.name].filter (IsTemporary ·) := by
    rw [temporaries, List.map_eq_flatMap, List.filter_flatMap]
  rw [he] at hn hm
  obtain ⟨before, d, after, hd, hdm, hother⟩ := exists_split_of_nodup hn hm
  obtain rfl : name = d.name := List.mem_singleton.mp (List.mem_filter.mp hdm).1
  have hv : d.value = .none := h.placeholders d (hd ▸ by simp) ht
  refine ⟨before, d.ty, after, ?_, fun d' hd' he' => hother d' hd' ?_⟩
  · rw [Decl.temporary, ← hv]
    exact hd
  · rw [he']
    simpa using ht

theorem Tidy.assignsOnce (h : part.Tidy) (ht : IsTemporary name) (hn : part.temporaries.Nodup)
    (hm : name ∈ part.temporaries) : part.AssignsOnce name := by
  have he : part.temporaries = part.body.flatMap fun b => assignedTemporaries b.code := by
    rw [← h.assigned, assignedTemporaries, List.filterMap_flatMap, List.filter_flatMap]
    rfl
  rw [he] at hn hm
  obtain ⟨earlier, b, later, hb, hbm, hother⟩ := exists_split_of_nodup hn hm
  have hset : ∀ b' ∈ earlier ++ b :: later, Settled [] b'.code := hb ▸ h.settled
  have hcode : assignedTemporaries b.code =
      b.code.flatMap fun i => i.assigned?.toList.filter (IsTemporary ·) := by
    rw [assignedTemporaries, List.filterMap_eq_flatMap_toList, List.filter_flatMap]
  have hnb := (List.nodup_flatMap.mp hn).1 b (hb ▸ by simp)
  rw [hcode] at hnb hbm
  obtain ⟨front, i, back, hc, him, hrest⟩ := exists_split_of_nodup hnb hbm
  have hnot : ∀ j ∈ front ++ back, j.assigned? ≠ some name := fun j hj ha =>
    hrest j hj (by simpa [ha] using ht)
  have hfront : name ∉ assignedTemporaries front := by
    rw [mem_assignedTemporaries ht]
    rintro ⟨j, hj, ha⟩
    exact hnot j (List.mem_append_left _ hj) ha
  cases i with
  | assign target r =>
    obtain rfl : name = target := List.mem_singleton.mp (List.mem_filter.mp him).1
    have hsb : Settled [] (front ++ .assign name r :: back) := hc ▸ hset b (by simp)
    refine ⟨earlier, b, later, front, r, back, hb, hc, ?_, ?_, ?_, ?_⟩
    · intro other ho i hi hu
      have hso : Settled [] other.code := hset other (by
        rcases List.mem_append.mp ho with ho | ho <;> simp [ho])
      exact hother other ho (hso.assigned_of_uses ht hi hu)
    · intro i hi hu
      exact hfront (hsb.of_append.assigned_of_uses ht hi hu)
    · intro hr
      have hm := (hsb.read hr ht).resolve_right List.not_mem_nil
      exact hfront (List.mem_filter.mpr ⟨hm, decide_eq_true ht⟩)
    · exact fun i hi => hnot i (List.mem_append_right _ hi)
  | _ => simp [Instr.assigned?] at him

end Flat.Part

/-- Bodies with the temporaries that were drawn for them. -/
structure TidyParts (parts : List Part) (drawn : List String) : Prop where
  tidy : ∀ part ∈ parts, part.Tidy
  temporaries : (parts.flatMap Part.temporaries).Subperm drawn

namespace TidyParts

variable {parts more : List Part} {d e : List String}

theorem nil : TidyParts [] d := ⟨by simp, List.nil_subperm⟩

theorem single {part : Part} (h : part.Tidy) (hd : part.temporaries.Subperm d) :
    TidyParts [part] d :=
  ⟨by simpa using h, by simpa using hd⟩

theorem append (h : TidyParts parts d) (h' : TidyParts more e) :
    TidyParts (parts ++ more) (d ++ e) := by
  refine ⟨List.forall_mem_append.mpr ⟨h.tidy, h'.tidy⟩, ?_⟩
  rw [List.flatMap_append]
  exact h.temporaries.append h'.temporaries

end TidyParts

theorem Lower.each_tidyParts {ω α β : Type} [EmptyCollection ω] [Append ω] [Naming ω]
    {step : α → Lower ω β} {parts : β → List Part} {items : List α}
    (h : ∀ item ∈ items, ∀ {a x b t}, (step item).Yields a x b t → TidyParts (parts x) (drawn t))
    {a b : Names} {xs : List β} {t : ω} (hy : (each step items).Yields a xs b t) :
    TidyParts (xs.flatMap parts) (drawn t) := by
  induction items generalizing a xs t with
  | nil =>
    obtain ⟨rfl, _, _⟩ := yields_pure.mp hy
    exact .nil
  | cons item rest ih =>
    obtain ⟨x, ys, mid, t₁, t₂, hx, hys, rfl, rfl⟩ := exists_of_each_cons hy
    rw [List.forall_mem_cons] at h
    rw [List.flatMap_cons, drawn_append, drawn_append, drawn_empty, List.append_nil]
    exact (h.1 hx).append (ih h.2 hys)

variable {ctx : Context}

theorem logBody_tidyParts (hl : ctx.layout.Literal) {spans : List Span} {entry : String}
    {body : List Stmt} (hv : ∀ x ∈ Source.bodyVars body, ¬ IsTemporary x)
    {own : List Source.Decl} (ho : ∀ d ∈ own, ¬ IsTemporary d.name) {ds : List Decl}
    {blocks : List Block} {a b : Names} {t : List Event}
    (h : (logBody spans ctx entry body).Yields a (ds, blocks) b t) :
    TidyParts [⟨ds ++ own.map .ofSource, blocks⟩] (drawn t) := by
  have hn := logBody_names h
  obtain ⟨steps, hy, rfl⟩ := Lower.yields_mapTrail.mp h
  obtain ⟨f, u, hb, rfl, hd⟩ := buildBody_builds hy
  rw [Source.bodyVars, List.forall_mem_append] at hv
  have htemp : Part.temporaries ⟨ds ++ own.map .ofSource, f.toBlocks (a.fresh entry)⟩ =
      ds.map (·.name) := by
    have hds : (ds.map (·.name)).filter (IsTemporary ·) = ds.map (·.name) :=
      List.filter_eq_self.mpr fun name hm => decide_eq_true (hb.temporaries name hm)
    have hown : ((own.map Decl.ofSource).map (·.name)).filter (IsTemporary ·) = [] := by
      rw [List.filter_eq_nil_iff]
      intro name hm
      obtain ⟨d', hd', rfl⟩ := List.mem_map.mp hm
      obtain ⟨d, hd, rfl⟩ := List.mem_map.mp hd'
      exact fun ht => ho d hd (of_decide_eq_true ht)
    rw [Part.temporaries, List.map_append, List.filter_append, hds, hown, List.append_nil]
  obtain ⟨hset, hplace⟩ := hb.orderly hl hv.2
  refine .single ⟨?_, ?_, hset.toBlocks _⟩ ?_
  · rw [htemp, Fragment.instrs_toBlocks]
    exact hb.assigned hv.1
  · intro d hd ht
    rcases List.mem_append.mp hd with hd | hd
    · exact hplace d hd
    · obtain ⟨d', hd', rfl⟩ := List.mem_map.mp hd
      exact absurd ht (ho d' hd')
  · rw [htemp]
    exact (List.sublist_append_right _ _).subperm.trans hn.subperm

theorem flattenFunction_tidyParts (hl : ctx.layout.Literal) {spans : List Span}
    {f : Source.Function} (hv : ∀ x ∈ f.variables, ¬ IsTemporary x) {g : Flat.Function}
    {a b : Names} {t : List Event} (h : (flattenFunction ctx spans f).Yields a g b t) :
    TidyParts [g.part] (drawn t) := by
  obtain ⟨ds, blocks, t', hb, hdrawn, rfl⟩ := flattenFunction_cases h
  simp only [Source.Function.variables, List.forall_mem_append, List.forall_mem_map] at hv
  rw [hdrawn]
  exact logBody_tidyParts hl hv.2 hv.1.2 hb

theorem flattenClass_tidyParts (hl : ctx.layout.Literal) {c : Source.Class}
    (hv : ∀ x ∈ c.variables, ¬ IsTemporary x) {d : Flat.Class} {a b : Names} {t : List Event}
    (h : (flattenClass ctx c).Yields a d b t) :
    TidyParts (d.methods.map Flat.Function.part) (drawn t) := by
  obtain ⟨methods, hm, rfl⟩ := flattenClass_parts h
  rw [List.map_eq_flatMap]
  refine Lower.each_tidyParts (fun f hf => ?_) hm
  refine flattenFunction_tidyParts hl fun x hx => hv x ?_
  exact List.mem_flatMap.mpr ⟨f, hf, hx⟩

theorem flattenProgram_tidyParts (hl : ctx.layout.Literal) {p : Source.Program}
    (hv : ∀ x ∈ p.variables, ¬ IsTemporary x) {q : Flat.Program} {a b : Names} {t : List Event}
    (h : (flattenProgram ctx p).Yields a q b t) : TidyParts q.parts (drawn t) := by
  obtain ⟨ds, body, functions, classes, _, _, t₁, t₂, t₃, hb, hf, hc, hdrawn, rfl⟩ :=
    flattenProgram_cases h
  simp only [Source.Program.variables, List.forall_mem_append, List.forall_mem_map] at hv
  obtain ⟨⟨⟨hglobals, hbody⟩, hfunctions⟩, hclasses⟩ := hv
  have hf : TidyParts (functions.map Flat.Function.part) (drawn t₂) := by
    rw [List.map_eq_flatMap]
    exact Lower.each_tidyParts (fun f hf => flattenFunction_tidyParts hl fun x hx =>
      hfunctions x (List.mem_flatMap.mpr ⟨f, hf, hx⟩)) hf
  have hc := Lower.each_tidyParts (fun c hc => flattenClass_tidyParts hl fun x hx =>
    hclasses x (List.mem_flatMap.mpr ⟨c, hc, hx⟩)) hc
  rw [hdrawn]
  exact ((logBody_tidyParts hl hbody hglobals hb).append hf).append hc

/-- Temporaries of a lowered program are assigned once, and block by block: one body declares
the temporary, as a placeholder, one instruction of it assigns the temporary, and all others that
use it come later in the same block. So the placeholders are never seen: runs of a body from
states that differ in its temporaries only do not differ in anything else. -/
theorem temporaries_assigned_once {ctx : Context} {p : Source.Program} {names : Names}
    {q : Flat.Program} (hl : ctx.layout.Literal) (hv : ∀ x ∈ p.variables, ¬ IsTemporary x)
    (h : (flattenProgram ctx p names).result = .ok q) :
    (∀ t, IsTemporary t → (∃ part ∈ q.parts, part.Mentions t) → q.AssignsOnce t) ∧
    ∀ part ∈ q.parts, ∀ {V H : Type} (m : Runtime V H) (s s' : State V H),
      s.Agrees part.temporaries s' → ∀ n,
        ((step m part.body)^[n] (.running 0 0 s)).Agrees part.temporaries
          ((step m part.body)^[n] (.running 0 0 s')) := by
  have hy := Lower.yields_of_result h
  have hp := flattenProgram_tidyParts hl hv hy
  have hdraws := ((composed_flattenProgram p).supplied fun _ _ => LogStep.supplied).draws hy
  have hn : (q.parts.flatMap Part.temporaries).Nodup := by
    obtain ⟨l, hperm, hsub⟩ := hp.temporaries
    exact hperm.nodup_iff.mp (hsub.nodup hdraws.nodup)
  constructor
  · rintro t ht ⟨part, hpart, hm⟩
    have hmem := (hp.tidy part hpart).mem_of_mentions ht hm
    obtain ⟨before, part, after, he, hmem, hother⟩ :=
      exists_split_of_nodup hn (List.mem_flatMap.mpr ⟨part, hpart, hmem⟩)
    have htidy : ∀ part' ∈ before ++ part :: after, part'.Tidy := he ▸ hp.tidy
    have hpart := htidy part (by simp)
    have hnp := (List.nodup_flatMap.mp hn).1 part (he ▸ by simp)
    refine ⟨before, part, after, he, hpart.declaresOnce ht hnp hmem,
      hpart.assignsOnce ht hnp hmem, fun other ho hm => hother other ho ?_⟩
    refine (htidy other ?_).mem_of_mentions ht hm
    rcases List.mem_append.mp ho with ho | ho <;> simp [ho]
  · intro part hpart V H m s s' hs n
    refine runs_agree (hp.tidy part hpart).settled (fun x hx => ?_) hs n
    exact of_decide_eq_true (List.mem_filter.mp hx).2

/-- Adds to a total, as long as it is small, what a function finds in a list, and keeps it in an
object. -/
def Source.tally : Source.Program :=
  let number : Source.Note := ⟨.number, {}⟩
  let list : Source.Note := ⟨.list .number, {}⟩
  let cell : Source.Note := ⟨.object "Cell", {}⟩
  let total : Source.Expr := .var number "total"
  { globals := [⟨"total", .number, .num 0, {}⟩]
    functions := [{
      name := "first", params := [⟨"xs", .list .number⟩], ret := .number, locals := [], loc := {}
      body := [.ret number (.index number (.var list "xs") (.literal number (.num 0)))] }]
    classes := [{
      name := "Cell", fields := [⟨"value", .number, .num 0, {}⟩], loc := {}
      methods := [{
        name := "put", params := [⟨"self", .object "Cell"⟩, ⟨"value", .number⟩], ret := .none
        locals := [], loc := {}
        body := [.assignField number (.var cell "self") "value"
          (.binary number .plus (.var number "value") (.literal number (.num 1)))] }] }]
    body := [.whileLoop number (.binary number .lt total (.literal number (.num 9)))
      [.assign number "total" (.binary number .plus total
        (.call number "first" [.listLiteral list [.unary number .neg total]])),
      .eval number (.methodCall number (.construct cell "Cell") "put" [total])]] }

theorem temporaries_assigned_once_tally :
    (Layout.ofClasses Source.tally.classes).Literal ∧
    (∀ x ∈ Source.tally.variables, ¬ IsTemporary x) ∧
    ∃ q, (flattenProgram ⟨.ofClasses Source.tally.classes, {}⟩ Source.tally {}).result = .ok q ∧
      ∀ t ∈ ["valname1", "valname5", "newList1", "newObj1", "listlength1", "offsetname1"],
        (∃ part ∈ q.parts, part.Mentions t) ∧ q.AssignsOnce t := by
  have hl := Layout.literal_ofClasses Source.tally.classes
  have hv : ∀ x ∈ Source.tally.variables, ¬ IsTemporary x := by decide
  have hm : ∀ q ∈ (flattenProgram ⟨.ofClasses Source.tally.classes, {}⟩ Source.tally
      {}).result.toOption, ∀ t ∈ ["valname1", "valname5", "newList1", "newObj1", "listlength1",
        "offsetname1"], IsTemporary t ∧ ∃ part ∈ q.parts, part.Mentions t := by
    decide +kernel
  have hok : (flattenProgram ⟨.ofClasses Source.tally.classes, {}⟩ Source.tally
      {}).result.isOk = true := by decide +kernel
  cases hq : (flattenProgram ⟨.ofClasses Source.tally.classes, {}⟩ Source.tally {}).result with
  | error f => simp [hq, Except.isOk, Except.toBool] at hok
  | ok q =>
    refine ⟨hl, hv, q, rfl, fun t ht => ?_⟩
    obtain ⟨htemp, hpart⟩ := hm q (by rw [hq]; rfl) t ht
    exact ⟨hpart, (temporaries_assigned_once hl hv hq).1 t htemp hpart⟩

end BlockLowering
