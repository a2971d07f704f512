import BlockLowering.Proofs.FirstFault
import BlockLowering.Proofs.RuntimeGuards
import BlockLowering.Proofs.StatementMeaning

/-! What a flattened expression computes, whether it is flattened to one operation or down to an
operand. Its code goes on to the end or traps, and no variables change but the temporaries it
declares; what is then read is the value and the memory of the source expression. -/

namespace BlockLowering

open Source (Expr)
open Flat (Operand Rhs Instr follow)

variable {V H : Type} {m : Runtime V H} {ctx : Context}

/-- The outcome of `r` after the code of `p`, run from `s`: nothing where one of the two traps. The
code may change the variables that `p` declares. -/
inductive Computes (m : Runtime V H) (p : Prelude) (r : Rhs) (s : State V H) :
    Option (V × H) → Prop
  | trapped : follow m p.code s = .stop .trapped → Computes m p r s none
  | done {s' : State V H} : follow m p.code s = .next s' →
      SameOff (p.decls.map (·.name)) s.env s'.env → Computes m p r s (r.value m s')

theorem Computes.unique {p : Prelude} {r : Rhs} {s : State V H} {o o' : Option (V × H)}
    (h : Computes m p r s o) (h' : Computes m p r s o') : o = o' := by
  cases h with
  | trapped hcode =>
    cases h' with
    | trapped _ => rfl
    | done hcode' _ => cases hcode.symm.trans hcode'
  | done hcode _ =>
    cases h' with
    | trapped hcode' => cases hcode.symm.trans hcode'
    | done hcode' _ =>
      cases hcode.symm.trans hcode'
      rfl

theorem Prelude.Declares.computes_iff {p : Prelude} {t : List String} (hp : p.Declares t)
    (r : Rhs) (s : State V H) (o : Option (V × H)) :
    Computes m p r s o ↔ o = (runCode m p.code s).bind fun s' => r.value m s' := by
  have hrun : Computes m p r s ((runCode m p.code s).bind fun s' => r.value m s') := by
    have hfollow := follow_plain (m := m) hp.plain s
    cases hs : runCode m p.code s with
    | none =>
      rw [hs] at hfollow
      exact .trapped hfollow
    | some s' =>
      rw [hs] at hfollow
      exact .done hfollow (hp.decls ▸ hp.sameOff hs)
  constructor
  · exact fun h => h.unique hrun
  · rintro rfl
    exact hrun

/-- The code of `p` and then `r` come to what `e` evaluates to, on every runtime and from every
state; and the code assigns what `p` declares, in the same order and nothing else. -/
structure StandsFor (ctx : Context) (e : Expr) (p : Prelude) (r : Rhs) : Prop where
  assigned : p.code.filterMap Instr.assigned? = p.decls.map (·.name)
  computes_iff : ∀ {V H : Type} (m : Runtime V H) (s : State V H) (o : Option (V × H)),
    Computes m p r s o ↔ o = e.eval m ctx s.env s.heap

theorem Prelude.Declares.standsFor {p : Prelude} {t : List String} (hp : p.Declares t) {e : Expr}
    {r : Rhs} (h : ∀ {V H : Type} (m : Runtime V H) (s : State V H),
      ((runCode m p.code s).bind fun s' => r.value m s') = e.eval m ctx s.env s.heap) :
    StandsFor ctx e p r := by
  refine ⟨by rw [hp.assigned, hp.decls], fun m s o => ?_⟩
  rw [hp.computes_iff, h]

theorem Flattens.standsFor (hl : ctx.layout.Literal) {a b : Names} {e : Expr}
    {x : WithPrelude Rhs} {t : List String} (h : Flattens ctx a e x b t)
    (hv : ∀ y ∈ e.vars, ¬ IsTemporary y) : StandsFor ctx e x.prelude x.value :=
  h.declares.standsFor fun _ _ => h.meaning hl fun y hy => ⟨hv y hy, rfl⟩

theorem FlattensOperand.standsFor (hl : ctx.layout.Literal) {a b : Names} {e : Expr}
    {x : WithPrelude Operand} {t : List String} (h : FlattensOperand ctx a e x b t)
    (hv : ∀ y ∈ e.vars, ¬ IsTemporary y) : StandsFor ctx e x.prelude (.operand x.value) := by
  refine h.declares.standsFor fun m s => ?_
  have hs : Holds e.vars s.env s := fun y hy => ⟨hv y hy, rfl⟩
  rw [← h.meaning hl hs, Option.map_eq_bind]
  rfl

/-- Flattening keeps the meaning of an expression, both to an operation and to an operand. The two
succeed on the same expressions, from whatever names, and what they give comes to the same. -/
theorem flattening_preserves_value (hl : ctx.layout.Literal) {e : Expr}
    (hv : ∀ y ∈ e.vars, ¬ IsTemporary y) :
    (∀ names x, (flatten ctx e names).result = .ok x → StandsFor ctx e x.prelude x.value) ∧
    (∀ names y, (flattenOperand ctx e names).result = .ok y →
      StandsFor ctx e y.prelude (.operand y.value)) ∧
    ∀ names names', ((∃ x, (flatten ctx e names).result = .ok x) ↔
        ∃ y, (flattenOperand ctx e names').result = .ok y) ∧
      ∀ x y, (flatten ctx e names).result = .ok x →
        (flattenOperand ctx e names').result = .ok y →
        ∀ {V H : Type} (m : Runtime V H) (s : State V H) (o : Option (V × H)),
          Computes m x.prelude x.value s o ↔ Computes m y.prelude (.operand y.value) s o := by
  have hflat : ∀ names x, (flatten ctx e names).result = .ok x →
      StandsFor ctx e x.prelude x.value := fun names x hx =>
    (flatten_flattens (Lower.yields_of_result hx)).standsFor hl hv
  have hoperand : ∀ names y, (flattenOperand ctx e names).result = .ok y →
      StandsFor ctx e y.prelude (.operand y.value) := fun names y hy =>
    (flattenOperand_flattens (Lower.yields_of_result hy)).standsFor hl hv
  refine ⟨hflat, hoperand, fun names names' => ⟨?_, fun x y hx hy V H m s o => ?_⟩⟩
  · have hx : Judged (flatten ctx e names).result (e.faults ctx.layout).head? :=
      meets_flatten e names
    have hy : Judged (flattenOperand ctx e names').result (e.faults ctx.layout).head? :=
      meets_flattenOperand e names'
    exact hx.ok_iff.trans hy.ok_iff.symm
  · rw [(hflat names x hx).computes_iff, (hoperand names' y hy).computes_iff]

/-- `[-x, 4][n]` -/
def Source.pickFromPair : Expr :=
  let number : Note := ⟨.number, {}⟩
  .index number
    (.listLiteral ⟨.list .number, {}⟩
      [.unary number .neg (.var number "x"), .literal number (.num 4)])
    (.var number "n")

/-- The second element is found, and there is no sixth one. -/
theorem pickFromPair_preserves_value :
    let ctx : Context := ⟨.ofClasses [], {}⟩
    let start (n : Int) : State (Option Int) (List (Option Int)) :=
      ⟨fun name => if name = "n" then some n else some 7, [none, none, none]⟩
    ctx.layout.Literal ∧ (∀ y ∈ Source.pickFromPair.vars, ¬ IsTemporary y) ∧
    ∃ x y, (flatten ctx Source.pickFromPair {}).result = .ok x ∧
      (flattenOperand ctx Source.pickFromPair {}).result = .ok y ∧
      Computes .oneList x.prelude x.value (start 1) (some (some 4, [some 2, some 7, some 4])) ∧
      Computes .oneList y.prelude (.operand y.value) (start 1)
        (some (some 4, [some 2, some 7, some 4])) ∧
      Computes .oneList x.prelude x.value (start 5) none ∧
      Computes .oneList y.prelude (.operand y.value) (start 5) none := by
  intro ctx start
  have hl : ctx.layout.Literal := Layout.literal_ofClasses []
  have hv : ∀ y ∈ Source.pickFromPair.vars, ¬ IsTemporary y := by decide
  obtain ⟨hflat, hoperand, -⟩ := flattening_preserves_value hl hv
  refine ⟨hl, hv, _, _, rfl, rfl, ?_⟩
  have hx := (hflat {} _ rfl).computes_iff .oneList
  have hy := (hoperand {} _ rfl).computes_iff .oneList
  exact ⟨(hx _ _).mpr rfl, (hy _ _).mpr rfl, (hx _ _).mpr rfl, (hy _ _).mpr rfl⟩

end BlockLowering
