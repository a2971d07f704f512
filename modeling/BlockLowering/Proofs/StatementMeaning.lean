import BlockLowering.Proofs.ExpressionMeaning
import BlockLowering.Proofs.LoweredNames
import BlockLowering.Proofs.MachineRuns

/-! Lowered statements mean what their sources mean. The instructions of a plain statement, run on
a state that agrees with the source state but for temporaries, end as the statement does: control
goes on, returns a value or traps, and the states still agree. -/

namespace BlockLowering

open Source (Expr Stmt)
open Flat (Operand Rhs Instr Move follow)

variable {V H : Type} {m : Runtime V H} {ctx : Context}

/-- Two states have the same memory and differ in no variables but those named. -/
structure State.Agrees (t : List String) (s s' : State V H) : Prop where
  heap : s'.heap = s.heap
  env : SameOff t s.env s'.env

def Ending.Agrees (t : List String) : Ending V H → Ending V H → Prop
  | .finished s, .finished s' => s.Agrees t s'
  | .returned v s, .returned v' s' => v' = v ∧ s.Agrees t s'
  | .trapped, .trapped => True
  | _, _ => False

theorem State.Agrees.refl (t : List String) (s : State V H) : s.Agrees t s := ⟨rfl, .refl t s.env⟩

theorem State.Agrees.holds {t vars : List String} {s s' : State V H} (h : s.Agrees t s')
    (ht : ∀ name ∈ t, IsTemporary name) (hv : ∀ x ∈ vars, ¬ IsTemporary x) :
    Holds vars s.env s' :=
  fun x hx => ⟨hv x hx, h.env x fun hm => hv x hx (ht x hm)⟩

theorem SameOff.assign {t : List String} {s s' : State V H} (h : SameOff t s.env s'.env)
    (name : String) (v : V) (heap : H) :
    (s.assign name v heap).Agrees t (s'.assign name v heap) := by
  refine ⟨rfl, fun x hx => ?_⟩
  by_cases he : x = name
  · subst he
    simp
  · rw [s.assign_env_of_ne he, s'.assign_env_of_ne he]
    exact h x hx

theorem perform_plain {i : Instr} (hp : i.isTransfer = false) (s : State V H) :
    (∃ t, i.perform m s = .next t) ∨ i.perform m s = .stop .trapped := by
  cases i with
  | assign name r =>
    cases hr : r.value m s with
    | none => simp [Instr.perform, hr]
    | some p => simp [Instr.perform, hr]
  | eval r =>
    cases hr : r.value m s with
    | none => simp [Instr.perform, hr]
    | some p => simp [Instr.perform, hr]
  | store base offset value =>
    cases hs : m.store (base.value m s.env) (offset.value m s.env) (value.value m s.env) s.heap with
    | none => simp [Instr.perform, hs]
    | some heap => simp [Instr.perform, hs]
  | ret v => cases hp
  | jump label => cases hp
  | branch cond a b => cases hp

theorem follow_plain {code : List Instr} (hp : ∀ i ∈ code, i.isTransfer = false) (s : State V H) :
    follow m code s = ((runCode m code s).map Move.next).getD (.stop .trapped) := by
  induction code generalizing s with
  | nil => rfl
  | cons i rest ih =>
    have hr := ih fun j hj => hp j (List.mem_cons_of_mem _ hj)
    rcases perform_plain (m := m) (hp i List.mem_cons_self) s with ⟨t, hi⟩ | hi
    · simpa only [follow, runCode, hi] using hr t
    · simp only [follow, runCode, hi, Option.map_none, Option.getD_none]

theorem follow_last {code : List Instr} (hp : ∀ i ∈ code, i.isTransfer = false) (last : Instr)
    (s : State V H) :
    follow m (code ++ [last]) s =
      ((runCode m code s).map (last.perform m)).getD (.stop .trapped) := by
  have hlast : ∀ t, follow m [last] t = last.perform m t := fun t => by
    cases h : last.perform m t <;> simp only [follow, h]
  rw [Flat.follow_append, follow_plain hp]
  cases runCode m code s with
  | none => rfl
  | some t => exact hlast t

/-- Instructions move as a statement ends. -/
def Ending.Met (t : List String) : Ending V H → Move V H → Prop
  | .finished s, .next s' => s.Agrees t s'
  | .returned v s, .stop (.returned v' s') => v' = v ∧ s.Agrees t s'
  | .trapped, .stop .trapped => True
  | _, _ => False

variable {t : List String} {σ s : State V H}

theorem met_last {p : Prelude} {u : List String} (hp : p.Declares u) (hu : u ⊆ t)
    (h : σ.Agrees t s) {last : Instr} {g : State V H → Option (Ending V H)}
    (hg : ∀ s', SameOff t σ.env s'.env → ((g s').getD .trapped).Met t (last.perform m s')) :
    (((runCode m p.code s).bind g).getD .trapped).Met t (follow m (p.code ++ [last]) s) := by
  rw [follow_last hp.plain]
  cases hrun : runCode m p.code s with
  | none => trivial
  | some s' => exact hg s' (h.env.trans ((hp.sameOff hrun).mono hu))

theorem met_store (m : Runtime V H) (base offset value : Operand) {s' : State V H}
    (h : SameOff t σ.env s'.env) :
    Ending.Met t (((m.store (base.value m s'.env) (offset.value m s'.env) (value.value m s'.env)
      s'.heap).bind fun heap => some (Ending.finished ⟨σ.env, heap⟩)).getD .trapped)
      (Instr.perform m s' (.store base offset value)) := by
  simp only [Instr.perform]
  cases m.store (base.value m s'.env) (offset.value m s'.env) (value.value m s'.env) s'.heap with
  | none => trivial
  | some heap => exact ⟨rfl, h⟩

/-- The operands of an assignment to an element, with the offset computed last. -/
theorem elementOperands_meaning (hl : ctx.layout.Literal) {a b c d : Names}
    {receiver index value : Expr} {x i y : WithPrelude Operand} {tx ti ty : List String}
    {env : String → V} (hx : FlattensOperand ctx a receiver x b tx)
    (hi : FlattensOperand ctx b index i c ti) (hy : FlattensOperand ctx c value y d ty)
    (hv : Holds (receiver.vars ++ (index.vars ++ value.vars)) env s) :
    (runCode m (x.prelude ++ i.prelude ++ y.prelude ++ guardedOffset ctx (d.fresh Base.length)
        ((d.advance Base.length).fresh Base.offset) i.value x.value).code s).map
      (fun s' => ((((x.value.value m s'.env, i.value.value m s'.env), y.value.value m s'.env),
        s'.env ((d.advance Base.length).fresh Base.offset)), s'.heap)) = (do
      let (v, heap) ← receiver.eval m ctx env s.heap
      let (j, heap) ← index.eval m ctx env heap
      let (w, heap) ← value.eval m ctx env heap
      let (offset, heap) ← Source.elementOffset m ctx v j heap
      some ((((v, j), w), offset), heap)) := by
  have hvx : Holds receiver.vars env s := hv.mono (by simp)
  have hvi : Holds index.vars env s := hv.mono (by simp)
  have hvy : Holds value.vars env s := hv.mono (by simp)
  have hd := draws_elementOffset d
  have hty := List.forall_mem_append.mpr ⟨hy.temporaries, temporaries_elementOffset d⟩
  have hxa := (hx.avoids hvx (hi.draws.trans (hy.draws.trans hd))
    (List.forall_mem_append.mpr ⟨hi.temporaries, hty⟩)).mono (List.subset_append_right _ _)
  have hia := hi.avoids hvi (hy.draws.trans hd) hty
  have hya := hy.avoids hvy hd (temporaries_elementOffset d)
  have hxi := hx.declares.append hi.declares
  have hpair := operands_meaning (m := m) hx hi (hv.mono (by simp)) (fun _ => hx.meaning hl)
    (fun _ => hi.meaning hl)
  have hthree := runCode_both (y := fun _ => value.eval m ctx env) hpair
    (fun s' hrun => hy.meaning hl (hvy.of_sameOff
      (List.forall_mem_append.mpr ⟨hx.temporaries, hi.temporaries⟩) (hxi.sameOff hrun)))
    (fun s' s'' _ hrun => Prod.ext
      ((hxa.mono (List.subset_append_left _ _)).value_eq (hy.declares.sameOff hrun))
      ((hia.mono (List.subset_append_left _ _)).value_eq (hy.declares.sameOff hrun)))
  have hall := guardedOffset_after ctx (fun p : (V × V) × V => p.1.1) (fun p => p.1.2) hthree
    (fun _ => rfl) (fun _ => rfl) (hia _ (List.mem_append_right _ List.mem_cons_self))
    (fun _ _ hs => Prod.ext (Prod.ext
      ((hxa.mono (List.subset_append_right _ _)).value_eq hs)
      ((hia.mono (List.subset_append_right _ _)).value_eq hs)) (hya.value_eq hs))
  simp only [Option.bind_eq_bind, Option.bind_assoc, Option.bind_some] at hall ⊢
  exact hall

theorem FlattensStmt.meaning (hl : ctx.layout.Literal) {a b : Names} {stmt : Stmt} {p : Prelude}
    {u : List String} (h : FlattensStmt ctx a stmt p b u) (hu : u ⊆ t)
    (ht : ∀ name ∈ t, IsTemporary name) (hv : ∀ x ∈ Expr.allVars stmt.exprs, ¬ IsTemporary x)
    (hs : σ.Agrees t s) :
    ((stmt.perform m ctx σ).getD .trapped).Met t (follow m p.code s) := by
  have hvars := hs.holds ht hv
  cases h with
  | assign h =>
    have hm := h.meaning (m := m) hl (hvars.mono (by simp [Stmt.exprs]))
    rw [Stmt.perform, ← hs.heap, ← hm, Option.bind_eq_bind, Option.bind_assoc]
    refine met_last h.declares hu hs fun s' henv => ?_
    simp only [Instr.perform]
    cases Rhs.value m s' _ with
    | none => trivial
    | some r => exact henv.assign _ r.1 r.2
  | eval h =>
    have hm := h.meaning (m := m) hl (hvars.mono (by simp [Stmt.exprs]))
    rw [Stmt.perform, ← hs.heap, ← hm, Option.bind_eq_bind, Option.bind_assoc]
    refine met_last h.declares hu hs fun s' henv => ?_
    simp only [Instr.perform]
    cases Rhs.value m s' _ with
    | none => trivial
    | some r => exact ⟨rfl, henv⟩
  | ret h =>
    have hm := h.meaning (m := m) hl (hvars.mono (by simp [Stmt.exprs]))
    rw [Stmt.perform, ← hs.heap, ← hm, Option.bind_eq_bind, Option.bind_map]
    exact met_last h.declares hu hs fun s' henv => ⟨rfl, rfl, henv⟩
  | pass => exact hs
  | assignField hf hx hy =>
    have hb := operands_meaning (m := m) hx hy (hvars.mono (by simp [Stmt.exprs]))
      (fun _ => hx.meaning hl) (fun _ => hy.meaning hl)
    rename_i slot x y
    have hr := runCode_use hb fun p heap => (m.store p.1 (m.word slot.offset) p.2 heap).bind
      fun heap => some (Ending.finished ⟨σ.env, heap⟩)
    have hlast := met_last (hx.declares.append hy.declares) hu hs
      fun s' henv => met_store m x.value (.word slot.offset) y.value henv
    simp only [Option.bind_eq_bind, Option.bind_assoc, Option.bind_some] at hr
    simp only [Operand.value_word, hr] at hlast
    simp only [Stmt.perform, hf, ← hs.heap, Option.bind_eq_bind, Option.bind_some]
    exact hlast
  | assignIndex hx hi hy =>
    rename_i b c d tx ti ty note receiver index value x i y
    have hall := elementOperands_meaning (m := m) hl hx hi hy (hvars.mono (by simp [Stmt.exprs]))
    have hr := runCode_use hall fun p heap => (m.store p.1.1.1 p.2 p.1.2 heap).bind
      fun heap => some (Ending.finished ⟨σ.env, heap⟩)
    have hlast := met_last (((hx.declares.append hi.declares).append hy.declares).append
      (.guardedOffset ctx _ _ i.value x.value)) hu hs
      fun s' henv => met_store m x.value (.var ((d.advance Base.length).fresh Base.offset)) y.value
        henv
    simp only [Option.bind_eq_bind, Option.bind_assoc, Option.bind_some] at hr
    simp only [Operand.value_var, hr] at hlast
    simp only [Stmt.perform, ← hs.heap, Option.bind_eq_bind]
    exact hlast

end BlockLowering
