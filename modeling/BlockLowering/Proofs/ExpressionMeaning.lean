import BlockLowering.Proofs.FlattenedNames
import BlockLowering.Proofs.LiteralLayouts
import BlockLowering.Proofs.SourceMeaning

/-! Flattened expressions mean what their sources mean. Running what comes before a flattened
expression, and then the expression, gives the value and the memory that the source expression
has in the variables as they were at the start, and traps exactly when it does. -/

namespace BlockLowering

open Source (Expr)
open Flat (Operand Rhs Instr Move)

variable {V H : Type} {m : Runtime V H} {ctx : Context}

/-- Runs instructions in which control does not leave; nothing if one of them traps. -/
def runCode (m : Runtime V H) : List Instr → State V H → Option (State V H)
  | [], s => some s
  | i :: rest, s =>
    match i.perform m s with
    | .next t => runCode m rest t
    | _ => none

theorem runCode_append (code more : List Instr) (s : State V H) :
    runCode m (code ++ more) s = (runCode m code s).bind (runCode m more) := by
  induction code generalizing s with
  | nil => rfl
  | cons i rest ih =>
    simp only [List.cons_append, runCode]
    cases i.perform m s with
    | next t => exact ih t
    | goto label t => rfl
    | stop e => rfl

theorem runCode_assign (name : String) (r : Rhs) (s : State V H) :
    runCode m [.assign name r] s = (r.value m s).map fun (v, heap) => s.assign name v heap := by
  cases hr : r.value m s <;> simp [runCode, Instr.perform, hr]

theorem runCode_eval (r : Rhs) (s : State V H) :
    runCode m [.eval r] s = (r.value m s).map fun (_, heap) => { s with heap := heap } := by
  cases hr : r.value m s <;> simp [runCode, Instr.perform, hr]

theorem runCode_store (base offset value : Operand) (s : State V H) :
    runCode m [.store base offset value] s =
      (m.store (base.value m s.env) (offset.value m s.env) (value.value m s.env) s.heap).map
        fun heap => { s with heap := heap } := by
  cases hs : m.store (base.value m s.env) (offset.value m s.env) (value.value m s.env) s.heap <;>
    simp [runCode, Instr.perform, hs]

/-- Two environments that differ at most in the names of `t`. -/
def SameOff (t : List String) (env env' : String → V) : Prop := ∀ name, name ∉ t → env' name = env name

theorem SameOff.refl (t : List String) (env : String → V) : SameOff t env env := fun _ _ => rfl

theorem SameOff.trans {t : List String} {e₁ e₂ e₃ : String → V} (h : SameOff t e₁ e₂)
    (h' : SameOff t e₂ e₃) : SameOff t e₁ e₃ :=
  fun name hn => (h' name hn).trans (h name hn)

theorem SameOff.mono {t u : List String} {env env' : String → V} (h : SameOff t env env')
    (hs : t ⊆ u) : SameOff u env env' :=
  fun name hn => h name fun ht => hn (hs ht)

theorem Instr.perform_next_env {i : Instr} {s t : State V H} (h : i.perform m s = .next t) :
    SameOff i.assigned?.toList s.env t.env := by
  intro name hn
  cases i with
  | assign x r =>
    simp only [Instr.perform] at h
    split at h
    · cases h
      exact s.assign_env_of_ne (by simpa [Instr.assigned?] using hn) _ _
    · cases h
  | eval r =>
    simp only [Instr.perform] at h
    split at h <;> cases h
    rfl
  | store base offset value =>
    simp only [Instr.perform] at h
    split at h <;> cases h
    rfl
  | ret v => cases h
  | jump label => cases h
  | branch cond a b =>
    simp only [Instr.perform] at h
    split at h <;> cases h

theorem runCode_env {code : List Instr} {s t : State V H} (h : runCode m code s = some t) :
    SameOff (code.filterMap Instr.assigned?) s.env t.env := by
  induction code generalizing s with
  | nil =>
    cases h
    exact .refl _ _
  | cons i rest ih =>
    simp only [runCode] at h
    split at h
    · rename_i u hu
      have hi := Instr.perform_next_env hu
      have hr := ih h
      refine (hi.mono ?_).trans (hr.mono ?_)
      · intro name hn
        simp_all
      · intro name hn
        simp_all
    · cases h

theorem Flat.Operand.value_congr {v : Operand} {env env' : String → V}
    (h : ∀ name, v = .var name → env' name = env name) : v.value m env' = v.value m env := by
  cases v with
  | var name => exact h name rfl
  | _ => rfl

/-- The state holds the values of `env` in the given variables, none of which is a temporary. -/
def Holds (vars : List String) (env : String → V) (s : State V H) : Prop :=
  ∀ v ∈ vars, ¬ IsTemporary v ∧ s.env v = env v

theorem Holds.mono {vars more : List String} {env : String → V} {s : State V H}
    (h : Holds more env s) (hs : vars ⊆ more) : Holds vars env s :=
  fun v hv => h v (hs hv)

theorem Holds.of_sameOff {vars t : List String} {env : String → V} {s s' : State V H}
    (h : Holds vars env s) (ht : ∀ name ∈ t, IsTemporary name)
    (hs : SameOff t s.env s'.env) : Holds vars env s' := by
  intro v hv
  have hn : v ∉ t := fun hm => (h v hv).1 (ht v hm)
  exact ⟨(h v hv).1, (hs v hn).trans (h v hv).2⟩

/-- The operand is none of the given variables. -/
def Flat.Operand.Avoids (v : Operand) (names : List String) : Prop := ∀ name ∈ names, v ≠ .var name

theorem Flat.Operand.Avoids.mono {v : Operand} {t u : List String} (h : v.Avoids u) (hs : t ⊆ u) :
    v.Avoids t :=
  fun name hn => h name (hs hn)

theorem Flat.Operand.Avoids.value_eq {v : Operand} {t : List String} {env env' : String → V}
    (h : v.Avoids t) (hs : SameOff t env env') : v.value m env' = v.value m env :=
  Flat.Operand.value_congr fun name hv => hs name fun hn => h name hn hv

theorem FlattensOperand.avoids {a b c : Names} {e : Expr} {x : WithPrelude Operand}
    {t u : List String} (h : FlattensOperand ctx a e x b t) {env : String → V} {s : State V H}
    (hv : Holds e.vars env s) (hd : Draws b c u) (hu : ∀ name ∈ u, IsTemporary name) :
    x.value.Avoids u := by
  intro name hn hx
  rcases h.operand_mem hx with hm | hm
  · exact (hv name hm).1 (hu name hn)
  · exact h.draws.disjoint hd hm hn

theorem runCode_stores (env : String → V) {object : V} {name : String} {slots : List Slot}
    {s : State V H} (ho : s.env name = object)
    (hl : ∀ slot ∈ slots, slot.initial.varName? = none) :
    runCode m (slots.map fun slot => .store (.var name) (.word slot.offset) slot.initial) s =
      (Source.fillFields m env object slots s.heap).map fun heap => { s with heap := heap } := by
  induction slots generalizing s with
  | nil => rfl
  | cons slot rest ih =>
    have hv : slot.initial.value m s.env = slot.initial.value m env :=
      Flat.Operand.value_congr fun x hx => by simp [hx, Operand.varName?] at hl
    have hstep := @runCode_store V H m (.var name) (.word slot.offset) slot.initial s
    rw [List.map_cons, ← List.singleton_append, runCode_append, hstep]
    simp only [Source.fillFields, Operand.value_var, Operand.value_word, ho, hv]
    cases hs : m.store object (m.word slot.offset) (slot.initial.value m env) s.heap with
    | none => rfl
    | some heap => exact @ih { s with heap := heap } ho fun x hx => hl x (by simp [hx])

theorem runCode_storeElements {list : V} {name : String} (offset : Nat) {values : List Operand}
    {s : State V H} (hn : s.env name = list) :
    runCode m (storeElements (.var name) offset values) s =
      (Source.fill m list offset (values.map (·.value m s.env)) s.heap).map
        fun heap => { s with heap := heap } := by
  induction values generalizing offset s with
  | nil => rfl
  | cons v rest ih =>
    have hstep := @runCode_store V H m (.var name) (.word (UInt32.ofNat offset)) v s
    rw [storeElements, ← List.singleton_append, runCode_append, hstep]
    simp only [Source.fill, Operand.value_var, Operand.value_word, hn, List.map_cons]
    cases hs : m.store list (m.word (UInt32.ofNat offset)) (v.value m s.env) s.heap with
    | none => rfl
    | some heap => exact @ih (offset + 1) { s with heap := heap } hn

/-- The guarded offset of an element, when the index is not kept in the name of the length. -/
theorem guardedOffset_meaning {length offset : String} {index list : Operand}
    (hi : index ≠ .var length) (s : State V H) :
    (runCode m (guardedOffset ctx length offset index list).code s).map
        (fun s' => (s'.env offset, s'.heap)) =
      Source.elementOffset m ctx (list.value m s.env) (index.value m s.env) s.heap := by
  have hv : ∀ (v : V) (heap : H),
      index.value m (s.assign length v heap).env = index.value m s.env := fun v heap =>
    Flat.Operand.value_congr fun name hx =>
      s.assign_env_of_ne (fun he => hi (by rw [hx, he])) v heap
  unfold guardedOffset Source.elementOffset
  simp only [Prelude.append_code, Prelude.temporary, Prelude.ofCode, helperCall, runCode_append,
    runCode_assign, Rhs.value, Operand.value_word]
  cases hlen : m.load (list.value m s.env) (m.word 0) s.heap with
  | none => rfl
  | some len =>
    simp only [Option.map_some, Option.bind_eq_bind, Option.bind_some, runCode_eval, Rhs.value,
      List.map_cons, List.map_nil, Operand.value_var, State.assign_env_self, State.assign_heap, hv]
    cases hc : m.call ctx.settings.boundsHelper [len, index.value m s.env] s.heap with
    | none => rfl
    | some r =>
      obtain ⟨w, heap⟩ := r
      simp only [Option.map_some, Option.bind_some, runCode_assign, Rhs.value, Operand.value_word, hv]
      cases m.binary .plus (index.value m s.env) (m.word 1) heap with
      | none => rfl
      | some r => simp

theorem newObject_meaning {note : Source.Note} {className name : String} {fields : ClassLayout}
    (hl : ∀ slot ∈ fields.values, slot.initial.varName? = none) (env : String → V)
    (s : State V H) :
    (runCode m (newObject ctx note className fields name).code s).map
        (fun s' => (s'.env name, s'.heap)) = (do
      let (v, heap) ← m.alloc (m.word (UInt32.ofNat fields.size)) s.heap
      let heap ← Source.fillFields m env v fields.values heap
      let (_, heap) ← m.call (ctx.settings.methodName className ctx.settings.initMethod) [v] heap
      some (v, heap)) := by
  unfold newObject
  simp only [Prelude.append_code, Prelude.temporary, Prelude.ofCode, helperCall, runCode_append,
    runCode_assign, Rhs.value, Operand.value_word]
  cases ha : m.alloc (m.word (UInt32.ofNat fields.size)) s.heap with
  | none => rfl
  | some r =>
    obtain ⟨v, heap⟩ := r
    simp only [Option.map_some, Option.bind_eq_bind, Option.bind_some]
    rw [runCode_stores env (s.assign_env_self name v heap) hl]
    cases hf : Source.fillFields m env v fields.values heap with
    | none => simp [hf]
    | some heap =>
      simp only [State.assign_heap, hf, Option.map_some, Option.bind_some, runCode_eval, Rhs.value,
        List.map_cons, List.map_nil, Operand.value_var, State.assign_env_self]
      cases m.call (ctx.settings.methodName className ctx.settings.initMethod) [v] heap with
      | none => rfl
      | some r => simp

theorem Prelude.Declares.sameOff {p : Prelude} {t : List String} (h : p.Declares t)
    {s s' : State V H} (hrun : runCode m p.code s = some s') : SameOff t s.env s'.env := by
  have he := runCode_env hrun
  rwa [h.assigned] at he

/-- Code that delivers a value, followed by code that delivers another and keeps the first. -/
theorem runCode_both {α β : Type} {code more : List Instr} {s : State V H}
    {f : State V H → α} {g : State V H → β} {x : Option (α × H)} {y : α → H → Option (β × H)}
    (hx : (runCode m code s).map (fun s' => (f s', s'.heap)) = x)
    (hy : ∀ s', runCode m code s = some s' →
      (runCode m more s').map (fun s' => (g s', s'.heap)) = y (f s') s'.heap)
    (hf : ∀ s' s'', runCode m code s = some s' → runCode m more s' = some s'' → f s'' = f s') :
    (runCode m (code ++ more) s).map (fun s' => ((f s', g s'), s'.heap)) = (do
      let (v, heap) ← x
      let (w, heap) ← y v heap
      some ((v, w), heap)) := by
  subst hx
  rw [runCode_append]
  cases hs : runCode m code s with
  | none => rfl
  | some s' =>
    simp only [Option.bind_some, Option.map_some, Option.bind_eq_bind, ← hy s' hs]
    cases ht : runCode m more s' with
    | none => rfl
    | some s'' => simp [hf s' s'' hs ht]

theorem runCode_use {α β : Type} {code : List Instr} {s : State V H} {f : State V H → α}
    {x : Option (α × H)} (h : (runCode m code s).map (fun s' => (f s', s'.heap)) = x)
    (k : α → H → Option β) :
    ((runCode m code s).bind fun s' => k (f s') s'.heap) = x.bind fun (v, heap) => k v heap := by
  subst h
  cases runCode m code s <;> rfl

theorem operands_meaning {a b c : Names} {l r : Expr} {x y : WithPrelude Operand}
    {t u : List String} {env : String → V} {s : State V H} (hx : FlattensOperand ctx a l x b t)
    (hy : FlattensOperand ctx b r y c u) (hv : Holds (l.vars ++ r.vars) env s)
    (ihx : ∀ s, Holds l.vars env s →
      (runCode m x.prelude.code s).map (fun s' => (x.value.value m s'.env, s'.heap)) =
        l.eval m ctx env s.heap)
    (ihy : ∀ s, Holds r.vars env s →
      (runCode m y.prelude.code s).map (fun s' => (y.value.value m s'.env, s'.heap)) =
        r.eval m ctx env s.heap) :
    (runCode m (x.prelude ++ y.prelude).code s).map
        (fun s' => ((x.value.value m s'.env, y.value.value m s'.env), s'.heap)) = (do
      let (v, heap) ← l.eval m ctx env s.heap
      let (w, heap) ← r.eval m ctx env heap
      some ((v, w), heap)) := by
  have hl := hv.mono (List.subset_append_left _ _)
  have hr := hv.mono (List.subset_append_right _ _)
  refine runCode_both (y := fun _ => r.eval m ctx env) (ihx s hl) (fun s' hs => ?_) (fun s' s'' hs ht => ?_)
  · exact ihy s' (hr.of_sameOff hx.temporaries (hx.declares.sameOff hs))
  · exact (hx.avoids hl hy.draws hy.temporaries).value_eq (hy.declares.sameOff ht)

theorem operandAndAll_meaning {a b c : Names} {e : Expr} {es : List Expr} {x : WithPrelude Operand}
    {xs : WithPrelude (List Operand)} {t u : List String} {env : String → V} {s : State V H}
    (hx : FlattensOperand ctx a e x b t) (hxs : FlattensAll ctx b es xs c u)
    (hv : Holds (e.vars ++ Expr.allVars es) env s)
    (ihx : ∀ s, Holds e.vars env s →
      (runCode m x.prelude.code s).map (fun s' => (x.value.value m s'.env, s'.heap)) =
        e.eval m ctx env s.heap)
    (ihxs : ∀ s, Holds (Expr.allVars es) env s →
      (runCode m xs.prelude.code s).map (fun s' => (xs.value.map (·.value m s'.env), s'.heap)) =
        Expr.evalAll m ctx env es s.heap) :
    (runCode m (x.prelude ++ xs.prelude).code s).map
        (fun s' => ((x.value.value m s'.env, xs.value.map (·.value m s'.env)), s'.heap)) = (do
      let (v, heap) ← e.eval m ctx env s.heap
      let (vs, heap) ← Expr.evalAll m ctx env es heap
      some ((v, vs), heap)) := by
  have hl := hv.mono (List.subset_append_left _ _)
  have hr := hv.mono (List.subset_append_right _ _)
  refine runCode_both (y := fun _ => Expr.evalAll m ctx env es) (ihx s hl) (fun s' hs => ?_) (fun s' s'' hs ht => ?_)
  · exact ihxs s' (hr.of_sameOff hx.temporaries (hx.declares.sameOff hs))
  · exact (hx.avoids hl hxs.draws hxs.temporaries).value_eq (hxs.declares.sameOff ht)

theorem newList_meaning {a b : Names} {es : List Expr} {xs : WithPrelude (List Operand)}
    {note : Source.Note} {t : List String} {env : String → V} {s : State V H}
    (h : FlattensAll ctx (a.advance Base.list) es xs b t) (hv : Holds (Expr.allVars es) env s)
    (ih : ∀ s, Holds (Expr.allVars es) env s →
      (runCode m xs.prelude.code s).map (fun s' => (xs.value.map (·.value m s'.env), s'.heap)) =
        Expr.evalAll m ctx env es s.heap) :
    (runCode m (newList note (a.fresh Base.list) es.length xs).code s).map
        (fun s' => (s'.env (a.fresh Base.list), s'.heap)) = (do
      let (v, heap) ← m.alloc (m.word (UInt32.ofNat (es.length + 1))) s.heap
      let (vs, heap) ← Expr.evalAll m ctx env es heap
      let heap ← m.store v (m.word 0) (m.num es.length) heap
      let heap ← Source.fill m v 1 vs heap
      some (v, heap)) := by
  have hd : a.fresh Base.list ∉ t := fun hm =>
    (Draws.advance a (by decide)).disjoint h.draws List.mem_cons_self hm
  unfold newList
  simp only [Prelude.append_code, Prelude.temporary, Prelude.ofCode, runCode_append,
    runCode_assign, Rhs.value, Operand.value_word]
  cases ha : m.alloc (m.word (UInt32.ofNat (es.length + 1))) s.heap with
  | none => rfl
  | some r =>
    obtain ⟨v, heap⟩ := r
    simp only [Option.map_some, Option.bind_eq_bind, Option.bind_some]
    have hs : Holds (Expr.allVars es) env (s.assign (a.fresh Base.list) v heap) :=
      hv.of_sameOff (t := [a.fresh Base.list]) (by simpa using a.isTemporary_fresh (by decide))
        fun x hx => s.assign_env_of_ne (by simpa using hx) v heap
    have hall := ih _ hs
    rw [State.assign_heap] at hall
    rw [← hall]
    cases hx : runCode m xs.prelude.code (s.assign (a.fresh Base.list) v heap) with
    | none => rfl
    | some s' =>
      have hn : s'.env (a.fresh Base.list) = v := by
        rw [h.declares.sameOff hx _ hd, State.assign_env_self]
      rw [Option.bind_some, ← List.singleton_append, runCode_append, runCode_store]
      simp only [Operand.value_var, Operand.value_word, Operand.value_num, hn, Option.map_some,
        Option.bind_some]
      cases m.store v (m.word 0) (m.num es.length) s'.heap with
      | none => rfl
      | some heap' =>
        rw [Option.map_some, Option.bind_some, Option.bind_some,
          runCode_storeElements (s := { s' with heap := heap' }) 1 hn]
        cases Source.fill m v 1 (xs.value.map (·.value m s'.env)) heap' with
        | none => rfl
        | some heap'' => simp [hn]

/-- The guarded offset after code that delivers the list, the index and whatever else. -/
theorem guardedOffset_after (ctx : Context) {α : Type} (getList getIndex : α → V) {code : List Instr}
    {s : State V H} {f : State V H → α} {x : Option (α × H)} {length offset : String}
    {index list : Operand} (h : (runCode m code s).map (fun s' => (f s', s'.heap)) = x)
    (hl : ∀ s', list.value m s'.env = getList (f s'))
    (hi : ∀ s', index.value m s'.env = getIndex (f s')) (hn : index ≠ .var length)
    (hf : ∀ s' s'', SameOff [length, offset] s'.env s''.env → f s'' = f s') :
    (runCode m (code ++ (guardedOffset ctx length offset index list).code) s).map
      (fun s' => ((f s', s'.env offset), s'.heap)) = (do
      let (v, heap) ← x
      let (w, heap) ← Source.elementOffset m ctx (getList v) (getIndex v) heap
      some ((v, w), heap)) := by
  refine runCode_both (y := fun v => Source.elementOffset m ctx (getList v) (getIndex v)) h
    (fun s' _ => ?_) (fun s' s'' _ hrun => ?_)
  · rw [guardedOffset_meaning hn, hl, hi]
  · exact hf s' s'' ((Prelude.Declares.guardedOffset ctx _ _ _ _).sameOff hrun)

mutual

theorem Flattens.meaning (hl : ctx.layout.Literal) {a b : Names} {e : Expr} {x : WithPrelude Rhs}
    {t : List String} {env : String → V} {s : State V H} : Flattens ctx a e x b t →
    Holds e.vars env s → ((runCode m x.prelude.code s).bind fun s' => x.value.value m s') =
      e.eval m ctx env s.heap
  | .unary h, hv => by
    rw [Expr.eval, ← h.meaning hl hv]
    cases runCode m _ s <;> rfl
  | .binary hx hy, hv => by
    have h := operands_meaning hx hy (by simpa using hv) (fun _ => hx.meaning hl)
      (fun _ => hy.meaning hl)
    rw [Expr.eval]
    refine (runCode_use h fun p heap => m.binary _ p.1 p.2 heap).trans ?_
    simp only [Option.bind_eq_bind, Option.bind_assoc, Option.bind_some]
  | .builtin1 h, hv => by
    rw [Expr.eval, ← h.meaning hl hv]
    cases runCode m _ s <;> rfl
  | .builtin2 hx hy, hv => by
    have h := operands_meaning hx hy (by simpa using hv) (fun _ => hx.meaning hl)
      (fun _ => hy.meaning hl)
    rw [Expr.eval]
    refine (runCode_use h fun p heap => m.builtin2 _ p.1 p.2 heap).trans ?_
    simp only [Option.bind_eq_bind, Option.bind_assoc, Option.bind_some]
  | .call h, hv => by
    rw [Expr.eval, ← h.meaning hl hv]
    cases runCode m _ s <;> rfl
  | .methodCall hc hr h, hv => by
    have hb := operandAndAll_meaning hr h (by simpa using hv) (fun _ => hr.meaning hl)
      (fun _ => h.meaning hl)
    rw [Expr.eval, hc, Prelude.append_code, runCode_append, Option.bind_assoc]
    simp only [Prelude.ofCode, helperCall, runCode_eval, Rhs.value, List.map_cons, List.map_nil,
      Option.bind_map]
    refine (runCode_use hb fun p heap =>
      (m.call ctx.settings.notNoneHelper [p.1] heap).bind fun (_, heap) =>
        m.call _ (p.1 :: p.2) heap).trans ?_
    simp only [Option.bind_eq_bind, Option.bind_assoc, Option.bind_some]
  | .field hs h, hv => by
    rw [Expr.eval, hs, ← h.meaning hl hv]
    cases runCode m _ s with
    | none => rfl
    | some s' =>
      simp only [Option.bind_some, Option.map_some, Option.bind_eq_bind, Rhs.value,
        Operand.value_word]
      cases m.load (Operand.value m s'.env _) (m.word _) s'.heap <;> rfl
  | .index hr hi, hv => by
    rw [Expr.eval]
    have h := operands_meaning hr hi (by simpa using hv) (fun _ => hr.meaning hl)
      (fun _ => hi.meaning hl)
    have hd := draws_elementOffset
    have ht := temporaries_elementOffset
    have hra := (hr.avoids (hv.mono (by simp)) (hi.draws.trans (hd _))
      (List.forall_mem_append.mpr ⟨hi.temporaries, ht _⟩)).mono (List.subset_append_right _ _)
    have hia := hi.avoids (hv.mono (by simp)) (hd _) (ht _)
    have ho := guardedOffset_after ctx Prod.fst Prod.snd h (fun _ => rfl) (fun _ => rfl)
      (hia _ List.mem_cons_self)
      (fun _ _ hs => Prod.ext (hra.value_eq hs) (hia.value_eq hs))
    refine (runCode_use ho fun p heap => (m.load p.1.1 p.2 heap).map (·, heap)).trans ?_
    simp only [Option.bind_eq_bind, Option.bind_assoc, Option.bind_some, Option.map_eq_bind,
      Function.comp_def]
  | .construct hf, hv => by
    rw [Expr.eval, hf]
    refine (runCode_use (newObject_meaning (hl _ _ hf) env s) fun v heap => some (v, heap)).trans ?_
    simp only [Option.bind_eq_bind, Option.bind_assoc, Option.bind_some]
  | .listLiteral h, hv => by
    rw [Expr.eval, ← newList_meaning h hv (fun _ => h.meaning hl)]
    cases runCode m _ s <;> rfl
  | .var, hv => by
    have hx := (hv _ List.mem_cons_self).2
    exact congrArg (fun v => some (v, s.heap)) hx
  | .literal, hv => by
    rw [Expr.eval]
    refine congrArg (fun v => some (v, s.heap)) (Flat.Operand.value_congr fun name hx => ?_)
    exact absurd hx (Operand.ofLiteral_ne_var _ name)

theorem FlattensOperand.meaning (hl : ctx.layout.Literal) {a b : Names} {e : Expr}
    {x : WithPrelude Operand} {t : List String} {env : String → V} {s : State V H} :
    FlattensOperand ctx a e x b t → Holds e.vars env s →
    (runCode m x.prelude.code s).map (fun s' => (x.value.value m s'.env, s'.heap)) =
      e.eval m ctx env s.heap
  | .value h, hv => by
    rw [← h.meaning hl hv]
    cases runCode m _ s <;> rfl
  | .temporary h _, hv => by
    rw [← h.meaning hl hv, Prelude.append_code, runCode_append]
    cases runCode m _ s with
    | none => rfl
    | some s₁ =>
      simp only [Prelude.temporary, Option.bind_some, runCode_assign, Option.map_map]
      cases Rhs.value m s₁ _ <;> simp

theorem FlattensAll.meaning (hl : ctx.layout.Literal) {a b : Names} {es : List Expr}
    {xs : WithPrelude (List Operand)} {t : List String} {env : String → V} {s : State V H} :
    FlattensAll ctx a es xs b t → Holds (Expr.allVars es) env s →
    (runCode m xs.prelude.code s).map (fun s' => (xs.value.map (·.value m s'.env), s'.heap)) =
      Expr.evalAll m ctx env es s.heap
  | .nil, _ => rfl
  | .cons h hs, hv => by
    have hb := operandAndAll_meaning h hs (by simpa using hv) (fun _ => h.meaning hl)
      (fun _ => hs.meaning hl)
    rw [Expr.evalAll]
    rw [Option.map_eq_bind]
    refine (runCode_use hb fun p heap => some (p.1 :: p.2, heap)).trans ?_
    simp only [Option.bind_eq_bind, Option.bind_assoc, Option.bind_some]

end

end BlockLowering
