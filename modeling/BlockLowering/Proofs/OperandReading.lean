import BlockLowering.Proofs.EvaluationOrder
import BlockLowering.Proofs.ExpressionMeaning
import BlockLowering.Proofs.FirstFault
import Mathlib.Data.List.Forall2

/-! When lowered code reads variables. A variable that is an operand stands for itself in flat code,
so it is read by the instruction that it is an operand of. All instructions of its later siblings
come before that one. Temporaries are written once by the body alone, so it does not matter when
they are read, whatever calls do. -/

namespace BlockLowering

open Source (Expr Held Reading)
open Flat (Operand Rhs Instr)

variable {V H : Type}

/-- The value of a variable, where temporaries belong to the body and all others to the program. -/
def State.lookup (s : State V (State V H)) (x : String) : V :=
  if IsTemporary x then s.env x else s.heap.env x

def State.put (s : State V (State V H)) (x : String) (v : V) : State V (State V H) :=
  if IsTemporary x then { s with env := Function.update s.env x v }
  else { s with heap := s.heap.assign x v s.heap.heap }

variable (m : Runtime V (State V H))

def Flat.Rhs.compute (r : Rhs) (s : State V (State V H)) : Option (V × State V (State V H)) :=
  (r.value m ⟨s.lookup, s.heap⟩).map fun (v, σ) => (v, { s with heap := σ })

/-- The state after an instruction that does not transfer control. -/
def Flat.Instr.execute (i : Instr) (s : State V (State V H)) : Option (State V (State V H)) :=
  match i with
  | .assign x r => (r.compute m s).map fun (v, s) => s.put x v
  | .eval r => (r.compute m s).map fun (_, s) => s
  | .store base offset v =>
    (m.store (base.value m s.lookup) (offset.value m s.lookup) (v.value m s.lookup) s.heap).map
      fun σ => { s with heap := σ }
  | .ret _ | .jump _ | .branch .. => none

def Flat.execute : List Instr → State V (State V H) → Option (State V (State V H))
  | [], s => some s
  | i :: rest, s => (i.execute m s).bind (execute rest)

variable {m}

open Flat (execute)

theorem execute_append (code more : List Instr) (s : State V (State V H)) :
    execute m (code ++ more) s = (execute m code s).bind (execute m more) := by
  induction code generalizing s with
  | nil => rfl
  | cons i rest ih =>
    simp only [List.cons_append, execute, Option.bind_assoc]
    exact congrArg (Option.bind _) (funext ih)

theorem execute_single (i : Instr) (s : State V (State V H)) :
    execute m [i] s = i.execute m s := by
  cases h : i.execute m s <;> simp [execute, h]

theorem execute_temporary (name : String) (ty : Source.Ty) (r : Rhs) (s : State V (State V H)) :
    execute m (Prelude.temporary name ty r).code s =
      (r.compute m s).map fun (v, s) => s.put name v :=
  execute_single _ s

theorem execute_append_temporary (p : Prelude) (name : String) (ty : Source.Ty) (r : Rhs)
    (s : State V (State V H)) :
    execute m (p ++ .temporary name ty r).code s =
      ((execute m p.code s).bind (r.compute m)).map fun (v, s) => s.put name v := by
  rw [Prelude.append_code, execute_append, Option.map_bind]
  exact congrArg (Option.bind _) (funext (execute_temporary name ty r))

theorem State.put_env (s : State V (State V H)) (x : String) (v : V) :
    SameOff [x] s.env (s.put x v).env := by
  intro y hy
  unfold State.put
  split
  · exact Function.update_of_ne (by simpa using hy) v s.env
  · rfl

theorem Flat.Rhs.compute_env {r : Rhs} {s s' : State V (State V H)} {v : V}
    (h : r.compute m s = some (v, s')) : s'.env = s.env := by
  obtain ⟨p, _, hp⟩ := Option.map_eq_some_iff.mp h
  cases hp
  rfl

theorem Flat.Instr.execute_env {i : Instr} {s s' : State V (State V H)}
    (h : i.execute m s = some s') : SameOff i.assigned?.toList s.env s'.env := by
  cases i with
  | assign x r =>
    obtain ⟨⟨v, s₁⟩, hr, rfl⟩ := Option.map_eq_some_iff.mp h
    rw [← Rhs.compute_env hr]
    exact s₁.put_env x v
  | eval r =>
    obtain ⟨⟨v, s₁⟩, hr, rfl⟩ := Option.map_eq_some_iff.mp h
    rw [← Rhs.compute_env hr]
    exact .refl _ _
  | store base offset v =>
    obtain ⟨σ, _, rfl⟩ := Option.map_eq_some_iff.mp h
    exact .refl _ _
  | ret v => cases h
  | jump label => cases h
  | branch cond a b => cases h

theorem execute_env {code : List Instr} {s s' : State V (State V H)}
    (h : execute m code s = some s') : SameOff (code.filterMap Instr.assigned?) s.env s'.env := by
  rw [List.filterMap_eq_flatMap_toList]
  induction code generalizing s with
  | nil =>
    cases h
    exact .refl _ _
  | cons i rest ih =>
    obtain ⟨s₁, hi, hrest⟩ := Option.bind_eq_some_iff.mp h
    rw [List.flatMap_cons]
    exact ((i.execute_env hi).mono (List.subset_append_left _ _)).trans
      ((ih hrest).mono (List.subset_append_right _ _))

theorem Prelude.Declares.execute_env {p : Prelude} {t : List String} (h : p.Declares t)
    {s s' : State V (State V H)} (hrun : execute m p.code s = some s') :
    SameOff t s.env s'.env :=
  h.assigned ▸ BlockLowering.execute_env hrun

/-- What an operand stands for: a variable of the program that is not read yet, or a value that is
kept in a temporary of `t` or is constant. -/
def Flat.Operand.Stands (m : Runtime V (State V H)) (t : List String) (s : State V (State V H))
    (v : Operand) : Held V → Prop
  | .name x => v = .var x ∧ ¬ IsTemporary x
  | .value w => v.value m s.lookup = w ∧ ∀ x, v = .var x → x ∈ t ∧ IsTemporary x

namespace Flat.Operand.Stands

variable {t u : List String} {s s' : State V (State V H)} {v : Operand} {a : Held V}

theorem read (h : v.Stands m t s a) : v.value m s.lookup = a.read s.heap := by
  cases a with
  | value w => exact h.1
  | name x =>
    obtain ⟨rfl, hx⟩ := h
    exact if_neg hx

theorem mono (h : v.Stands m t s a) (hs : t ⊆ u) : v.Stands m u s a := by
  cases a with
  | value w => exact ⟨h.1, fun x hx => ⟨hs (h.2 x hx).1, (h.2 x hx).2⟩⟩
  | name x => exact h

theorem after (h : v.Stands m t s a) (hs : SameOff u s.env s'.env) (hd : t.Disjoint u) :
    v.Stands m t s' a := by
  cases a with
  | name x => exact h
  | value w =>
    refine ⟨?_, h.2⟩
    rw [← h.1]
    refine value_congr fun x hx => ?_
    obtain ⟨ht, htemp⟩ := h.2 x hx
    simp only [State.lookup, htemp, if_true]
    exact hs x fun hu => hd ht hu

end Flat.Operand.Stands

theorem stands_values {t : List String} {s : State V (State V H)} {vs : List Operand}
    {as : List (Held V)} (h : List.Forall₂ (Operand.Stands m t s) vs as) :
    vs.map (·.value m s.lookup) = as.map (·.read s.heap) := by
  induction h with
  | nil => rfl
  | cons ha _ ih => rw [List.map_cons, List.map_cons, ha.read, ih]

/-- The same value, and the same state of the program. -/
def Alike (p : V × State V (State V H)) (q : V × State V H) : Prop := p.1 = q.1 ∧ p.2.heap = q.2

/-- A state in which `R` holds of what was reached, and the program is in the same state. -/
def Reached {α : Type} (R : State V (State V H) → α → Prop) (s : State V (State V H))
    (q : α × State V H) : Prop :=
  s.heap = q.2 ∧ R s q.1

theorem rel_reached {α γ δ : Type} {R : State V (State V H) → α → Prop} {S : γ → δ → Prop}
    {o : Option (State V (State V H))} {o' : Option (α × State V H)}
    {f : State V (State V H) → Option γ} {g : α × State V H → Option δ}
    (h : Option.Rel (Reached R) o o')
    (hf : ∀ s a, o = some s → R s a → Option.Rel S (f s) (g (a, s.heap))) :
    Option.Rel S (o.bind f) (o'.bind g) := by
  cases h with
  | @some s q hr =>
    obtain ⟨hheap, hr⟩ := hr
    have h := hf s q.1 rfl hr
    rwa [hheap] at h
  | none => exact .none

theorem compute_alike {r : Rhs} {s : State V (State V H)} {o : Option (V × State V H)}
    (h : r.value m ⟨s.lookup, s.heap⟩ = o) : Option.Rel Alike (r.compute m s) o := by
  unfold Rhs.compute
  rw [h]
  cases o with
  | none => exact .none
  | some p => exact .some ⟨rfl, rfl⟩

theorem State.put_temporary {x : String} (h : IsTemporary x) (s : State V (State V H)) (v : V) :
    s.put x v = { s with env := Function.update s.env x v } :=
  if_pos h

theorem Flat.Operand.stands_put {x : String} (h : IsTemporary x) (s : State V (State V H)) (v : V) :
    (Operand.var x).Stands m [x] (s.put x v) (.value v) := by
  refine ⟨?_, fun y hy => ?_⟩
  · rw [State.put_temporary h]
    exact (if_pos h).trans (Function.update_self x v s.env)
  · cases hy
    exact ⟨List.mem_singleton_self x, h⟩

theorem rel_value {t : List String} {v : Operand} {o : Option (State V (State V H))}
    {q : Option (V × State V H)}
    (h : Option.Rel Alike (o.bind ((Rhs.operand v).compute m)) q)
    (hv : ∀ x, v = .var x → x ∈ t ∧ IsTemporary x) :
    Option.Rel (Reached fun s => v.Stands m t s) o (q.map fun (w, σ) => (.value w, σ)) := by
  cases o with
  | none =>
    rw [Option.bind_none] at h
    cases h
    exact .none
  | some s =>
    rw [Option.bind_some] at h
    cases h with
    | some hr => exact .some ⟨hr.2, hr.1, hv⟩

theorem rel_kept {name : String} {t : List String} (hn : IsTemporary name) (ht : name ∈ t)
    {o : Option (V × State V (State V H))} {q : Option (V × State V H)}
    (h : Option.Rel Alike o q) :
    Option.Rel (Reached fun s => (Operand.var name).Stands m t s)
      (o.map fun (v, s) => s.put name v) (q.map fun (w, σ) => (.value w, σ)) := by
  cases h with
  | none => exact .none
  | @some p q hr =>
    obtain ⟨v, s⟩ := p
    obtain ⟨w, σ⟩ := q
    obtain ⟨hv, hheap⟩ := hr
    obtain rfl : v = w := hv
    refine .some ⟨?_, (Operand.stands_put hn s v).mono (by simpa using ht)⟩
    exact (congrArg State.heap (State.put_temporary hn s v)).trans hheap

theorem reached_value {t : List String} {v : Operand} {o : Option (State V (State V H))}
    {q : Option (Held V × State V H)} (h : Option.Rel (Reached fun s => v.Stands m t s) o q) :
    o.map (fun s => (v.value m s.lookup, s.heap)) = q.map fun (a, σ) => (a.read σ, σ) := by
  cases h with
  | none => rfl
  | some hr =>
    obtain ⟨hheap, hv⟩ := hr
    simp only [Option.map_some, hv.read, hheap]

section

variable {γ δ : Type} {S : γ → δ → Prop} {f : State V (State V H) → Option γ}
  {s : State V (State V H)}

theorem rel_temporary {name : String} {ty : Source.Ty} {r : Rhs} {o : Option (V × State V H)}
    {g : V × State V H → Option δ} (hn : IsTemporary name)
    (hr : r.value m ⟨s.lookup, s.heap⟩ = o)
    (hk : ∀ v s', (Operand.var name).Stands m [name] s' (.value v) →
      SameOff [name] s.env s'.env → Option.Rel S (f s') (g (v, s'.heap))) :
    Option.Rel S ((execute m (Prelude.temporary name ty r).code s).bind f) (o.bind g) := by
  rw [execute_temporary, Rhs.compute, hr]
  cases o with
  | none => exact .none
  | some p =>
    have h := hk p.1 _ (Operand.stands_put hn { s with heap := p.2 } p.1)
      (State.put_env _ name p.1)
    simpa only [State.put_temporary hn, Option.map_some, Option.bind_some] using h

theorem rel_helperCall {name : String} {args : List Operand} {vs : List V}
    {g : V × State V H → Option δ} (hargs : args.map (·.value m s.lookup) = vs)
    (hk : ∀ v s', SameOff [] s.env s'.env → Option.Rel S (f s') (g (v, s'.heap))) :
    Option.Rel S ((execute m (Prelude.ofCode [helperCall name args]).code s).bind f)
      ((m.call name vs s.heap).bind g) := by
  simp only [Prelude.ofCode, helperCall, execute_single, Instr.execute, Rhs.compute, Rhs.value,
    hargs]
  cases m.call name vs s.heap with
  | none => exact .none
  | some p => exact hk p.1 { s with heap := p.2 } (.refl _ _)

theorem rel_store {base offset v : Operand} {rest : List Instr} {o : Option (State V H)}
    {g : State V H → Option δ}
    (hs : m.store (base.value m s.lookup) (offset.value m s.lookup) (v.value m s.lookup) s.heap = o)
    (hk : ∀ s', SameOff [] s.env s'.env →
      Option.Rel S ((execute m rest s').bind f) (g s'.heap)) :
    Option.Rel S ((execute m (.store base offset v :: rest) s).bind f) (o.bind g) := by
  simp only [execute, Instr.execute, hs]
  cases o with
  | none => exact .none
  | some σ => exact hk { s with heap := σ } (.refl _ _)

theorem rel_slots {name : String} {object : V} {slots : List Slot} {g : State V H → Option δ}
    (ho : (Operand.var name).Stands m [name] s (.value object))
    (hl : ∀ slot ∈ slots, ∀ x ∈ slot.initial.varName?, ¬ IsTemporary x)
    (hk : ∀ s', SameOff [] s.env s'.env → Option.Rel S (f s') (g s'.heap)) :
    Option.Rel S
      ((execute m (slots.map fun slot =>
        .store (.var name) (.word slot.offset) slot.initial) s).bind f)
      ((Source.fillSlots m object slots s.heap).bind g) := by
  induction slots generalizing s with
  | nil => exact hk s (.refl _ _)
  | cons slot rest ih =>
    rw [List.forall_mem_cons] at hl
    have hv : slot.initial.value m s.lookup = slot.initial.value m s.heap.env :=
      Flat.Operand.value_congr fun x hx => if_neg (hl.1 x (by simp [hx, Operand.varName?]))
    rw [List.map_cons, Source.fillSlots, Option.bind_eq_bind, Option.bind_assoc]
    refine rel_store ?_ fun s₁ hs₁ => ?_
    · rw [ho.read, hv]
      rfl
    · exact ih (ho.after hs₁ (by simp)) hl.2 fun s₂ hs₂ => hk s₂ (hs₁.trans hs₂)

theorem rel_storeElements {name : String} {list : V} {t : List String} {vs : List Operand}
    {as : List (Held V)} {g : State V H → Option δ}
    (hl : (Operand.var name).Stands m [name] s (.value list))
    (ha : List.Forall₂ (Operand.Stands m t s) vs as) (offset : Nat)
    (hk : ∀ s', SameOff [] s.env s'.env → Option.Rel S (f s') (g s'.heap)) :
    Option.Rel S ((execute m (storeElements (.var name) offset vs) s).bind f)
      ((Source.fillHeld m list offset as s.heap).bind g) := by
  induction vs generalizing s offset as with
  | nil =>
    cases ha
    exact hk s (.refl _ _)
  | cons v vs ih =>
    obtain _ | ⟨hv, hvs⟩ := ha
    rw [storeElements, Source.fillHeld, Option.bind_eq_bind, Option.bind_assoc]
    refine rel_store ?_ fun s₁ hs₁ => ?_
    · rw [hl.read, hv.read]
      rfl
    · refine ih (hl.after hs₁ (by simp)) (hvs.imp fun v a h => h.after hs₁ (by simp)) (offset + 1)
        fun s₂ hs₂ => hk s₂ (hs₁.trans hs₂)

end

variable {ctx : Context}

/-- The guarded element of a list, where neither operand is kept in the names of the guard. -/
theorem guardedOffset_reading {length offset : String} {index list : Operand} {t : List String}
    {a b : Held V} {s : State V (State V H)} (ha : list.Stands m t s a)
    (hb : index.Stands m t s b) (hl : IsTemporary length) (ho : IsTemporary offset)
    (hd : t.Disjoint [length, offset]) :
    Option.Rel Alike ((execute m (guardedOffset ctx length offset index list).code s).bind
      ((Rhs.load list (.var offset)).compute m)) (Source.loadElement m ctx a b s.heap) := by
  have hdl : t.Disjoint [length] := List.disjoint_of_subset_right (by simp) hd
  have hdo : t.Disjoint [offset] := List.disjoint_of_subset_right (by simp) hd
  have hload : Source.loadElement m ctx a b s.heap =
      ((m.load (a.read s.heap) (m.word 0) s.heap).map (·, s.heap)).bind fun (length, σ) =>
        (m.call ctx.settings.boundsHelper [length, b.read σ] σ).bind fun (_, σ) =>
          (m.binary .plus (b.read σ) (m.word 1) σ).bind fun (offset, σ) =>
            (m.load (a.read σ) offset σ).map (·, σ) := by
    simp only [Source.loadElement, Option.bind_eq_bind, Option.bind_map, Function.comp_def]
  rw [guardedOffset, Prelude.append_code, Prelude.append_code, execute_append, execute_append,
    Option.bind_assoc, Option.bind_assoc, hload]
  refine rel_temporary hl ?_ fun len s₁ hlen hs₁ => ?_
  · rw [Rhs.value, ha.read]
    rfl
  have ha₁ := ha.after hs₁ hdl
  have hb₁ := hb.after hs₁ hdl
  refine rel_helperCall ?_ fun _ s₂ hs₂ => ?_
  · rw [List.map_cons, List.map_cons, hlen.read, hb₁.read]
    rfl
  have ha₂ := ha₁.after hs₂ (by simp)
  have hb₂ := hb₁.after hs₂ (by simp)
  refine rel_temporary ho ?_ fun w s₃ hw hs₃ => compute_alike ?_
  · rw [Rhs.value, hb₂.read]
    rfl
  · rw [Rhs.value, (ha₂.after hs₃ hdo).read, hw.read]
    rfl

theorem newObject_reading {note : Source.Note} {className name : String} {fields : ClassLayout}
    (hn : IsTemporary name)
    (hl : ∀ slot ∈ fields.values, ∀ x ∈ slot.initial.varName?, ¬ IsTemporary x)
    (hf : ctx.layout.fields? className = some fields) (s : State V (State V H)) :
    Option.Rel Alike ((execute m (newObject ctx note className fields name).code s).bind
      ((Rhs.operand (.var name)).compute m))
      ((Expr.construct note className).evaluate m ctx .atUse s.heap) := by
  simp only [Expr.evaluate, hf, Option.bind_eq_bind, Option.bind_some]
  rw [newObject, Prelude.append_code, Prelude.append_code, execute_append, execute_append,
    Option.bind_assoc, Option.bind_assoc]
  refine rel_temporary hn rfl fun v s₁ hv _ => ?_
  refine rel_slots hv hl fun s₂ hs₂ => ?_
  have hv₂ := hv.after hs₂ (by simp)
  refine rel_helperCall ?_ fun _ s₃ hs₃ => ?_
  · rw [List.map_cons, hv₂.read]
    rfl
  · exact .some ⟨(hv₂.after hs₃ (by simp)).read, rfl⟩

theorem newList_reading {a b : Names} {es : List Expr} {xs : WithPrelude (List Operand)}
    {note : Source.Note} {t : List String} (h : FlattensAll ctx (a.advance Base.list) es xs b t)
    (ih : ∀ s : State V (State V H),
      Option.Rel (Reached fun s => List.Forall₂ (Operand.Stands m t s) xs.value)
        (execute m xs.prelude.code s) (Expr.holdAll m ctx .atUse es s.heap))
    (s : State V (State V H)) :
    Option.Rel Alike ((execute m (newList note (a.fresh Base.list) es.length xs).code s).bind
      ((Rhs.operand (.var (a.fresh Base.list))).compute m))
      ((Expr.listLiteral note es).evaluate m ctx .atUse s.heap) := by
  have hn : IsTemporary (a.fresh Base.list) := a.isTemporary_fresh (by decide)
  have hd : [a.fresh Base.list].Disjoint t := (Draws.advance a (by decide)).disjoint h.draws
  simp only [Expr.evaluate, Option.bind_eq_bind]
  rw [newList, Prelude.append_code, Prelude.append_code, execute_append, execute_append,
    Option.bind_assoc, Option.bind_assoc]
  refine rel_temporary hn rfl fun v s₁ hv _ => ?_
  refine rel_reached (ih s₁) fun s₂ as hrun has => ?_
  have hv₂ := hv.after (h.declares.execute_env hrun) hd
  simp only [Source.fillList, Option.bind_eq_bind]
  refine rel_store ?_ fun s₃ hs₃ => ?_
  · rw [hv₂.read, ← has.length_eq, h.length_eq]
    rfl
  have hv₃ := hv₂.after hs₃ (by simp)
  refine rel_storeElements hv₃ (has.imp fun _ _ ha => ha.after hs₃ (by simp)) 1 fun s₄ hs₄ => ?_
  exact .some ⟨(hv₃.after hs₄ (by simp)).read, rfl⟩

/-- No field of a new object starts from a temporary. -/
def Layout.NoTemporaries (layout : Layout) : Prop :=
  ∀ className fields, layout.fields? className = some fields →
    ∀ slot ∈ fields.values, ∀ x ∈ slot.initial.varName?, ¬ IsTemporary x

theorem Layout.Literal.noTemporaries {layout : Layout} (h : layout.Literal) :
    layout.NoTemporaries := by
  intro className fields hf slot hs x hx
  rw [h className fields hf slot hs] at hx
  cases hx

theorem Flattens.varName_eq_none {a b : Names} {e : Expr} {x : WithPrelude Rhs} {t : List String}
    (h : Flattens ctx a e x b t) (hx : ∀ v, x.value ≠ .operand v) : e.varName? = none := by
  cases h with
  | var => exact absurd rfl (hx _)
  | _ => rfl

theorem two_reading {a b c : Names} {l r : Expr} {x y : WithPrelude Operand} {t u : List String}
    (hx : FlattensOperand ctx a l x b t) (hy : FlattensOperand ctx b r y c u)
    (ihx : ∀ s : State V (State V H), Option.Rel (Reached fun s => x.value.Stands m t s)
      (execute m x.prelude.code s) (Reading.atUse.hold l (l.evaluate m ctx .atUse) s.heap))
    (ihy : ∀ s : State V (State V H), Option.Rel (Reached fun s => y.value.Stands m u s)
      (execute m y.prelude.code s) (Reading.atUse.hold r (r.evaluate m ctx .atUse) s.heap))
    {γ δ : Type} {S : γ → δ → Prop} {f : State V (State V H) → Option γ}
    (g : Held V → Held V → State V H → Option δ)
    (hk : ∀ s v w, x.value.Stands m (t ++ u) s v → y.value.Stands m (t ++ u) s w →
      Option.Rel S (f s) (g v w s.heap)) (s : State V (State V H)) :
    Option.Rel S ((execute m (x.prelude ++ y.prelude).code s).bind f)
      ((Reading.atUse.hold l (l.evaluate m ctx .atUse) s.heap).bind fun (v, σ) =>
        (Reading.atUse.hold r (r.evaluate m ctx .atUse) σ).bind fun (w, σ) => g v w σ) := by
  rw [Prelude.append_code, execute_append, Option.bind_assoc]
  refine rel_reached (ihx s) fun s₁ v _ hv => ?_
  refine rel_reached (ihy s₁) fun s₂ w hrun hw => ?_
  have hv₂ := hv.after (hy.declares.execute_env hrun) (hx.draws.disjoint hy.draws)
  exact hk s₂ v w (hv₂.mono (List.subset_append_left t u)) (hw.mono (List.subset_append_right t u))

mutual

theorem Flattens.reading (hl : ctx.layout.NoTemporaries) {a b : Names} {e : Expr}
    {x : WithPrelude Rhs} {t : List String} (s : State V (State V H)) : Flattens ctx a e x b t →
    (∀ y ∈ e.vars, ¬ IsTemporary y) → Option.Rel Alike
      ((execute m x.prelude.code s).bind (x.value.compute m)) (e.evaluate m ctx .atUse s.heap)
  | .unary h, hv => by
    refine rel_reached (h.reading hl s hv) fun s₁ v _ hx => ?_
    exact compute_alike (by rw [Rhs.value, hx.read])
  | .binary hx hy, hv => by
    rw [Expr.vars_binary, List.forall_mem_append] at hv
    refine two_reading hx hy (fun s => hx.reading hl s hv.1) (fun s => hy.reading hl s hv.2)
      (fun v w σ => m.binary _ (v.read σ) (w.read σ) σ) (fun s v w h h' => ?_) s
    exact compute_alike (by rw [Rhs.value, h.read, h'.read])
  | .builtin1 h, hv => by
    refine rel_reached (h.reading hl s hv) fun s₁ v _ hx => ?_
    exact compute_alike (by rw [Rhs.value, hx.read])
  | .builtin2 hx hy, hv => by
    rw [Expr.vars_builtin2, List.forall_mem_append] at hv
    refine two_reading hx hy (fun s => hx.reading hl s hv.1) (fun s => hy.reading hl s hv.2)
      (fun v w σ => m.builtin2 _ (v.read σ) (w.read σ) σ) (fun s v w h h' => ?_) s
    exact compute_alike (by rw [Rhs.value, h.read, h'.read])
  | .call h, hv => by
    refine rel_reached (h.reading hl s hv) fun s₁ vs _ hxs => ?_
    exact compute_alike (by rw [Rhs.value, stands_values hxs])
  | .methodCall hc hr h, hv => by
    rw [Expr.vars_methodCall, List.forall_mem_append] at hv
    simp only [Expr.evaluate, hc, Option.bind_eq_bind, Option.bind_some]
    rw [Prelude.append_code, Prelude.append_code, execute_append, execute_append,
      Option.bind_assoc, Option.bind_assoc]
    refine rel_reached (hr.reading hl s hv.1) fun s₁ v _ hx => ?_
    refine rel_reached (h.reading hl s₁ hv.2) fun s₂ vs hrun hxs => ?_
    have hx₂ := hx.after (h.declares.execute_env hrun) (hr.draws.disjoint h.draws)
    refine rel_helperCall ?_ fun _ s₃ hs₃ => compute_alike ?_
    · rw [List.map_cons, hx₂.read]
      rfl
    · have hxs₃ := hxs.imp fun _ _ ha => ha.after hs₃ (by simp)
      rw [Rhs.value, List.map_cons, (hx₂.after hs₃ (by simp)).read, stands_values hxs₃]
  | .field hs h, hv => by
    simp only [Expr.evaluate, hs, Option.bind_eq_bind, Option.bind_some]
    refine rel_reached (h.reading hl s hv) fun s₁ v _ hx => ?_
    refine compute_alike ?_
    rw [Rhs.value, hx.read]
    rfl
  | .index hr hi, hv => by
    rw [Expr.vars_index, List.forall_mem_append] at hv
    rw [Prelude.append_code, execute_append, Option.bind_assoc]
    refine two_reading hr hi (fun s => hr.reading hl s hv.1) (fun s => hi.reading hl s hv.2)
      (Source.loadElement m ctx) (fun s v w h h' => ?_) s
    exact guardedOffset_reading h h' (Names.isTemporary_fresh _ (by decide))
      (Names.isTemporary_fresh _ (by decide))
      ((hr.draws.trans hi.draws).disjoint (draws_elementOffset _))
  | .construct hf, _ =>
    newObject_reading (Names.isTemporary_fresh _ (by decide)) (hl _ _ hf) hf s
  | .listLiteral h, hv => newList_reading h (fun s => h.reading hl s hv) s
  | .var, hv => by
    have hy := hv _ List.mem_cons_self
    exact .some ⟨if_neg hy, rfl⟩
  | .literal, _ => by
    refine .some ⟨Flat.Operand.value_congr fun name hx => ?_, rfl⟩
    exact absurd hx (Operand.ofLiteral_ne_var _ name)

theorem FlattensOperand.reading (hl : ctx.layout.NoTemporaries) {a b : Names} {e : Expr}
    {x : WithPrelude Operand} {t : List String} (s : State V (State V H)) :
    FlattensOperand ctx a e x b t → (∀ y ∈ e.vars, ¬ IsTemporary y) →
    Option.Rel (Reached fun s => x.value.Stands m t s) (execute m x.prelude.code s)
      (Reading.atUse.hold e (e.evaluate m ctx .atUse) s.heap)
  | .value h, hv => by
    cases he : e.varName? with
    | some y =>
      obtain ⟨rfl, rfl⟩ := h.of_varName he
      simp only [Reading.hold, he]
      exact .some ⟨rfl, rfl, hv y (Expr.mem_vars_of_varName he)⟩
    | none =>
      rw [Source.hold_atUse_composite he]
      refine rel_value (h.reading hl s hv) fun y hy => ?_
      have hmem := h.operand_temporary he (congrArg Rhs.operand hy)
      exact ⟨hmem, h.temporaries y hmem⟩
  | .temporary h hr, hv => by
    rw [Source.hold_atUse_composite (h.varName_eq_none hr), execute_append_temporary]
    exact rel_kept (Names.isTemporary_fresh _ (by decide)) (by simp) (h.reading hl s hv)

theorem FlattensAll.reading (hl : ctx.layout.NoTemporaries) {a b : Names} {es : List Expr}
    {xs : WithPrelude (List Operand)} {t : List String} (s : State V (State V H)) :
    FlattensAll ctx a es xs b t → (∀ y ∈ Expr.allVars es, ¬ IsTemporary y) →
    Option.Rel (Reached fun s => List.Forall₂ (Operand.Stands m t s) xs.value)
      (execute m xs.prelude.code s) (Expr.holdAll m ctx .atUse es s.heap)
  | .nil, _ => .some ⟨rfl, .nil⟩
  | .cons h hs, hv => by
    rw [Expr.allVars_cons, List.forall_mem_append] at hv
    rw [Expr.holdAll, Prelude.append_code, execute_append]
    refine rel_reached (h.reading hl s hv.1) fun s₁ v _ hx => ?_
    rw [← Option.bind_fun_some (execute m _ s₁)]
    refine rel_reached (hs.reading hl s₁ hv.2) fun s₂ vs hrun hxs => ?_
    have hx₂ := hx.after (hs.declares.execute_env hrun) (h.draws.disjoint hs.draws)
    refine .some ⟨rfl, .cons (hx₂.mono (List.subset_append_left _ _)) (hxs.imp fun _ _ ha => ?_)⟩
    exact ha.mono (List.subset_append_right _ _)

end

theorem FlattensOperand.run_eq (hl : ctx.layout.NoTemporaries) {a b : Names} {e : Expr}
    {x : WithPrelude Operand} {t : List String} (h : FlattensOperand ctx a e x b t)
    (hv : ∀ y ∈ e.vars, ¬ IsTemporary y) (s : State V (State V H)) :
    (execute m x.prelude.code s).map (fun s' => (x.value.value m s'.lookup, s'.heap)) =
      e.evaluate m ctx .atUse s.heap := by
  rw [← Source.hold_atUse_read]
  exact reached_value (h.reading hl s hv)

/-- An expression without faults is flattened to an operand, and running the code before it and then
reading it gives the value and the state that evaluation gives in which a variable that is an
operand is read when its operation is performed. Where no later sibling assigns such a variable,
that is the value it had when it was reached. -/
theorem operands_read_at_use {e : Expr} (hl : ctx.layout.NoTemporaries)
    (hv : ∀ y ∈ e.vars, ¬ IsTemporary y) (hf : e.faults ctx.layout = []) (names : Names) :
    ∃ x, (flattenOperand ctx e names).result = .ok x ∧
      ∀ {V H : Type} (m : Runtime V (State V H)) (s : State V (State V H)),
        (execute m x.prelude.code s).map (fun s' => (x.value.value m s'.lookup, s'.heap)) =
          e.evaluate m ctx .atUse s.heap ∧
        (Source.Quiet m ctx → e.Undisturbed m ctx →
          (execute m x.prelude.code s).map (fun s' => (x.value.value m s'.lookup, s'.heap)) =
            e.evaluate m ctx .atOnce s.heap) := by
  have hj : Judged (flattenOperand ctx e names).result (e.faults ctx.layout).head? :=
    meets_flattenOperand e names
  rw [hf] at hj
  obtain ⟨x, hx⟩ := hj
  refine ⟨x, hx, fun m s => ?_⟩
  have hrun := (flattenOperand_flattens (Lower.yields_of_result hx)).run_eq (m := m) hl hv s
  exact ⟨hrun, fun hq hu => hrun.trans (Expr.evaluate_atOnce hq hu s.heap).symm⟩

/-- A runtime in which a call of `bump` raises the variable `x`. -/
def Runtime.bumping : Runtime Int (State Int Unit) where
  num n := n
  bool b := if b then 1 else 0
  none := 0
  word n := n.toNat
  unary _ v σ := some (-v, σ)
  binary op v w σ := some (if op = .minus then v - w else v + w, σ)
  builtin1 _ v σ := some (v, σ)
  builtin2 _ v _ σ := some (v, σ)
  call name _ σ := some (10, if name = "bump" then σ.assign "x" (σ.env "x" + 1) () else σ)
  load _ _ _ := some 0
  store _ _ _ σ := some σ
  alloc _ σ := some (0, σ)
  truth v := some (v ≠ 0)

/-- In `x + bump()` with `x = 1`, the raised `x` is added, not the one that was reached. -/
theorem operand_raised_before_read :
    let ctx : Context := ⟨.ofClasses [], {}⟩
    let number : Source.Note := ⟨.number, {}⟩
    let e : Expr := .binary number .plus (.var number "x") (.call number "bump" [])
    let s : State Int (State Int Unit) := ⟨fun _ => 0, fun _ => 1, ()⟩
    (∀ y ∈ e.vars, ¬ IsTemporary y) ∧ ∃ x, (flattenOperand ctx e {}).result = .ok x ∧
      let run := (execute .bumping x.prelude.code s).map fun s' =>
        (x.value.value .bumping s'.lookup, s'.heap)
      run.map Prod.fst = some 12 ∧
      (e.evaluate .bumping ctx .atOnce s.heap).map Prod.fst = some 11 ∧
      run ≠ e.evaluate .bumping ctx .atOnce s.heap := by
  refine ⟨by decide, _, rfl, by decide, by decide, fun h => ?_⟩
  exact absurd (congrArg (Option.map Prod.fst) h) (by decide)

theorem Runtime.bumping_quiet : Source.Quiet .bumping ⟨.ofClasses [], {}⟩ where
  binary op v w σ u σ' h := by
    cases h
    rfl
  store base offset v σ σ' h := by
    cases h
    rfl
  check name hn vs σ v σ' h := by
    have hname : name ≠ "bump" := fun he => absurd (he ▸ hn) (by decide)
    simp only [bumping, hname, if_false, Option.some.injEq, Prod.mk.injEq] at h
    rw [h.2]

/-- `bump() - x` -/
def Source.bumpMinusX : Expr :=
  .binary ⟨.number, {}⟩ .minus (.call ⟨.number, {}⟩ "bump" []) (.var ⟨.number, {}⟩ "x")

/-- `y + (bump() - x)` -/
def Source.sumAfterBump : Expr := .binary ⟨.number, {}⟩ .plus (.var ⟨.number, {}⟩ "y") bumpMinusX

theorem Source.sumAfterBump_undisturbed :
    sumAfterBump.Undisturbed .bumping ⟨.ofClasses [], {}⟩ := by
  have hy : bumpMinusX.Spares .bumping ⟨.ofClasses [], {}⟩ "y" := by
    intro σ v σ' h
    cases h
    exact σ.assign_env_of_ne (by decide) _ ()
  have hnodes : sumAfterBump.nodes = [sumAfterBump, .var ⟨.number, {}⟩ "y", bumpMinusX,
      .call ⟨.number, {}⟩ "bump" [], .var ⟨.number, {}⟩ "x"] := rfl
  rw [Expr.Undisturbed, hnodes]
  simpa [sumAfterBump, Expr.operands, Expr.varName?, bumpMinusX] using hy

theorem operands_read_at_use_sumAfterBump :
    let ctx : Context := ⟨.ofClasses [], {}⟩
    let s : State Int (State Int Unit) := ⟨fun _ => 0, fun _ => 1, ()⟩
    ctx.layout.NoTemporaries ∧ (∀ y ∈ Source.sumAfterBump.vars, ¬ IsTemporary y) ∧
    Source.sumAfterBump.faults ctx.layout = [] ∧ Source.Quiet .bumping ctx ∧
    Source.sumAfterBump.Undisturbed .bumping ctx ∧
    ∃ x, (flattenOperand ctx Source.sumAfterBump {}).result = .ok x ∧
      (execute .bumping x.prelude.code s).map
          (fun s' => (x.value.value .bumping s'.lookup, s'.heap)) =
        Source.sumAfterBump.evaluate .bumping ctx .atOnce s.heap ∧
      (Source.sumAfterBump.evaluate .bumping ctx .atOnce s.heap).map Prod.fst = some 9 := by
  intro ctx s
  have hl : ctx.layout.NoTemporaries := (Layout.literal_ofClasses []).noTemporaries
  have hv : ∀ y ∈ Source.sumAfterBump.vars, ¬ IsTemporary y := by decide
  have hq := Runtime.bumping_quiet
  have hu := Source.sumAfterBump_undisturbed
  obtain ⟨x, hx, h⟩ := operands_read_at_use hl hv rfl {}
  exact ⟨hl, hv, rfl, hq, hu, x, hx, (h .bumping s).2 hq hu, by decide⟩

end BlockLowering
