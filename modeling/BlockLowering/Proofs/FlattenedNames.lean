import BlockLowering.Proofs.ExpressionTranslation

/-! Names in flattened expressions. What runs before a flattened expression assigns the names that
were drawn for it, each once and in order, and declares them in the same order; an operand is
a literal, a variable of the expression, or one of these names. -/

namespace BlockLowering

open Source (Expr)
open Flat (Operand Rhs Instr Decl)

variable {ctx : Context}

theorem draws_elementOffset (names : Names) :
    Draws names ((names.advance Base.length).advance Base.offset)
      [names.fresh Base.length, (names.advance Base.length).fresh Base.offset] :=
  (Draws.advance names (by decide)).trans (Draws.advance _ (by decide))

theorem temporaries_elementOffset (names : Names) :
    ∀ name ∈ [names.fresh Base.length, (names.advance Base.length).fresh Base.offset],
      IsTemporary name := by
  simp only [List.forall_mem_cons]
  exact ⟨Names.isTemporary_fresh _ (by decide), Names.isTemporary_fresh _ (by decide), by simp⟩

mutual

theorem Flattens.draws {a b : Names} {e : Expr} {x : WithPrelude Rhs} {t : List String} :
    Flattens ctx a e x b t → Draws a b t
  | .unary h | .builtin1 h | .field _ h => h.draws
  | .binary hl hr | .builtin2 hl hr => hl.draws.trans hr.draws
  | .call h => h.draws
  | .methodCall _ hr h => hr.draws.trans h.draws
  | .index hr hi => (hr.draws.trans hi.draws).trans (draws_elementOffset _)
  | .construct _ => .advance _ (by decide)
  | .listLiteral h => (Draws.advance _ (by decide)).trans h.draws
  | .var | .literal => .refl _

theorem FlattensOperand.draws {a b : Names} {e : Expr} {x : WithPrelude Operand}
    {t : List String} : FlattensOperand ctx a e x b t → Draws a b t
  | .value h => h.draws
  | .temporary h _ => h.draws.trans (.advance _ (by decide))

theorem FlattensAll.draws {a b : Names} {es : List Expr} {xs : WithPrelude (List Operand)}
    {t : List String} : FlattensAll ctx a es xs b t → Draws a b t
  | .nil => .refl _
  | .cons h hs => h.draws.trans hs.draws

end

mutual

theorem Flattens.temporaries {a b : Names} {e : Expr} {x : WithPrelude Rhs} {t : List String} :
    Flattens ctx a e x b t → ∀ name ∈ t, IsTemporary name
  | .unary h | .builtin1 h | .field _ h => h.temporaries
  | .binary hl hr | .builtin2 hl hr => List.forall_mem_append.mpr ⟨hl.temporaries, hr.temporaries⟩
  | .call h => h.temporaries
  | .methodCall _ hr h => List.forall_mem_append.mpr ⟨hr.temporaries, h.temporaries⟩
  | .index hr hi =>
    List.forall_mem_append.mpr ⟨List.forall_mem_append.mpr ⟨hr.temporaries, hi.temporaries⟩,
      temporaries_elementOffset _⟩
  | .construct _ => by simpa using Names.isTemporary_fresh _ (by decide)
  | .listLiteral h => List.forall_mem_cons.mpr ⟨Names.isTemporary_fresh _ (by decide), h.temporaries⟩
  | .var | .literal => by simp

theorem FlattensOperand.temporaries {a b : Names} {e : Expr} {x : WithPrelude Operand}
    {t : List String} : FlattensOperand ctx a e x b t → ∀ name ∈ t, IsTemporary name
  | .value h => h.temporaries
  | .temporary h _ => by
    refine List.forall_mem_append.mpr ⟨h.temporaries, ?_⟩
    simpa using Names.isTemporary_fresh _ (by decide)

theorem FlattensAll.temporaries {a b : Names} {es : List Expr} {xs : WithPrelude (List Operand)}
    {t : List String} : FlattensAll ctx a es xs b t → ∀ name ∈ t, IsTemporary name
  | .nil => by simp
  | .cons h hs => List.forall_mem_append.mpr ⟨h.temporaries, hs.temporaries⟩

end

/-- The variable an instruction assigns. -/
def Flat.Instr.assigned? : Instr → Option String
  | .assign name _ => some name
  | _ => none

/-- A prelude that declares and assigns the names `t`, each once and in order, and in which
control never leaves. -/
structure Prelude.Declares (p : Prelude) (t : List String) : Prop where
  decls : p.decls.map (·.name) = t
  assigned : p.code.filterMap Instr.assigned? = t
  plain : ∀ i ∈ p.code, i.isTransfer = false

namespace Prelude

theorem append_decls (p q : Prelude) : (p ++ q).decls = p.decls ++ q.decls := rfl

theorem append_code (p q : Prelude) : (p ++ q).code = p.code ++ q.code := rfl

theorem Declares.empty : (∅ : Prelude).Declares [] := ⟨rfl, rfl, by simp [EmptyCollection.emptyCollection]⟩

theorem Declares.append {p q : Prelude} {t u : List String} (hp : p.Declares t)
    (hq : q.Declares u) : (p ++ q).Declares (t ++ u) where
  decls := by rw [append_decls, List.map_append, hp.decls, hq.decls]
  assigned := by rw [append_code, List.filterMap_append, hp.assigned, hq.assigned]
  plain := by
    rw [append_code]
    exact List.forall_mem_append.mpr ⟨hp.plain, hq.plain⟩

theorem Declares.temporary (name : String) (ty : Source.Ty) (value : Rhs) :
    (Prelude.temporary name ty value).Declares [name] :=
  ⟨rfl, rfl, by simp [Prelude.temporary, Instr.isTransfer]⟩

theorem Declares.ofCode {code : List Instr} (ha : ∀ i ∈ code, i.assigned? = none)
    (hp : ∀ i ∈ code, i.isTransfer = false) : (Prelude.ofCode code).Declares [] :=
  ⟨rfl, List.filterMap_eq_nil_iff.mpr ha, hp⟩

theorem Declares.helperCall (name : String) (args : List Operand) :
    (Prelude.ofCode [BlockLowering.helperCall name args]).Declares [] :=
  .ofCode (by simp [BlockLowering.helperCall, Instr.assigned?])
    (by simp [BlockLowering.helperCall, Instr.isTransfer])

theorem Declares.guardedOffset (ctx : Context) (length offset : String) (index list : Operand) :
    (BlockLowering.guardedOffset ctx length offset index list).Declares [length, offset] :=
  ((Declares.temporary length _ _).append (Declares.helperCall _ _)).append
    (Declares.temporary offset _ _)

end Prelude

theorem exists_store_of_mem {list : Operand} {offset : Nat} {values : List Operand} {i : Instr}
    (h : i ∈ storeElements list offset values) : ∃ base k value, i = .store base (.word k) value := by
  induction values generalizing offset with
  | nil => cases h
  | cons v rest ih =>
    rcases List.mem_cons.mp h with rfl | h
    · exact ⟨_, _, _, rfl⟩
    · exact ih h

theorem storeElements_stores (list : Operand) (offset : Nat) (values : List Operand) :
    ∀ i ∈ storeElements list offset values, i.assigned? = none ∧ i.isTransfer = false := by
  intro i hi
  obtain ⟨base, k, value, rfl⟩ := exists_store_of_mem hi
  exact ⟨rfl, rfl⟩

theorem newObject_declares (ctx : Context) (note : Source.Note) (className : String)
    (fields : ClassLayout) (name : String) :
    (newObject ctx note className fields name).Declares [name] := by
  have hstores : (Prelude.ofCode (fields.values.map fun slot =>
      Instr.store (.var name) (.word slot.offset) slot.initial)).Declares [] :=
    .ofCode (by simp [Instr.assigned?]) (by simp [Instr.isTransfer])
  exact ((Prelude.Declares.temporary name _ _).append hstores).append (.helperCall _ _)

theorem newList_declares (note : Source.Note) (name : String) (size : Nat)
    {xs : WithPrelude (List Operand)} {t : List String} (h : xs.prelude.Declares t) :
    (newList note name size xs).Declares (name :: t) := by
  have hs := storeElements_stores (.var name) 1 xs.value
  have hstores : (Prelude.ofCode (.store (.var name) (.word 0) (.num size) ::
      storeElements (.var name) 1 xs.value)).Declares [] :=
    .ofCode (List.forall_mem_cons.mpr ⟨rfl, fun i hi => (hs i hi).1⟩)
      (List.forall_mem_cons.mpr ⟨rfl, fun i hi => (hs i hi).2⟩)
  have hall := ((Prelude.Declares.temporary name note.ty
    (.alloc (.word (UInt32.ofNat (size + 1))))).append h).append hstores
  rwa [List.append_nil] at hall

mutual

theorem Flattens.declares {a b : Names} {e : Expr} {x : WithPrelude Rhs} {t : List String} :
    Flattens ctx a e x b t → x.prelude.Declares t
  | .unary h | .builtin1 h | .field _ h => h.declares
  | .binary hl hr | .builtin2 hl hr => hl.declares.append hr.declares
  | .call h => h.declares
  | .methodCall _ hr h => by
    simpa using (hr.declares.append h.declares).append (.helperCall _ _)
  | .index hr hi => (hr.declares.append hi.declares).append (.guardedOffset ctx _ _ _ _)
  | .construct _ => newObject_declares ctx _ _ _ _
  | .listLiteral h => newList_declares _ _ _ h.declares
  | .var | .literal => .empty

theorem FlattensOperand.declares {a b : Names} {e : Expr} {x : WithPrelude Operand}
    {t : List String} : FlattensOperand ctx a e x b t → x.prelude.Declares t
  | .value h => h.declares
  | .temporary h _ => h.declares.append (.temporary _ _ _)

theorem FlattensAll.declares {a b : Names} {es : List Expr} {xs : WithPrelude (List Operand)}
    {t : List String} : FlattensAll ctx a es xs b t → xs.prelude.Declares t
  | .nil => .empty
  | .cons h hs => h.declares.append hs.declares

end

theorem FlattensAll.length_eq {a b : Names} {es : List Expr} {xs : WithPrelude (List Operand)}
    {t : List String} (h : FlattensAll ctx a es xs b t) : xs.value.length = es.length := by
  induction es generalizing a xs t with
  | nil =>
    cases h
    rfl
  | cons e es ih =>
    cases h with
    | cons _ hs => exact congrArg (· + 1) (ih hs)

theorem Flat.Operand.ofLiteral_ne_var (value : Source.Literal) (name : String) :
    Operand.ofLiteral value ≠ .var name := by
  cases value <;> simp [Operand.ofLiteral]

theorem Flattens.of_varName {a b : Names} {e : Expr} {p : Prelude} {v : Operand}
    {t : List String} {y : String} (h : Flattens ctx a e ⟨p, .operand v⟩ b t)
    (he : e.varName? = some y) : p = ∅ ∧ v = .var y := by
  cases h with
  | var =>
    cases he
    exact ⟨rfl, rfl⟩
  | _ => cases he

theorem Flattens.operand_temporary {a b : Names} {e : Expr} {x : WithPrelude Rhs}
    {t : List String} (h : Flattens ctx a e x b t) (he : e.varName? = none) {y : String}
    (hx : x.value = .operand (.var y)) : y ∈ t := by
  cases h with
  | construct hf =>
    cases hx
    exact List.mem_cons_self
  | listLiteral hs =>
    cases hx
    exact List.mem_cons_self
  | var => cases he
  | literal => exact absurd (Rhs.operand.inj hx) (Operand.ofLiteral_ne_var _ y)
  | _ => cases hx

theorem Flattens.operand_mem {a b : Names} {e : Expr} {x : WithPrelude Rhs} {t : List String}
    (h : Flattens ctx a e x b t) {name : String} (hx : x.value = .operand (.var name)) :
    name ∈ e.vars ∨ name ∈ t := by
  cases he : e.varName? with
  | none => exact Or.inr (h.operand_temporary he hx)
  | some y =>
    obtain ⟨p, r⟩ := x
    obtain rfl : r = .operand (.var name) := hx
    obtain ⟨-, hv⟩ := h.of_varName he
    cases hv
    exact Or.inl (Expr.mem_vars_of_varName he)

theorem FlattensOperand.operand_mem {a b : Names} {e : Expr} {x : WithPrelude Operand}
    {t : List String} (h : FlattensOperand ctx a e x b t) {name : String}
    (hx : x.value = .var name) : name ∈ e.vars ∨ name ∈ t := by
  cases h with
  | value h => exact h.operand_mem (congrArg Rhs.operand hx)
  | temporary h hr =>
    cases hx
    exact Or.inr (by simp)

end BlockLowering
