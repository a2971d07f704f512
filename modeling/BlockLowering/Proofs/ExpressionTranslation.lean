import BlockLowering.Flatten.Expression
import BlockLowering.Proofs.LoweringSteps
import BlockLowering.Proofs.SourceMeaning
import BlockLowering.Proofs.SourceTrees

/-! Flattening of expressions as a relation between a supply of names, an expression, what it is
flattened to, the supply afterwards and the names drawn. It has a rule for every kind of
expression and says nothing of faults. Facts about flattened expressions are proved once for
each rule. -/

namespace BlockLowering

open Source (Ty Note Expr UnaryOp BinaryOp Literal)
open Flat (Operand Rhs Instr Decl)

theorem yields_check {α : Type} {result : Except Fault α} {a : α} {names after : Names}
    {t : List String} :
    (check result).Yields names a after t ↔ result = .ok a ∧ after = names ∧ t = [] := by
  change Outcome.mk _ _ _ = _ ↔ _
  simp only [Outcome.mk.injEq, eq_comm]

theorem requireObject_eq_ok {access : Access} {e : Expr} {className : String}
    (h : requireObject access e = .ok className) : e.ty.objectName? = some className := by
  unfold requireObject at h
  split at h
  · simp_all
  · cases h

theorem requireClass_eq_ok {layout : Layout} {className : String} {loc : Source.Loc}
    {fields : ClassLayout} (h : requireClass layout className loc = .ok fields) :
    layout.fields? className = some fields := by
  unfold requireClass at h
  split at h
  · simp_all
  · cases h

theorem requireField_eq_ok {layout : Layout} {access : Access} {e : Expr} {field : String}
    {slot : Slot} (h : requireField layout access e field = .ok slot) :
    Source.fieldSlot? layout e field = some slot := by
  unfold requireField at h
  rcases hc : requireObject access e with _ | className
  · simp [hc, bind, Except.bind] at h
  · rcases hf : requireClass layout className e.loc with _ | fields
    · simp [hc, hf, bind, Except.bind] at h
    · simp only [hc, hf, bind, Except.bind] at h
      split at h
      · simp_all [Source.fieldSlot?, requireObject_eq_ok hc, requireClass_eq_ok hf]
      · cases h

/-- What runs before an element is accessed: the length of the list is read, the index checked
against it, and the offset of the element computed. -/
def guardedOffset (ctx : Context) (length offset : String) (index list : Operand) : Prelude :=
  .temporary length .number (.load list (.word 0)) ++
    .ofCode [helperCall ctx.settings.boundsHelper [.var length, index]] ++
    .temporary offset .number (.binary .plus index (.word 1))

/-- What makes an object and stores it in `name`. -/
def newObject (ctx : Context) (note : Note) (className : String) (fields : ClassLayout)
    (name : String) : Prelude :=
  .temporary name note.ty (.alloc (.word (UInt32.ofNat fields.size))) ++
    .ofCode (fields.values.map fun slot => .store (.var name) (.word slot.offset) slot.initial) ++
    .ofCode [helperCall (ctx.settings.methodName className ctx.settings.initMethod) [.var name]]

/-- What makes a list of `size` elements and stores it in `name`. -/
def newList (note : Note) (name : String) (size : Nat) (xs : WithPrelude (List Operand)) :
    Prelude :=
  .temporary name note.ty (.alloc (.word (UInt32.ofNat (size + 1)))) ++ xs.prelude ++
    .ofCode (.store (.var name) (.word 0) (.num size) :: storeElements (.var name) 1 xs.value)

mutual

inductive Flattens (ctx : Context) :
    Names → Expr → WithPrelude Rhs → Names → List String → Prop
  | unary {a b t note op e x} : FlattensOperand ctx a e x b t →
      Flattens ctx a (.unary note op e) ⟨x.prelude, .unary op x.value⟩ b t
  | binary {a b c t u note op l r x y} : FlattensOperand ctx a l x b t →
      FlattensOperand ctx b r y c u →
      Flattens ctx a (.binary note op l r) ⟨x.prelude ++ y.prelude, .binary op x.value y.value⟩ c
        (t ++ u)
  | builtin1 {a b t note name e x} : FlattensOperand ctx a e x b t →
      Flattens ctx a (.builtin1 note name e) ⟨x.prelude, .builtin1 name x.value⟩ b t
  | builtin2 {a b c t u note name l r x y} : FlattensOperand ctx a l x b t →
      FlattensOperand ctx b r y c u →
      Flattens ctx a (.builtin2 note name l r)
        ⟨x.prelude ++ y.prelude, .builtin2 name x.value y.value⟩ c (t ++ u)
  | call {a b t note name args xs} : FlattensAll ctx a args xs b t →
      Flattens ctx a (.call note name args) ⟨xs.prelude, .call name xs.value⟩ b t
  | methodCall {a b c t u note receiver method args className x xs} :
      receiver.ty.objectName? = some className → FlattensOperand ctx a receiver x b t →
      FlattensAll ctx b args xs c u →
      Flattens ctx a (.methodCall note receiver method args)
        ⟨x.prelude ++ xs.prelude ++ .ofCode [helperCall ctx.settings.notNoneHelper [x.value]],
          .call (ctx.settings.methodName className method) (x.value :: xs.value)⟩ c (t ++ u)
  | field {a b t note receiver name slot x} :
      Source.fieldSlot? ctx.layout receiver name = some slot → FlattensOperand ctx a receiver x b t →
      Flattens ctx a (.field note receiver name)
        ⟨x.prelude, .load x.value (.word slot.offset)⟩ b t
  | index {a b c t u note receiver index x i} : FlattensOperand ctx a receiver x b t →
      FlattensOperand ctx b index i c u →
      Flattens ctx a (.index note receiver index)
        ⟨x.prelude ++ i.prelude ++ guardedOffset ctx (c.fresh Base.length)
            ((c.advance Base.length).fresh Base.offset) i.value x.value,
          .load x.value (.var ((c.advance Base.length).fresh Base.offset))⟩
        ((c.advance Base.length).advance Base.offset)
        (t ++ u ++ [c.fresh Base.length, (c.advance Base.length).fresh Base.offset])
  | construct {a note className fields} : ctx.layout.fields? className = some fields →
      Flattens ctx a (.construct note className)
        ⟨newObject ctx note className fields (a.fresh Base.object),
          .operand (.var (a.fresh Base.object))⟩
        (a.advance Base.object) [a.fresh Base.object]
  | listLiteral {a b t note elements xs} :
      FlattensAll ctx (a.advance Base.list) elements xs b t →
      Flattens ctx a (.listLiteral note elements)
        ⟨newList note (a.fresh Base.list) elements.length xs,
          .operand (.var (a.fresh Base.list))⟩ b (a.fresh Base.list :: t)
  | var {a note name} : Flattens ctx a (.var note name) ⟨∅, .operand (.var name)⟩ a []
  | literal {a note value} :
      Flattens ctx a (.literal note value) ⟨∅, .operand (.ofLiteral value)⟩ a []

/-- An expression flattened to an operand: a composite result is put in a temporary. -/
inductive FlattensOperand (ctx : Context) :
    Names → Expr → WithPrelude Operand → Names → List String → Prop
  | value {a b t e p v} : Flattens ctx a e ⟨p, .operand v⟩ b t →
      FlattensOperand ctx a e ⟨p, v⟩ b t
  | temporary {a b t e p r} : Flattens ctx a e ⟨p, r⟩ b t → (∀ v, r ≠ .operand v) →
      FlattensOperand ctx a e
        ⟨p ++ .temporary (b.fresh Base.operand) e.ty r, .var (b.fresh Base.operand)⟩
        (b.advance Base.operand) (t ++ [b.fresh Base.operand])

inductive FlattensAll (ctx : Context) :
    Names → List Expr → WithPrelude (List Operand) → Names → List String → Prop
  | nil {a} : FlattensAll ctx a [] ⟨∅, []⟩ a []
  | cons {a b c t u e es x xs} : FlattensOperand ctx a e x b t → FlattensAll ctx b es xs c u →
      FlattensAll ctx a (e :: es) ⟨x.prelude ++ xs.prelude, x.value :: xs.value⟩ c (t ++ u)

end

variable {ctx : Context}

theorem flattenOperand_bind {α : Type} (e : Expr) (next : WithPrelude Operand → Draw α) :
    flattenOperand ctx e >>= next = (do
      let flat ← flatten ctx e
      let x ← asOperand e.ty flat
      next x) :=
  Draw.bind_assoc _ _ _

theorem flatten_unary (note : Note) (op : UnaryOp) (e : Expr) :
    flatten ctx (.unary note op e) = (do
      let x ← flattenOperand ctx e
      pure ⟨x.prelude, .unary op x.value⟩) := by
  simp only [flattenOperand_bind]
  rfl

theorem flatten_binary (note : Note) (op : BinaryOp) (l r : Expr) :
    flatten ctx (.binary note op l r) = (do
      let x ← flattenOperand ctx l
      let y ← flattenOperand ctx r
      pure ⟨x.prelude ++ y.prelude, .binary op x.value y.value⟩) := by
  simp only [flattenOperand_bind]
  rfl

theorem flatten_builtin1 (note : Note) (name : String) (e : Expr) :
    flatten ctx (.builtin1 note name e) = (do
      let x ← flattenOperand ctx e
      pure ⟨x.prelude, .builtin1 name x.value⟩) := by
  simp only [flattenOperand_bind]
  rfl

theorem flatten_builtin2 (note : Note) (name : String) (l r : Expr) :
    flatten ctx (.builtin2 note name l r) = (do
      let x ← flattenOperand ctx l
      let y ← flattenOperand ctx r
      pure ⟨x.prelude ++ y.prelude, .builtin2 name x.value y.value⟩) := by
  simp only [flattenOperand_bind]
  rfl

theorem flatten_methodCall (note : Note) (receiver : Expr) (method : String) (args : List Expr) :
    flatten ctx (.methodCall note receiver method args) = (do
      let className ← check (requireObject .methodCall receiver)
      let x ← flattenOperand ctx receiver
      let xs ← flattenAll ctx args
      pure ⟨x.prelude ++ xs.prelude ++
        .ofCode [helperCall ctx.settings.notNoneHelper [x.value]],
        .call (ctx.settings.methodName className method) (x.value :: xs.value)⟩) := by
  simp only [flattenOperand_bind]
  rfl

theorem flatten_field (note : Note) (receiver : Expr) (name : String) :
    flatten ctx (.field note receiver name) = (do
      let slot ← check (requireField ctx.layout .fieldLookup receiver name)
      let x ← flattenOperand ctx receiver
      pure ⟨x.prelude, .load x.value (.word slot.offset)⟩) := by
  simp only [flattenOperand_bind]
  rfl

theorem flatten_index (note : Note) (receiver index : Expr) :
    flatten ctx (.index note receiver index) = (do
      check (requireList .index receiver)
      let x ← flattenOperand ctx receiver
      let i ← flattenOperand ctx index
      let o ← elementOffset ctx i.value x.value
      pure ⟨x.prelude ++ i.prelude ++ o.prelude, .load x.value o.value⟩) := by
  simp only [flattenOperand_bind]
  rfl

theorem yields_elementOffset {index list : Operand} {o : WithPrelude Operand} {a b : Names}
    {t : List String} :
    (elementOffset ctx index list).Yields a o b t ↔
      o = ⟨guardedOffset ctx (a.fresh Base.length) ((a.advance Base.length).fresh Base.offset)
          index list, .var ((a.advance Base.length).fresh Base.offset)⟩ ∧
      b = (a.advance Base.length).advance Base.offset ∧
      t = [a.fresh Base.length, (a.advance Base.length).fresh Base.offset] := by
  have he : elementOffset ctx index list a =
      ⟨.ok ⟨guardedOffset ctx (a.fresh Base.length) ((a.advance Base.length).fresh Base.offset)
        index list, .var ((a.advance Base.length).fresh Base.offset)⟩,
        (a.advance Base.length).advance Base.offset,
        [a.fresh Base.length, (a.advance Base.length).fresh Base.offset]⟩ := rfl
  rw [Lower.Yields, he]
  simp only [Outcome.mk.injEq, Except.ok.injEq, eq_comm]

theorem asOperand_flattens {e : Expr} {flat : WithPrelude Rhs} {x : WithPrelude Operand}
    {a b c : Names} {t u : List String} (h : Flattens ctx a e flat b t)
    (hx : (asOperand e.ty flat).Yields b x c u) : FlattensOperand ctx a e x c (t ++ u) := by
  obtain ⟨p, r⟩ := flat
  unfold asOperand at hx
  split at hx
  · rename_i v hv
    obtain ⟨rfl, rfl, rfl⟩ := Lower.yields_pure.mp hx
    obtain rfl : r = .operand v := hv
    simpa using FlattensOperand.value h
  · rename_i hr
    obtain ⟨name, mid, t₁, t₂, hd, hp, rfl⟩ := Lower.yields_bind.mp hx
    obtain ⟨rfl, rfl, rfl⟩ := yields_draw.mp hd
    obtain ⟨rfl, rfl, rfl⟩ := Lower.yields_pure.mp hp
    exact .temporary h hr

theorem flattenOperand_flattens_of {e : Expr}
    (he : ∀ {a x b t}, (flatten ctx e).Yields a x b t → Flattens ctx a e x b t)
    {x : WithPrelude Operand} {a b : Names} {t : List String}
    (h : (flattenOperand ctx e).Yields a x b t) : FlattensOperand ctx a e x b t := by
  obtain ⟨flat, mid, t₁, t₂, hf, hx, rfl⟩ := Lower.yields_bind.mp h
  exact asOperand_flattens (he hf) hx

theorem flattenAll_cons (e : Expr) (es : List Expr) :
    flattenAll ctx (e :: es) = (do
      let x ← flattenOperand ctx e
      let xs ← flattenAll ctx es
      pure ⟨x.prelude ++ xs.prelude, x.value :: xs.value⟩) := by
  simp only [flattenOperand_bind]
  rfl

theorem flattenAll_flattens_of {es : List Expr}
    (hes : ∀ e ∈ es, ∀ {a x b t}, (flatten ctx e).Yields a x b t → Flattens ctx a e x b t)
    {xs : WithPrelude (List Operand)} {a b : Names} {t : List String}
    (h : (flattenAll ctx es).Yields a xs b t) : FlattensAll ctx a es xs b t := by
  induction es generalizing xs a t with
  | nil =>
    rw [flattenAll] at h
    obtain ⟨rfl, rfl, rfl⟩ := Lower.yields_pure.mp h
    exact .nil
  | cons e es ih =>
    rw [flattenAll_cons] at h
    simp only [Lower.yields_bind, Lower.yields_pure] at h
    obtain ⟨x, mid, t₁, _, hx, ⟨ys, mid', t₂, _, hys, ⟨rfl, rfl, rfl⟩, rfl⟩, rfl⟩ := h
    have hx' := flattenOperand_flattens_of (hes e (by simp)) hx
    have hys' := ih (fun e he => hes e (by simp [he])) hys
    simpa using FlattensAll.cons hx' hys'

theorem flatten_flattens {e : Expr} {a : Names} {x : WithPrelude Rhs} {b : Names} {t : List String}
    (h : (flatten ctx e).Yields a x b t) : Flattens ctx a e x b t := by
  induction e generalizing a x b t with
  | unary note op arg ih =>
    rw [flatten_unary] at h
    simp only [Lower.yields_bind, Lower.yields_pure] at h
    obtain ⟨y, mid, t₁, _, hy, ⟨rfl, rfl, rfl⟩, rfl⟩ := h
    simpa using Flattens.unary (flattenOperand_flattens_of ih hy)
  | binary note op l r ihl ihr =>
    rw [flatten_binary] at h
    simp only [Lower.yields_bind, Lower.yields_pure] at h
    obtain ⟨y, mid, t₁, _, hy, ⟨z, mid', t₂, _, hz, ⟨rfl, rfl, rfl⟩, rfl⟩, rfl⟩ := h
    simpa using Flattens.binary (flattenOperand_flattens_of ihl hy) (flattenOperand_flattens_of ihr hz)
  | builtin1 note name arg ih =>
    rw [flatten_builtin1] at h
    simp only [Lower.yields_bind, Lower.yields_pure] at h
    obtain ⟨y, mid, t₁, _, hy, ⟨rfl, rfl, rfl⟩, rfl⟩ := h
    simpa using Flattens.builtin1 (flattenOperand_flattens_of ih hy)
  | builtin2 note name l r ihl ihr =>
    rw [flatten_builtin2] at h
    simp only [Lower.yields_bind, Lower.yields_pure] at h
    obtain ⟨y, mid, t₁, _, hy, ⟨z, mid', t₂, _, hz, ⟨rfl, rfl, rfl⟩, rfl⟩, rfl⟩ := h
    simpa using Flattens.builtin2 (flattenOperand_flattens_of ihl hy) (flattenOperand_flattens_of ihr hz)
  | call note name args ih =>
    rw [flatten] at h
    simp only [Lower.yields_bind, Lower.yields_pure] at h
    obtain ⟨ys, mid, t₁, _, hys, ⟨rfl, rfl, rfl⟩, rfl⟩ := h
    simpa using Flattens.call (flattenAll_flattens_of ih hys)
  | methodCall note receiver method args ihr ih =>
    rw [flatten_methodCall] at h
    simp only [Lower.yields_bind, Lower.yields_pure, yields_check] at h
    obtain ⟨className, _, _, _, ⟨hc, rfl, rfl⟩,
      ⟨y, mid, t₁, _, hy, ⟨zs, mid', t₂, _, hzs, ⟨rfl, rfl, rfl⟩, rfl⟩, rfl⟩, rfl⟩ := h
    simpa using Flattens.methodCall (requireObject_eq_ok hc) (flattenOperand_flattens_of ihr hy)
      (flattenAll_flattens_of ih hzs)
  | field note receiver name ih =>
    rw [flatten_field] at h
    simp only [Lower.yields_bind, Lower.yields_pure, yields_check] at h
    obtain ⟨slot, _, _, _, ⟨hs, rfl, rfl⟩, ⟨y, mid, t₁, _, hy, ⟨rfl, rfl, rfl⟩, rfl⟩, rfl⟩ := h
    simpa using Flattens.field (requireField_eq_ok hs) (flattenOperand_flattens_of ih hy)
  | index note receiver index ihr ihi =>
    rw [flatten_index] at h
    simp only [Lower.yields_bind, Lower.yields_pure, yields_check] at h
    obtain ⟨_, _, _, _, ⟨_, rfl, rfl⟩, ⟨y, mid, t₁, _, hy, ⟨i, mid', t₂, _, hi,
      ⟨o, _, t₃, _, ho, ⟨rfl, rfl, rfl⟩, rfl⟩, rfl⟩, rfl⟩, rfl⟩ := h
    obtain ⟨rfl, rfl, rfl⟩ := yields_elementOffset.mp ho
    simpa using Flattens.index (flattenOperand_flattens_of ihr hy) (flattenOperand_flattens_of ihi hi)
  | construct note className =>
    rw [flatten] at h
    simp only [flattenConstruct, Lower.yields_bind, Lower.yields_pure, yields_check, yields_draw] at h
    obtain ⟨fields, _, _, _, ⟨hf, rfl, rfl⟩, ⟨_, _, _, _, ⟨rfl, rfl, rfl⟩, ⟨rfl, rfl, rfl⟩, rfl⟩, rfl⟩ := h
    exact .construct (requireClass_eq_ok hf)
  | listLiteral note elements ih =>
    rw [flatten] at h
    simp only [Lower.yields_bind, Lower.yields_pure, yields_draw] at h
    obtain ⟨_, _, _, _, ⟨rfl, rfl, rfl⟩, ⟨ys, mid, t₁, _, hys, ⟨rfl, rfl, rfl⟩, rfl⟩, rfl⟩ := h
    simp only [List.empty_eq, List.append_nil, List.singleton_append]
    exact .listLiteral (flattenAll_flattens_of ih hys)
  | var note name =>
    rw [flatten] at h
    obtain ⟨rfl, rfl, rfl⟩ := Lower.yields_pure.mp h
    exact .var
  | literal note value =>
    rw [flatten] at h
    obtain ⟨rfl, rfl, rfl⟩ := Lower.yields_pure.mp h
    exact .literal

theorem flattenOperand_flattens {e : Expr} {x : WithPrelude Operand} {a b : Names}
    {t : List String} (h : (flattenOperand ctx e).Yields a x b t) : FlattensOperand ctx a e x b t :=
  flattenOperand_flattens_of flatten_flattens h

end BlockLowering
