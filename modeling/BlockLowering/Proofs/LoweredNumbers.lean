import BlockLowering.Proofs.NeededNames
import BlockLowering.Proofs.ProgramBodies
import BlockLowering.Proofs.TemporaryReads

/-! The numbers in lowered programs. The text of a body says which numbers each of its instructions
has, and in which order: those of its literals, the lengths of its lists and the initial values in
its objects, all of them and no others. Declarations start from the numbers that they start from
in the source. -/

namespace BlockLowering

open Source (Expr Stmt Note bodyExprs)
open Flat (Operand Rhs Instr Block Decl)

def Source.Literal.number? : Source.Literal → Option Int
  | .num n => some n
  | _ => Option.none

def Flat.Operand.number? : Operand → Option Int
  | .num n => some n
  | _ => Option.none

theorem Flat.Operand.number?_ofLiteral (value : Source.Literal) :
    (Operand.ofLiteral value).number? = value.number? := by
  cases value <;> rfl

/-- The numbers among operands, in order. -/
def Flat.numbersOf (values : List Operand) : List Int := values.flatMap fun v => v.number?.toList

def Flat.Instr.numbers (i : Instr) : List Int := Flat.numbersOf i.operands

namespace Source

/-- The number that an expression is. -/
def Expr.number? : Expr → Option Int
  | .literal _ value => value.number?
  | _ => none

/-- The numbers among expressions, in order. -/
def numbersOf (es : List Expr) : List Int := es.flatMap fun e => e.number?.toList

/-- The numbers among the operands of the operation that a node is flattened to. -/
def Expr.numbers : Expr → List Int
  | .literal _ value => value.number?.toList
  | .unary _ _ e | .builtin1 _ _ e | .field _ e _ | .index _ e _ => numbersOf [e]
  | .binary _ _ l r | .builtin2 _ _ l r => numbersOf [l, r]
  | .call _ _ args => numbersOf args
  | .methodCall _ receiver _ args => numbersOf (receiver :: args)
  | .construct .. | .listLiteral .. | .var .. => []

/-- The row of the temporary that holds an expression when it is an operand. -/
def Expr.heldRow (e : Expr) : List (List Int) := if e.isComposite then [e.numbers] else []

/-- The numbers that a new object starts with, field by field. -/
def initialRows (layout : Layout) (className : String) : List (List Int) :=
  match layout.fields? className with
  | some fields => fields.values.map fun slot => Flat.numbersOf [slot.initial]
  | none => []

mutual

/-- The numbers in the code that runs before the operation of a node, a row for each instruction. -/
def Expr.numberRows (layout : Layout) : Expr → List (List Int)
  | .unary _ _ e | .builtin1 _ _ e | .field _ e _ => e.numberRows layout ++ e.heldRow
  | .binary _ _ l r | .builtin2 _ _ l r =>
    l.numberRows layout ++ l.heldRow ++ (r.numberRows layout ++ r.heldRow)
  | .call _ _ args => Expr.allNumberRows layout args
  | .methodCall _ receiver _ args =>
    receiver.numberRows layout ++ receiver.heldRow ++ Expr.allNumberRows layout args ++
      [numbersOf [receiver]]
  | .index _ receiver i =>
    receiver.numberRows layout ++ receiver.heldRow ++ (i.numberRows layout ++ i.heldRow) ++
      [numbersOf [receiver], numbersOf [i], numbersOf [i]]
  | .construct _ className => [] :: initialRows layout className ++ [[]]
  | .listLiteral _ elements =>
    [] :: Expr.allNumberRows layout elements ++
      [(elements.length : Int)] :: elements.map fun e => numbersOf [e]
  | .var .. | .literal .. => []

/-- The rows of operands. -/
def Expr.allNumberRows (layout : Layout) : List Expr → List (List Int)
  | [] => []
  | e :: es => e.numberRows layout ++ e.heldRow ++ Expr.allNumberRows layout es

end

def Expr.operandRows (layout : Layout) (e : Expr) : List (List Int) :=
  e.numberRows layout ++ e.heldRow

mutual

def Stmt.numberRows (layout : Layout) : Stmt → List (List Int)
  | .assign _ _ e | .eval _ e => e.numberRows layout ++ [e.numbers]
  | .ret _ e => e.operandRows layout ++ [numbersOf [e]]
  | .pass _ => []
  | .assignField _ receiver _ value =>
    receiver.operandRows layout ++ value.operandRows layout ++
      [numbersOf [receiver, value]]
  | .assignIndex _ receiver index value =>
    receiver.operandRows layout ++ index.operandRows layout ++ value.operandRows layout ++
      [numbersOf [receiver], numbersOf [index], numbersOf [index],
        numbersOf [receiver, value]]
  | .ifElse _ cond thenBody elseBody =>
    cond.operandRows layout ++ [numbersOf [cond]] ++ (bodyNumberRows layout thenBody ++ [[]]) ++
      (bodyNumberRows layout elseBody ++ [[]])
  | .whileLoop _ cond body =>
    [[]] ++ (cond.operandRows layout ++ [numbersOf [cond]]) ++ (bodyNumberRows layout body ++ [[]])

/-- The numbers in the code for a body, a row for each instruction. -/
def bodyNumberRows (layout : Layout) : List Stmt → List (List Int)
  | [] => []
  | stmt :: rest => stmt.numberRows layout ++ bodyNumberRows layout rest

end

theorem Expr.number?_of_isComposite {e : Expr} (h : e.isComposite = true) : e.number? = none := by
  cases e with
  | literal => cases h
  | _ => rfl

theorem Expr.numbers_of_not_isComposite {e : Expr} (h : ¬ e.isComposite = true) :
    e.numbers = numbersOf [e] := by
  cases e with
  | literal => exact (List.append_nil _).symm
  | construct | listLiteral | var => rfl
  | _ => exact absurd rfl h

section

variable {layout : Layout} {n : Int}

/-- The node itself brings the number into the code. -/
def Expr.Brings (layout : Layout) (n : Int) : Expr → Prop
  | .literal _ value => value = .num n
  | .listLiteral _ elements => n = elements.length
  | .construct _ className =>
    ∃ fields, layout.fields? className = some fields ∧ ∃ slot ∈ fields.values, slot.initial = .num n
  | _ => False

/-- One of the nodes brings the number into the code. -/
def Expr.Bring (layout : Layout) (n : Int) (nodes : List Expr) : Prop :=
  ∃ e ∈ nodes, e.Brings layout n

theorem Expr.bring_append {nodes more : List Expr} :
    Expr.Bring layout n (nodes ++ more) ↔ Expr.Bring layout n nodes ∨ Expr.Bring layout n more := by
  simp [Expr.Bring, or_and_right, exists_or]

theorem Expr.bring_allNodes {es : List Expr} : Expr.Bring layout n (Expr.allNodes es) ↔
    ∃ e ∈ es, Expr.Bring layout n e.nodes := by
  induction es with
  | nil => simp [Expr.allNodes, Expr.Bring]
  | cons e es ih => rw [Expr.allNodes, Expr.bring_append, ih, List.exists_mem_cons_iff]

/-- The number is in one of the rows. -/
def InRows (n : Int) (rows : List (List Int)) : Prop := ∃ row ∈ rows, n ∈ row

theorem inRows_nil : ¬ InRows n [] := by simp [InRows]

theorem inRows_cons {row : List Int} {rows : List (List Int)} :
    InRows n (row :: rows) ↔ n ∈ row ∨ InRows n rows := by
  simp [InRows]

theorem inRows_append {rows more : List (List Int)} :
    InRows n (rows ++ more) ↔ InRows n rows ∨ InRows n more := by
  simp [InRows, or_and_right, exists_or]

theorem mem_numbersOf_cons (e : Expr) (es : List Expr) :
    n ∈ numbersOf (e :: es) ↔ n ∈ numbersOf [e] ∨ n ∈ numbersOf es := by
  simp [numbersOf]

theorem inRows_initialRows {className : String} : InRows n (initialRows layout className) ↔
    ∃ fields, layout.fields? className = some fields ∧
      ∃ slot ∈ fields.values, slot.initial = .num n := by
  have hslot : ∀ v : Operand, n ∈ Flat.numbersOf [v] ↔ v = .num n := by
    intro v
    cases v <;> simp [Flat.numbersOf, Operand.number?, eq_comm]
  unfold initialRows
  cases layout.fields? className with
  | none => simp [InRows]
  | some fields => simp [InRows, hslot]

theorem Expr.inRows_operandRows (e : Expr) :
    InRows n (e.numberRows layout ++ e.heldRow) ∨ n ∈ numbersOf [e] ↔
      InRows n (e.numberRows layout) ∨ n ∈ e.numbers := by
  rw [inRows_append, Expr.heldRow]
  by_cases hc : e.isComposite = true
  · have hnone : numbersOf [e] = [] := by simp [numbersOf, Expr.number?_of_isComposite hc]
    rw [if_pos hc, hnone]
    simp [inRows_cons, inRows_nil]
  · rw [if_neg hc, Expr.numbers_of_not_isComposite hc]
    simp [inRows_nil]

theorem Expr.inRows_allNumberRows {es : List Expr} :
    InRows n (Expr.allNumberRows layout es) ∨ n ∈ numbersOf es ↔
      ∃ e ∈ es, InRows n (e.numberRows layout) ∨ n ∈ e.numbers := by
  induction es with
  | nil => simp [Expr.allNumberRows, inRows_nil, numbersOf]
  | cons e es ih =>
    rw [List.exists_mem_cons_iff, ← ih, ← e.inRows_operandRows, Expr.allNumberRows,
      inRows_append, mem_numbersOf_cons]
    grind only

/-- What a node has besides its operands is what it brings itself. -/
theorem Expr.inRows_node (e : Expr) :
    InRows n (e.numberRows layout) ∨ n ∈ e.numbers ↔
      e.Brings layout n ∨ ∃ o ∈ e.operands, InRows n (o.numberRows layout) ∨ n ∈ o.numbers := by
  rw [← Expr.inRows_allNumberRows]
  have hnil : n ∉ numbersOf [] := List.not_mem_nil
  cases e with
  | unary | builtin1 | field | binary | builtin2 =>
    simp only [Expr.numberRows, Expr.numbers, Expr.Brings, Expr.operands, Expr.allNumberRows,
      List.append_nil, false_or]
  | call => simp only [Expr.numberRows, Expr.numbers, Expr.Brings, Expr.operands, false_or]
  | methodCall note receiver method args =>
    simp only [Expr.numberRows, Expr.numbers, Expr.Brings, Expr.operands, Expr.allNumberRows,
      inRows_append, inRows_cons, inRows_nil, mem_numbersOf_cons receiver args]
    grind only
  | index note receiver i =>
    simp only [Expr.numberRows, Expr.numbers, Expr.Brings, Expr.operands, Expr.allNumberRows,
      inRows_append, inRows_cons, inRows_nil, mem_numbersOf_cons receiver [i]]
    grind only
  | construct =>
    simp only [Expr.numberRows, Expr.numbers, Expr.Brings, Expr.operands, Expr.allNumberRows,
      inRows_append, inRows_cons, inRows_nil, inRows_initialRows, List.not_mem_nil, hnil,
      or_false, false_or]
  | listLiteral note elements =>
    have helements : InRows n (elements.map fun e => numbersOf [e]) ↔ n ∈ numbersOf elements := by
      simp [InRows, numbersOf]
    simp only [Expr.numberRows, Expr.numbers, Expr.Brings, Expr.operands, inRows_append,
      inRows_cons, helements, List.mem_singleton, List.not_mem_nil]
    grind only
  | var =>
    simp only [Expr.numberRows, Expr.numbers, Expr.Brings, Expr.operands, Expr.allNumberRows,
      inRows_nil, List.not_mem_nil, hnil, or_false]
  | literal note value =>
    cases value <;> simp [Expr.numberRows, Expr.numbers, Expr.Brings, Expr.operands,
      Expr.allNumberRows, inRows_nil, hnil, Literal.number?, eq_comm]

theorem Expr.inRows_iff (e : Expr) :
    InRows n (e.numberRows layout) ∨ n ∈ e.numbers ↔ Expr.Bring layout n e.nodes := by
  induction e using Expr.operandInduction with
  | h e ih =>
    have hhead : Expr.Bring layout n e.nodes ↔
        e.Brings layout n ∨ Expr.Bring layout n (Expr.allNodes e.operands) := by
      rw [Expr.nodes_eq, Expr.Bring, List.exists_mem_cons_iff]
      rfl
    rw [e.inRows_node, hhead, Expr.bring_allNodes]
    exact or_congr_right (exists_congr fun o => and_congr_right fun ho => ih o ho)

theorem Expr.inRows_operand (e : Expr) :
    InRows n (e.operandRows layout) ∨ n ∈ numbersOf [e] ↔ Expr.Bring layout n e.nodes := by
  rw [Expr.operandRows, e.inRows_operandRows, e.inRows_iff]

theorem Stmt.inRows_iff {stmt : Stmt} (h : stmt.isPlain = true) :
    InRows n (stmt.numberRows layout) ↔ Expr.Bring layout n (Expr.allNodes stmt.exprs) := by
  cases stmt with
  | assign _ _ e | eval _ e =>
    rw [Stmt.numberRows, Stmt.exprs, Expr.allNodes, Expr.allNodes, List.append_nil, ← e.inRows_iff,
      inRows_append, inRows_cons]
    simp [inRows_nil]
  | ret _ e =>
    rw [Stmt.numberRows, Stmt.exprs, Expr.allNodes, Expr.allNodes, List.append_nil,
      ← e.inRows_operand, inRows_append, inRows_cons]
    simp [inRows_nil]
  | pass => simp [Stmt.numberRows, Stmt.exprs, Expr.allNodes, inRows_nil, Expr.Bring]
  | assignField _ receiver _ value =>
    simp only [Stmt.numberRows, Stmt.exprs, Expr.allNodes, List.append_nil, Expr.bring_append,
      ← Expr.inRows_operand, inRows_append, inRows_cons, inRows_nil,
      mem_numbersOf_cons receiver [value]]
    grind only
  | assignIndex _ receiver index value =>
    simp only [Stmt.numberRows, Stmt.exprs, Expr.allNodes, List.append_nil, Expr.bring_append,
      ← Expr.inRows_operand, inRows_append, inRows_cons, inRows_nil,
      mem_numbersOf_cons receiver [value]]
    grind only
  | ifElse | whileLoop => cases h

/-- The rows of a body have the numbers that its nodes bring, all of them and no others. -/
theorem inRows_bodyNumberRows (body : List Stmt) :
    InRows n (bodyNumberRows layout body) ↔ Expr.Bring layout n (bodyExprs body) := by
  have hrow : ¬ InRows n [[]] := by simp [InRows]
  induction body using Stmt.bodyInduction with
  | nil => simp [bodyNumberRows, bodyExprs, Stmt.allNodes, inRows_nil, Expr.Bring]
  | plain stmt rest hp ih =>
    rw [bodyNumberRows, inRows_append, Stmt.inRows_iff hp, bodyExprs_plain _ hp, Expr.bring_append]
    exact or_congr_right ih
  | ifElse note cond thenBody elseBody rest iht ihe ih =>
    simp only [bodyNumberRows, Stmt.numberRows, bodyExprs_ifElse, Expr.bring_append, inRows_append,
      inRows_cons, inRows_nil, hrow, iht, ihe, ih, ← cond.inRows_operand, or_false]
  | whileLoop note cond body rest ihb ih =>
    simp only [bodyNumberRows, Stmt.numberRows, bodyExprs_whileLoop, Expr.bring_append,
      inRows_append, inRows_cons, inRows_nil, hrow, ihb, ih, ← cond.inRows_operand, or_false,
      false_or]

end

end Source

open Source (bodyNumberRows)

variable {ctx : Context}

theorem FlattensOperand.number? {a b : Names} {e : Expr} {x : WithPrelude Operand}
    {t : List String} (h : FlattensOperand ctx a e x b t) : x.value.number? = e.number? := by
  cases h with
  | value h =>
    cases h with
    | literal => exact Operand.number?_ofLiteral _
    | _ => rfl
  | temporary h hr => exact (Expr.number?_of_isComposite (h.isComposite_iff.mpr hr)).symm

theorem FlattensAll.map_number? {a b : Names} {es : List Expr} {xs : WithPrelude (List Operand)}
    {t : List String} (h : FlattensAll ctx a es xs b t) :
    xs.value.map Operand.number? = es.map Expr.number? := by
  induction es generalizing a xs t with
  | nil =>
    cases h
    rfl
  | cons e es ih =>
    cases h with
    | cons h hs => exact congrArg₂ List.cons h.number? (ih hs)

theorem numbersOf_eq {values : List Operand} {es : List Expr}
    (h : values.map Operand.number? = es.map Expr.number?) :
    Flat.numbersOf values = Source.numbersOf es := by
  have hv : Flat.numbersOf values = (values.map Operand.number?).flatMap Option.toList :=
    (List.flatMap_map ..).symm
  rw [hv, h]
  exact List.flatMap_map ..

theorem FlattensOperand.numbers {a b : Names} {e : Expr} {x : WithPrelude Operand}
    {t : List String} (h : FlattensOperand ctx a e x b t) :
    Flat.numbersOf [x.value] = Source.numbersOf [e] :=
  numbersOf_eq (congrArg₂ List.cons h.number? rfl)

theorem FlattensOperand.numbers_pair {a b c d : Names} {e e' : Expr} {x y : WithPrelude Operand}
    {t u : List String} (hx : FlattensOperand ctx a e x b t)
    (hy : FlattensOperand ctx c e' y d u) :
    Flat.numbersOf [x.value, y.value] = Source.numbersOf [e, e'] :=
  numbersOf_eq (congrArg₂ List.cons hx.number? (congrArg₂ List.cons hy.number? rfl))

theorem Flattens.numbers {a b : Names} {e : Expr} {x : WithPrelude Rhs} {t : List String}
    (h : Flattens ctx a e x b t) : Flat.numbersOf x.value.operands = e.numbers := by
  cases h with
  | unary h | builtin1 h | field _ h => exact h.numbers
  | binary hl hr | builtin2 hl hr => exact hl.numbers_pair hr
  | call h => exact numbersOf_eq h.map_number?
  | methodCall _ hr h => exact numbersOf_eq (congrArg₂ List.cons hr.number? h.map_number?)
  | index hr hi => exact hr.numbers
  | construct | listLiteral | var => rfl
  | @literal _ _ value =>
    rw [Expr.numbers, ← Operand.number?_ofLiteral]
    exact List.append_nil _

theorem map_numbers_guardedOffset {a b c : Names} {receiver index : Expr}
    {x i : WithPrelude Operand} {t u : List String} (hr : FlattensOperand ctx a receiver x b t)
    (hi : FlattensOperand ctx b index i c u) (length offset : String) :
    (guardedOffset ctx length offset i.value x.value).code.map Instr.numbers =
      [Source.numbersOf [receiver], Source.numbersOf [index], Source.numbersOf [index]] := by
  rw [← hr.numbers, ← hi.numbers]
  rfl

theorem map_numbers_newObject {fields : ClassLayout} {className : String}
    (h : ctx.layout.fields? className = some fields) (note : Note) (name : String) :
    (newObject ctx note className fields name).code.map Instr.numbers =
      [] :: Source.initialRows ctx.layout className ++ [[]] := by
  simp only [newObject, Prelude.append_code, Prelude.ofCode, Prelude.temporary, List.map_append,
    List.map_map, Source.initialRows, h]
  rfl

theorem map_numbers_storeElements (name : String) (offset : Nat) (values : List Operand) :
    (storeElements (.var name) offset values).map Instr.numbers =
      values.map fun v => Flat.numbersOf [v] := by
  induction values generalizing offset with
  | nil => rfl
  | cons v rest ih => exact congrArg₂ List.cons rfl (ih (offset + 1))

theorem map_numbers_newList {a b : Names} {elements : List Expr} {xs : WithPrelude (List Operand)}
    {t : List String} (h : FlattensAll ctx a elements xs b t) (note : Note) (name : String) :
    (newList note name elements.length xs).code.map Instr.numbers =
      [] :: xs.prelude.code.map Instr.numbers ++
        [(elements.length : Int)] :: elements.map fun e => Source.numbersOf [e] := by
  have hvalues : (xs.value.map fun v => Flat.numbersOf [v]) =
      elements.map fun e => Source.numbersOf [e] := by
    have hrows := congrArg (List.map fun n => Option.toList n ++ []) h.map_number?
    rwa [List.map_map, List.map_map] at hrows
  simp only [newList, Prelude.append_code, Prelude.ofCode, Prelude.temporary, List.map_append,
    List.map_cons, map_numbers_storeElements, hvalues]
  rfl

mutual

theorem Flattens.numberRows {a b : Names} {e : Expr} {x : WithPrelude Rhs} {t : List String} :
    Flattens ctx a e x b t → x.prelude.code.map Instr.numbers = e.numberRows ctx.layout
  | .unary h | .builtin1 h | .field _ h => h.numberRows
  | .binary hl hr | .builtin2 hl hr => by
    rw [Prelude.append_code, List.map_append, hl.numberRows, hr.numberRows, Expr.numberRows]
    rfl
  | .call h => h.numberRows
  | .methodCall _ hr h => by
    rw [Prelude.append_code, Prelude.append_code, List.map_append, List.map_append, hr.numberRows,
      h.numberRows, Expr.numberRows, ← hr.numbers]
    rfl
  | .index hr hi => by
    rw [Prelude.append_code, Prelude.append_code, List.map_append, List.map_append, hr.numberRows,
      hi.numberRows, map_numbers_guardedOffset hr hi, Expr.numberRows]
    rfl
  | .construct hf => map_numbers_newObject hf _ _
  | .listLiteral h => by
    rw [map_numbers_newList h, h.numberRows, Expr.numberRows]
  | .var | .literal => rfl

theorem FlattensOperand.numberRows {a b : Names} {e : Expr} {x : WithPrelude Operand}
    {t : List String} : FlattensOperand ctx a e x b t →
      x.prelude.code.map Instr.numbers = e.operandRows ctx.layout
  | .value h => by
    have hc : ¬ e.isComposite = true := fun hc => h.isComposite_iff.mp hc _ rfl
    rw [Expr.operandRows, Expr.heldRow, if_neg hc, List.append_nil, h.numberRows]
  | .temporary h hr => by
    rw [Prelude.append_code, List.map_append, h.numberRows, Expr.operandRows, Expr.heldRow,
      if_pos (h.isComposite_iff.mpr hr), ← h.numbers]
    rfl

theorem FlattensAll.numberRows {a b : Names} {es : List Expr} {xs : WithPrelude (List Operand)}
    {t : List String} : FlattensAll ctx a es xs b t →
      xs.prelude.code.map Instr.numbers = Expr.allNumberRows ctx.layout es
  | .nil => rfl
  | .cons h hs => by
    rw [Prelude.append_code, List.map_append, h.numberRows, hs.numberRows, Expr.allNumberRows]
    rfl

end

theorem FlattensStmt.numberRows {a b : Names} {stmt : Stmt} {p : Prelude} {t : List String}
    (h : FlattensStmt ctx a stmt p b t) :
    p.code.map Instr.numbers = stmt.numberRows ctx.layout := by
  cases h with
  | assign h | eval h =>
    rw [Prelude.append_code, List.map_append, h.numberRows, Stmt.numberRows, ← h.numbers]
    rfl
  | ret h =>
    rw [Prelude.append_code, List.map_append, h.numberRows, Stmt.numberRows, ← h.numbers]
    rfl
  | pass => rfl
  | assignField _ hx hy =>
    simp only [Prelude.append_code, List.map_append, hx.numberRows, hy.numberRows, Stmt.numberRows,
      ← hx.numbers_pair hy]
    rfl
  | assignIndex hx hi hy =>
    simp only [Prelude.append_code, List.map_append, hx.numberRows, hi.numberRows, hy.numberRows,
      map_numbers_guardedOffset hx hi, Stmt.numberRows, ← hx.numbers_pair hy, List.append_assoc]
    rfl

theorem FlattensOperand.numberRows_testCode {a b : Names} {e : Expr} {x : WithPrelude Operand}
    {t : List String} (h : FlattensOperand ctx a e x b t) (thenLabel elseLabel : String) :
    (testCode x thenLabel elseLabel).map Instr.numbers =
      e.operandRows ctx.layout ++ [Source.numbersOf [e]] := by
  rw [testCode, List.map_append, h.numberRows, ← h.numbers]
  rfl

/-- The code for a body has the numbers that its text says, each at its place. -/
theorem Builds.numberRows {a b : Names} {body : List Stmt} {ds : List Decl} {f : Fragment}
    {t : List String} (h : Builds ctx a body ds f b t) :
    f.instrs.map Instr.numbers = bodyNumberRows ctx.layout body := by
  induction h with
  | nil => rfl
  | plain hs _ ih =>
    rw [Fragment.instrs_append, Fragment.instrs_ofCode, List.map_append, hs.numberRows, ih,
      bodyNumberRows]
  | ifElse _ hx _ _ _ iht ihe ih =>
    simp only [Fragment.instrs_append, Fragment.instrs_closing, List.map_append,
      hx.numberRows_testCode, iht, ihe, ih, bodyNumberRows, Stmt.numberRows, List.append_assoc]
    rfl
  | whileLoop _ hx _ _ ihb ih =>
    simp only [Fragment.instrs_append, Fragment.instrs_closing, List.map_append,
      hx.numberRows_testCode, ihb, ih, bodyNumberRows, Stmt.numberRows, List.append_assoc]
    rfl

theorem LowersBody.numberRows {body : List Stmt} {blocks : List Block}
    (h : LowersBody ctx body blocks) :
    (blocks.flatMap (·.code)).map Instr.numbers = bodyNumberRows ctx.layout body := by
  obtain ⟨entry, a, ds, f, b, t, -, hb, rfl⟩ := h
  rw [Fragment.instrs_toBlocks]
  exact hb.numberRows

/-- The variables or fields that start from numbers, with those numbers. -/
def Source.startNumbers (decls : List Source.Decl) : List (String × Int) :=
  decls.filterMap fun d => d.value.number?.map (d.name, ·)

@[inherit_doc Source.startNumbers]
def Flat.startNumbers (decls : List Decl) : List (String × Int) :=
  decls.filterMap fun d => d.value.number?.map (d.name, ·)

/-- The declarations of the top level, of each function, and class by class of the fields and of
each method. -/
def Source.Program.declared (p : Source.Program) : List (List Source.Decl) :=
  p.globals :: p.functions.map (·.locals) ++
    p.classes.flatMap fun c => c.fields :: c.methods.map (·.locals)

@[inherit_doc Source.Program.declared]
def Flat.Program.declared (p : Flat.Program) : List (List Decl) :=
  p.decls :: p.functions.map (·.decls) ++
    p.classes.flatMap fun c => c.fields :: c.methods.map (·.decls)

theorem startNumbers_ofSource (decls : List Source.Decl) :
    Flat.startNumbers (decls.map .ofSource) = Source.startNumbers decls := by
  simp [Flat.startNumbers, Source.startNumbers, List.filterMap_map, Function.comp_def,
    Decl.ofSource, Operand.number?_ofLiteral]

/-- Temporaries start from no value. -/
theorem Serves.startNumbers_append {a b : Names} {ns : List Need} {ds : List Decl}
    (h : Serves a ns ds b) (decls : List Source.Decl) :
    Flat.startNumbers (ds ++ decls.map .ofSource) = Source.startNumbers decls := by
  induction h with
  | nil => exact startNumbers_ofSource decls
  | @next _ _ need _ _ _ ih =>
    cases need with
    | label base => exact ih
    | temporary base ty => exact ih

theorem logBody_startNumbers {spans : List Span} {entry : String} {body : List Stmt}
    {ds : List Decl} {blocks : List Block} {a b : Names} {t : List Event}
    (h : (logBody spans ctx entry body).Yields a (ds, blocks) b t) (decls : List Source.Decl) :
    Flat.startNumbers (ds ++ decls.map .ofSource) = Source.startNumbers decls := by
  obtain ⟨steps, hy, rfl⟩ := Lower.yields_mapTrail.mp h
  obtain ⟨f, u, hb, -, -⟩ := buildBody_builds hy
  exact hb.serves.startNumbers_append decls

theorem flattenFunction_startNumbers {spans : List Span} {f : Source.Function} {g : Flat.Function}
    {a b : Names} {t : List Event} (h : (flattenFunction ctx spans f).Yields a g b t) :
    Flat.startNumbers g.decls = Source.startNumbers f.locals := by
  obtain ⟨ds, blocks, t', hb, -, rfl⟩ := flattenFunction_cases h
  exact logBody_startNumbers hb f.locals

theorem flattenProgram_startNumbers {p : Source.Program} {q : Flat.Program} {a b : Names}
    {t : List Event} (h : (flattenProgram ctx p).Yields a q b t) :
    List.Forall₂ (fun decls decls' => Flat.startNumbers decls' = Source.startNumbers decls)
      p.declared q.declared := by
  obtain ⟨ds, body, functions, classes, _, _, t₁, t₂, t₃, hb, hf, hc, -, rfl⟩ :=
    flattenProgram_cases h
  have hfunctions := Lower.each_yields_forall₂ flattenFunction_startNumbers hf
  have hclasses : List.Forall₂ (fun (c : Source.Class) (d : Flat.Class) =>
      d.fields = c.fields.map .ofSource ∧ List.Forall₂
        (fun f g => Flat.startNumbers g.decls = Source.startNumbers f.locals) c.methods d.methods)
      p.classes classes := by
    refine Lower.each_yields_forall₂ (fun hy => ?_) hc
    obtain ⟨methods, hm, rfl⟩ := flattenClass_parts hy
    exact ⟨rfl, Lower.each_yields_forall₂ flattenFunction_startNumbers hm⟩
  refine .cons (logBody_startNumbers hb p.globals) (List.rel_append ?_ ?_)
  · rwa [List.forall₂_map_left_iff, List.forall₂_map_right_iff]
  · refine List.rel_flatMap hclasses fun c d hcd => .cons ?_ ?_
    · rw [hcd.1, startNumbers_ofSource]
    · rw [List.forall₂_map_left_iff, List.forall₂_map_right_iff]
      exact hcd.2

end BlockLowering
