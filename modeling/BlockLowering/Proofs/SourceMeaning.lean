import BlockLowering.Flatten.Expression
import BlockLowering.Proofs.Runtime
import BlockLowering.Proofs.SourceTrees

/-! What source programs mean on a runtime. Operands are evaluated from left to right and all of
them, also those of `and` and `or`. A method call checks the receiver after the arguments are there.
An element is found through the length of its list, the check of the index, and the offset that
follows from it. The test of a loop comes before each round, and a return ends the whole body. -/

namespace BlockLowering.Source

variable {V H : Type} (m : Runtime V H) (ctx : Context)

/-- The slot of a field in the class a receiver is typed with. -/
def fieldSlot? (layout : Layout) (receiver : Expr) (field : String) : Option Slot := do
  let className ← receiver.ty.objectName?
  let fields ← layout.fields? className
  fields.get? field

/-- The offset of an element, once the index has passed the check. -/
def elementOffset (list index : V) (heap : H) : Option (V × H) := do
  let length ← m.load list (m.word 0) heap
  let (_, heap) ← m.call ctx.settings.boundsHelper [length, index] heap
  m.binary .plus index (m.word 1) heap

/-- Fills the words of a new object with the initial values of its fields. -/
def fillFields (env : String → V) (object : V) : List Slot → H → Option H
  | [], heap => some heap
  | slot :: rest, heap => do
    let heap ← m.store object (m.word slot.offset) (slot.initial.value m env) heap
    fillFields env object rest heap

/-- Stores values in the words of a list from `offset` on. -/
def fill (list : V) (offset : Nat) : List V → H → Option H
  | [], heap => some heap
  | v :: rest, heap => do
    let heap ← m.store list (m.word (UInt32.ofNat offset)) v heap
    fill list (offset + 1) rest heap

mutual

/-- The value of an expression and the memory afterwards; nothing if it traps. -/
def Expr.eval (env : String → V) : Expr → H → Option (V × H)
  | .unary _ op e, heap => do
    let (v, heap) ← e.eval env heap
    m.unary op v heap
  | .binary _ op l r, heap => do
    let (v, heap) ← l.eval env heap
    let (w, heap) ← r.eval env heap
    m.binary op v w heap
  | .builtin1 _ name e, heap => do
    let (v, heap) ← e.eval env heap
    m.builtin1 name v heap
  | .builtin2 _ name l r, heap => do
    let (v, heap) ← l.eval env heap
    let (w, heap) ← r.eval env heap
    m.builtin2 name v w heap
  | .call _ name args, heap => do
    let (vs, heap) ← Expr.evalAll env args heap
    m.call name vs heap
  | .methodCall _ receiver method args, heap => do
    let className ← receiver.ty.objectName?
    let (v, heap) ← receiver.eval env heap
    let (vs, heap) ← Expr.evalAll env args heap
    let (_, heap) ← m.call ctx.settings.notNoneHelper [v] heap
    m.call (ctx.settings.methodName className method) (v :: vs) heap
  | .field _ receiver name, heap => do
    let slot ← fieldSlot? ctx.layout receiver name
    let (v, heap) ← receiver.eval env heap
    let w ← m.load v (m.word slot.offset) heap
    some (w, heap)
  | .index _ receiver i, heap => do
    let (v, heap) ← receiver.eval env heap
    let (w, heap) ← i.eval env heap
    let (offset, heap) ← elementOffset m ctx v w heap
    let element ← m.load v offset heap
    some (element, heap)
  | .construct _ className, heap => do
    let fields ← ctx.layout.fields? className
    let (v, heap) ← m.alloc (m.word (UInt32.ofNat fields.size)) heap
    let heap ← fillFields m env v fields.values heap
    let (_, heap) ← m.call (ctx.settings.methodName className ctx.settings.initMethod) [v] heap
    some (v, heap)
  | .listLiteral _ elements, heap => do
    let (v, heap) ← m.alloc (m.word (UInt32.ofNat (elements.length + 1))) heap
    let (vs, heap) ← Expr.evalAll env elements heap
    let heap ← m.store v (m.word 0) (m.num elements.length) heap
    let heap ← fill m v 1 vs heap
    some (v, heap)
  | .var _ name, heap => some (env name, heap)
  | .literal _ value, heap => some ((Flat.Operand.ofLiteral value).value m env, heap)

def Expr.evalAll (env : String → V) : List Expr → H → Option (List V × H)
  | [], heap => some ([], heap)
  | e :: es, heap => do
    let (v, heap) ← e.eval env heap
    let (vs, heap) ← Expr.evalAll env es heap
    some (v :: vs, heap)

end

/-- The truth of a condition and the memory after it. -/
def Expr.test (cond : Expr) (s : State V H) : Option (Bool × H) := do
  let (v, heap) ← cond.eval m ctx s.env s.heap
  let b ← m.truth v
  some (b, heap)

/-- A statement without blocks of its own. -/
def Stmt.perform (s : State V H) : Stmt → Option (Ending V H)
  | .assign _ name e => do
    let (v, heap) ← e.eval m ctx s.env s.heap
    some (.finished (s.assign name v heap))
  | .ret _ e => do
    let (v, heap) ← e.eval m ctx s.env s.heap
    some (.returned v { s with heap := heap })
  | .eval _ e => do
    let (_, heap) ← e.eval m ctx s.env s.heap
    some (.finished { s with heap := heap })
  | .assignField _ receiver name value => do
    let slot ← fieldSlot? ctx.layout receiver name
    let (v, heap) ← receiver.eval m ctx s.env s.heap
    let (w, heap) ← value.eval m ctx s.env heap
    let heap ← m.store v (m.word slot.offset) w heap
    some (.finished { s with heap := heap })
  | .assignIndex _ receiver index value => do
    let (v, heap) ← receiver.eval m ctx s.env s.heap
    let (i, heap) ← index.eval m ctx s.env heap
    let (w, heap) ← value.eval m ctx s.env heap
    let (offset, heap) ← elementOffset m ctx v i heap
    let heap ← m.store v offset w heap
    some (.finished { s with heap := heap })
  | .pass _ | .ifElse .. | .whileLoop .. => some (.finished s)

/-- A loop of at most the given number of rounds; nothing if they do not suffice. -/
def loop (test : State V H → Option (Bool × H)) (body : State V H → Option (Ending V H)) :
    Nat → State V H → Option (Ending V H)
  | 0, _ => none
  | rounds + 1, s =>
    match test s with
    | none => some .trapped
    | some (false, heap) => some (.finished { s with heap := heap })
    | some (true, heap) =>
      match body { s with heap := heap } with
      | some (.finished t) => loop test body rounds t
      | result => result

mutual

/-- How a statement ends when every loop may take the given number of rounds; nothing if one of
them needs more. -/
def Stmt.exec (rounds : Nat) : Stmt → State V H → Option (Ending V H)
  | .ifElse _ cond thenBody elseBody, s =>
    match cond.test m ctx s with
    | none => some .trapped
    | some (true, heap) => exec rounds thenBody { s with heap := heap }
    | some (false, heap) => exec rounds elseBody { s with heap := heap }
  | .whileLoop _ cond body, s => loop (cond.test m ctx) (exec rounds body) rounds s
  | stmt, s => some ((stmt.perform m ctx s).getD .trapped)

def exec (rounds : Nat) : List Stmt → State V H → Option (Ending V H)
  | [], s => some (.finished s)
  | stmt :: rest, s =>
    match stmt.exec rounds s with
    | some (.finished t) => exec rounds rest t
    | result => result

end

/-- A run of a body ends. -/
def Ends (body : List Stmt) (s : State V H) (e : Ending V H) : Prop :=
  ∃ rounds, exec m ctx rounds body s = some e

/-- However many rounds loops may take, a run of a body needs more. -/
def Diverges (body : List Stmt) (s : State V H) : Prop :=
  ∀ rounds, exec m ctx rounds body s = none

variable {m ctx}

theorem loop_mono {test : State V H → Option (Bool × H)}
    {body body' : State V H → Option (Ending V H)}
    (hb : ∀ s e, body s = some e → body' s = some e) {rounds rounds' : Nat}
    (hr : rounds ≤ rounds') {s : State V H} {e : Ending V H}
    (h : loop test body rounds s = some e) : loop test body' rounds' s = some e := by
  induction rounds generalizing rounds' s with
  | zero => cases h
  | succ rounds ih =>
    obtain ⟨k, rfl⟩ : ∃ k, rounds' = k + 1 := ⟨rounds' - 1, by omega⟩
    rw [loop] at h ⊢
    cases ht : test s with
    | none => simpa only [ht] using h
    | some r =>
      obtain ⟨b, heap⟩ := r
      simp only [ht] at h ⊢
      cases b with
      | false => exact h
      | true =>
        cases hbody : body ⟨s.env, heap⟩ with
        | none => simp [hbody] at h
        | some e' =>
          simp only [hbody, hb _ e' hbody] at h ⊢
          cases e' with
          | finished t => exact ih (by omega) h
          | returned v t => exact h
          | trapped => exact h

theorem Stmt.exec_plain {stmt : Stmt} (h : stmt.isPlain = true) (rounds : Nat) (s : State V H) :
    stmt.exec m ctx rounds s = some ((stmt.perform m ctx s).getD .trapped) := by
  cases stmt with
  | ifElse note cond thenBody elseBody => cases h
  | whileLoop note cond body => cases h
  | _ => rfl

theorem exec_cons_mono {rounds rounds' : Nat} {stmt : Stmt} {rest : List Stmt}
    (hstmt : ∀ s e, stmt.exec m ctx rounds s = some e → stmt.exec m ctx rounds' s = some e)
    (hrest : ∀ s e, exec m ctx rounds rest s = some e → exec m ctx rounds' rest s = some e)
    {s : State V H} {e : Ending V H} (h : exec m ctx rounds (stmt :: rest) s = some e) :
    exec m ctx rounds' (stmt :: rest) s = some e := by
  rw [exec] at h ⊢
  cases hs : stmt.exec m ctx rounds s with
  | none => simp [hs] at h
  | some e' =>
    simp only [hs, hstmt s e' hs] at h ⊢
    cases e' with
    | finished t => exact hrest t e h
    | returned v t => exact h
    | trapped => exact h

/-- More rounds do not change how a run ends. -/
theorem exec_mono {rounds rounds' : Nat} (hr : rounds ≤ rounds') {body : List Stmt}
    {s : State V H} {e : Ending V H} (h : exec m ctx rounds body s = some e) :
    exec m ctx rounds' body s = some e := by
  induction body using Stmt.bodyInduction generalizing s e with
  | nil => exact h
  | plain stmt rest hp ih =>
    refine exec_cons_mono (fun s e hs => ?_) (fun _ _ => ih) h
    rwa [Stmt.exec_plain hp] at hs ⊢
  | ifElse note cond thenBody elseBody rest iht ihe ih =>
    refine exec_cons_mono (fun s e hs => ?_) (fun _ _ => ih) h
    rw [Stmt.exec] at hs ⊢
    cases hc : cond.test m ctx s with
    | none => simpa only [hc] using hs
    | some r =>
      obtain ⟨b, heap⟩ := r
      simp only [hc] at hs ⊢
      cases b with
      | true => exact iht hs
      | false => exact ihe hs
  | whileLoop note cond body rest ihb ih =>
    refine exec_cons_mono (fun s e hs => ?_) (fun _ _ => ih) h
    rw [Stmt.exec] at hs ⊢
    exact loop_mono (fun _ _ => ihb) hr hs

theorem Ends.unique {body : List Stmt} {s : State V H} {e e' : Ending V H}
    (h : Ends m ctx body s e) (h' : Ends m ctx body s e') : e = e' := by
  obtain ⟨rounds, hr⟩ := h
  obtain ⟨rounds', hr'⟩ := h'
  have he := exec_mono (Nat.le_max_left rounds rounds') hr
  have he' := exec_mono (Nat.le_max_right rounds rounds') hr'
  exact Option.some.inj (he.symm.trans he')

end BlockLowering.Source
