import BlockLowering.Session
import BlockLowering.Proofs.Fragments
import BlockLowering.Proofs.StatementTranslation

/-! Statements that are lowered into a body which others began. Lowering may as well work on that body
in place, block by block and instruction by instruction, and stop wherever it finds a fault: the
outcome is the same as when the statements are lowered alone and the result is appended. So what the
body holds has no influence on what is added to it, and nothing of it is changed. -/

namespace BlockLowering

open Source (Expr Stmt)
open Flat (Instr Decl Block)

namespace OpenBody

/-- Adds instructions to the open block. -/
def emit (a : OpenBody) (code : List Instr) : OpenBody :=
  { a with current := ⟨a.current.label, a.current.code ++ code⟩ }

/-- Closes the open block and opens another. -/
def openBlock (a : OpenBody) (label : String) : OpenBody := ⟨a.blocks, ⟨label, []⟩⟩

theorem blocks_openAll (finished : List Block) (current : Block) (blocks : List Block) :
    (openAll finished current blocks).blocks = finished ++ current :: blocks := by
  induction blocks generalizing finished current with
  | nil => rfl
  | cons b rest ih => rw [openAll, ih, List.append_assoc, List.singleton_append]

theorem blocks_append (a : OpenBody) (f : Fragment) : (a.append f).blocks =
    a.finished ++ ⟨a.current.label, a.current.code ++ f.head⟩ :: f.blocks :=
  blocks_openAll _ _ _

theorem blocks_new_append (label : String) (f : Fragment) :
    ((new label).append f).blocks = f.toBlocks label :=
  blocks_append (new label) f

/-- A body is given by its blocks. -/
theorem eq_of_blocks {a : OpenBody} {front : List Block} {b : Block}
    (h : a.blocks = front ++ [b]) : a = ⟨front, b⟩ := by
  obtain ⟨finished, current⟩ := a
  obtain ⟨rfl, hb⟩ := List.append_inj' h rfl
  obtain rfl : current = b := List.singleton_injective hb
  rfl

theorem blocks_injective {a b : OpenBody} (h : a.blocks = b.blocks) : a = b := eq_of_blocks h

theorem append_empty (a : OpenBody) : a.append ∅ = a := by
  apply blocks_injective
  rw [blocks_append]
  simp [blocks, EmptyCollection.emptyCollection]

theorem append_openBlock (a : OpenBody) (label : String) :
    a.append (.openBlock label) = a.openBlock label := by
  apply eq_of_blocks
  rw [blocks_append]
  simp [blocks, Fragment.openBlock]

/-- To append two fragments is to append the one after the other. -/
theorem append_append (a : OpenBody) (f g : Fragment) :
    a.append (f ++ g) = (a.append f).append g := by
  apply blocks_injective
  rcases List.eq_nil_or_concat f.blocks with hf | ⟨front, b, hf⟩
  · have ha : a.append f = ⟨a.finished, ⟨a.current.label, a.current.code ++ f.head⟩⟩ :=
      eq_of_blocks (by rw [blocks_append, hf])
    rw [blocks_append, blocks_append, ha, Fragment.append_of_nil hf, List.append_assoc]
  · rw [List.concat_eq_append] at hf
    have ha : a.append f =
        ⟨a.finished ++ ⟨a.current.label, a.current.code ++ f.head⟩ :: front, b⟩ :=
      eq_of_blocks (by rw [blocks_append, hf, List.append_assoc, List.cons_append])
    rw [blocks_append, blocks_append, ha, Fragment.append_of_concat hf, List.append_assoc,
      List.cons_append]

end OpenBody

/-- How far a step in place has come: its result, the supply and the body at that point. -/
structure Placed (α : Type) where
  result : Except Fault α
  names : Names
  body : OpenBody

/-- A step that works on a body in place. A fault leaves the body as it is just then. -/
def InPlace (α : Type) : Type := Names → OpenBody → Placed α

namespace InPlace

variable {α β : Type}

def done (a : α) : InPlace α := fun names body => ⟨.ok a, names, body⟩

def andThen (m : InPlace α) (next : α → InPlace β) : InPlace β := fun names body =>
  match m names body with
  | ⟨.ok a, names, body⟩ => next a names body
  | ⟨.error f, names, body⟩ => ⟨.error f, names, body⟩

instance : Monad InPlace where
  pure := done
  bind := andThen

def drawing (m : Draw α) : InPlace α := fun names body =>
  let o := m names
  ⟨o.result, o.names, body⟩

def emit (code : List Instr) : InPlace Unit := fun names body => ⟨.ok (), names, body.emit code⟩

def openBlock (label : String) : InPlace Unit := fun names body =>
  ⟨.ok (), names, body.openBlock label⟩

/-- Emits what a plain statement needs, once all of it is there. -/
def flush (m : Draw Prelude) : InPlace (List Decl) := do
  let p ← drawing m
  emit p.code
  pure p.decls

end InPlace

mutual

/-- Lowers a statement into the body; the result is what it declares. -/
def placeStmt (ctx : Context) : Stmt → InPlace (List Decl)
  | .ifElse _ cond thenBody elseBody => do
    let thenLabel ← InPlace.drawing (draw Base.thenBlock)
    let elseLabel ← InPlace.drawing (draw Base.elseBlock)
    let endLabel ← InPlace.drawing (draw Base.endBlock)
    let tested ← InPlace.flush (flattenTest ctx cond thenLabel elseLabel)
    InPlace.openBlock thenLabel
    let inThen ← placeStmts ctx thenBody
    InPlace.emit [.jump endLabel]
    InPlace.openBlock elseLabel
    let inElse ← placeStmts ctx elseBody
    InPlace.emit [.jump endLabel]
    InPlace.openBlock endLabel
    pure (tested ++ inThen ++ inElse)
  | .whileLoop _ cond body => do
    let startLabel ← InPlace.drawing (draw Base.loopStart)
    let bodyLabel ← InPlace.drawing (draw Base.loopBody)
    let endLabel ← InPlace.drawing (draw Base.loopEnd)
    InPlace.emit [.jump startLabel]
    InPlace.openBlock startLabel
    let tested ← InPlace.flush (flattenTest ctx cond bodyLabel endLabel)
    InPlace.openBlock bodyLabel
    let inBody ← placeStmts ctx body
    InPlace.emit [.jump startLabel]
    InPlace.openBlock endLabel
    pure (tested ++ inBody)
  | s => InPlace.flush (flattenStmt ctx s)

def placeStmts (ctx : Context) : List Stmt → InPlace (List Decl)
  | [] => pure []
  | s :: rest => do
    let first ← placeStmt ctx s
    let more ← placeStmts ctx rest
    pure (first ++ more)

end

/-- A step done apart from the body, and its code appended then. -/
def Build.inPlace {α : Type} (m : Build α) : InPlace α := fun names body =>
  let o := m names
  ⟨o.result, o.names, body.append o.trail.code⟩

namespace Build

variable {α β : Type}

theorem inPlace_pure (a : α) : inPlace (pure a) = pure a := by
  funext names body
  exact congrArg (Placed.mk _ _) body.append_empty

theorem inPlace_bind (m : Build α) (next : α → Build β) :
    inPlace (m >>= next) = inPlace m >>= fun a => inPlace (next a) := by
  funext names body
  change Build.inPlace (Lower.andThen m next) names body =
    InPlace.andThen (inPlace m) (fun a => inPlace (next a)) names body
  unfold InPlace.andThen inPlace Lower.andThen
  rcases m names with ⟨_ | a, mid, t⟩
  · rfl
  · exact congrArg (Placed.mk _ _) (body.append_append t.code (next a mid).trail.code)

theorem inPlace_drawing (m : Draw α) : inPlace (drawing m) = InPlace.drawing m := by
  funext names body
  exact congrArg (Placed.mk _ _) body.append_empty

theorem inPlace_emit (code : List Instr) : inPlace (emit code) = InPlace.emit code := rfl

theorem inPlace_openBlock (label : String) : inPlace (openBlock label) = InPlace.openBlock label := by
  funext names body
  exact congrArg (Placed.mk _ _) (body.append_openBlock label)

theorem inPlace_flush (m : Draw Prelude) : inPlace (flush m) = InPlace.flush m := by
  simp only [flush, InPlace.flush, inPlace_bind, inPlace_drawing, inPlace_emit, inPlace_pure]

end Build

theorem placeStmt_plain {ctx : Context} {stmt : Stmt} (h : stmt.isPlain = true) :
    placeStmt ctx stmt = InPlace.flush (flattenStmt ctx stmt) := by
  cases stmt with
  | ifElse | whileLoop => cases h
  | _ => rfl

/-- Lowering in place adds what lowering apart makes. -/
theorem placeStmts_eq (ctx : Context) (body : List Stmt) :
    placeStmts ctx body = Build.inPlace (buildStmts ctx body) := by
  induction body using Stmt.bodyInduction with
  | nil => rw [placeStmts, buildStmts, Build.inPlace_pure]
  | plain stmt rest hp ih =>
    simp only [placeStmts, buildStmts, placeStmt_plain hp, buildStmt_plain hp, ih,
      Build.inPlace_bind, Build.inPlace_flush, Build.inPlace_pure]
  | ifElse note cond thenBody elseBody rest iht ihe ih =>
    simp only [placeStmts, buildStmts, placeStmt, buildStmt, iht, ihe, ih, Build.inPlace_bind,
      Build.inPlace_flush, Build.inPlace_drawing, Build.inPlace_emit, Build.inPlace_openBlock,
      Build.inPlace_pure]
  | whileLoop note cond body rest ihb ih =>
    simp only [placeStmts, buildStmts, placeStmt, buildStmt, ihb, ih, Build.inPlace_bind,
      Build.inPlace_flush, Build.inPlace_drawing, Build.inPlace_emit, Build.inPlace_openBlock,
      Build.inPlace_pure]

theorem InPlace.bind_eq_of_ok {α β : Type} {m : InPlace α} {next : α → InPlace β}
    {names mid : Names} {a b : OpenBody} {x : α} (h : m names a = ⟨.ok x, mid, b⟩) :
    (m >>= next) names a = next x mid b := by
  change InPlace.andThen m next names a = _
  rw [InPlace.andThen, h]

theorem InPlace.bind_eq_of_error {α β : Type} {m : InPlace α} {next : α → InPlace β}
    {names mid : Names} {a b : OpenBody} {f : Fault} (h : m names a = ⟨.error f, mid, b⟩) :
    (m >>= next) names a = ⟨.error f, mid, b⟩ := by
  change InPlace.andThen m next names a = _
  rw [InPlace.andThen, h]

/-- All instructions of a plain statement are emitted at once, after its last possible fault. -/
theorem placeStmt_fault_body {ctx : Context} {stmt : Stmt} (hp : stmt.isPlain = true)
    {names : Names} {a : OpenBody} {f : Fault} (h : (placeStmt ctx stmt names a).result = .error f) :
    (placeStmt ctx stmt names a).body = a := by
  rw [placeStmt_plain hp] at h ⊢
  rcases hm : flattenStmt ctx stmt names with ⟨g | p, mid, t⟩
  · have hd : InPlace.drawing (flattenStmt ctx stmt) names a = ⟨.error g, mid, a⟩ := by
      simp only [InPlace.drawing, hm]
    rw [InPlace.flush, InPlace.bind_eq_of_error hd]
  · have hd : InPlace.drawing (flattenStmt ctx stmt) names a = ⟨.ok p, mid, a⟩ := by
      simp only [InPlace.drawing, hm]
    rw [InPlace.flush, InPlace.bind_eq_of_ok hd] at h
    cases h

/-- Lowering that ends in a fault stops at one of the statements, and those before it are lowered. -/
theorem placeStmts_fault {ctx : Context} {body : List Stmt} {names : Names} {a : OpenBody}
    {f : Fault} (h : (placeStmts ctx body names a).result = .error f) :
    ∃ before stmt after ds mid b, body = before ++ stmt :: after ∧
      placeStmts ctx before names a = ⟨.ok ds, mid, b⟩ ∧
      (placeStmt ctx stmt mid b).result = .error f ∧
      placeStmts ctx body names a = placeStmt ctx stmt mid b := by
  induction body generalizing names a with
  | nil => cases h
  | cons stmt rest ih =>
    rw [placeStmts] at h ⊢
    rcases hs : placeStmt ctx stmt names a with ⟨g | first, mid, b⟩
    · rw [InPlace.bind_eq_of_error hs] at h ⊢
      exact ⟨[], stmt, rest, [], names, a, rfl, rfl, hs ▸ h, hs.symm⟩
    · rw [InPlace.bind_eq_of_ok hs] at h ⊢
      rcases hr : placeStmts ctx rest mid b with ⟨g | more, mid', b'⟩
      · rw [InPlace.bind_eq_of_error hr] at h ⊢
        have hfault : (placeStmts ctx rest mid b).result = .error f := by
          rw [hr]
          exact h
        obtain ⟨before, stmt', after, ds, mid₁, b₁, rfl, hb, hf, he⟩ := ih hfault
        refine ⟨stmt :: before, stmt', after, first ++ ds, mid₁, b₁, rfl, ?_, hf, hr ▸ he⟩
        rw [placeStmts, InPlace.bind_eq_of_ok hs, InPlace.bind_eq_of_ok hb]
        rfl
      · rw [InPlace.bind_eq_of_ok hr] at h
        cases h

theorem placeStmts_singleton_fault {ctx : Context} {stmt : Stmt} {names : Names} {a : OpenBody}
    {f : Fault} (h : (placeStmt ctx stmt names a).result = .error f) :
    placeStmts ctx [stmt] names a = placeStmt ctx stmt names a := by
  rcases hs : placeStmt ctx stmt names a with ⟨g | first, mid, b⟩
  · rw [placeStmts, InPlace.bind_eq_of_error hs]
  · rw [hs] at h
    cases h

namespace Session

/-- The reply to a request that was carried out in place. -/
def adopt (s : Session) (p : Placed (List Decl)) : Reply × Session :=
  (.extended p.result p.body.blocks, { s with names := p.names, body := p.body })

theorem run_extend (s : Session) (body : List Stmt) :
    s.run (.extend body) = s.adopt (placeStmts s.context body s.names s.body) := by
  rw [placeStmts_eq]
  rfl

/-- A session that ends in a fault has stopped at one of the statements. -/
theorem run_extend_fault {s : Session} {body : List Stmt} {f : Fault} {blocks : List Block}
    (h : (s.run (.extend body)).1 = .extended (.error f) blocks) :
    ∃ before stmt after ds blocks₁ blocks₂, body = before ++ stmt :: after ∧
      (s.run (.extend before)).1 = .extended (.ok ds) blocks₁ ∧
      ((s.run (.extend before)).2.run (.extend [stmt])).1 = .extended (.error f) blocks₂ ∧
      (stmt.isPlain = true → (s.run (.extend body)).2.body = (s.run (.extend before)).2.body) := by
  simp only [s.run_extend, adopt, Reply.extended.injEq] at h ⊢
  obtain ⟨before, stmt, after, ds, mid, b, rfl, hb, hf, he⟩ := placeStmts_fault h.1
  refine ⟨before, stmt, after, ds, b.blocks, (placeStmt s.context stmt mid b).body.blocks, rfl,
    ?_, ?_, fun hp => ?_⟩
  · simp only [hb, and_self]
  · simp only [hb, run_extend, adopt, placeStmts_singleton_fault hf, hf]
  · rw [he, hb]
    exact placeStmt_fault_body hp hf

end Session

/-- Lowering statements into a body appends to it, with or without a fault. The outcome and the names
drawn are those of lowering into a body of its own, `first :: rest`: the finished blocks stay, the
open block goes on with the code of `first`, and the blocks of `rest` follow. The body may as well be
changed in place. A plain statement at fault adds nothing to what stands before it. -/
theorem lowering_only_appends (s : Session) (body : List Stmt) :
    (∀ label, ∃ result first rest,
      ({ s with body := .new label }.run (.extend body)).1 = .extended result (first :: rest) ∧
      first.label = label ∧
      (s.run (.extend body)).1 = .extended result (s.body.finished ++
        ⟨s.body.current.label, s.body.current.code ++ first.code⟩ :: rest) ∧
      (s.run (.extend body)).2.body.blocks = s.body.finished ++
        ⟨s.body.current.label, s.body.current.code ++ first.code⟩ :: rest ∧
      (s.run (.extend body)).2.names =
        ({ s with body := .new label }.run (.extend body)).2.names) ∧
    s.run (.extend body) = s.adopt (placeStmts s.context body s.names s.body) ∧
    ∀ f blocks, (s.run (.extend body)).1 = .extended (.error f) blocks →
      ∃ before stmt after ds blocks₁ blocks₂, body = before ++ stmt :: after ∧
        (s.run (.extend before)).1 = .extended (.ok ds) blocks₁ ∧
        ((s.run (.extend before)).2.run (.extend [stmt])).1 = .extended (.error f) blocks₂ ∧
        (stmt.isPlain = true →
          (s.run (.extend body)).2.body = (s.run (.extend before)).2.body) := by
  refine ⟨fun label => ?_, s.run_extend body, fun f blocks => Session.run_extend_fault⟩
  let o := buildStmts s.context body s.names
  refine ⟨o.result, ⟨label, o.trail.code.head⟩, o.trail.code.blocks, ?_, rfl, ?_, ?_, rfl⟩
  · exact congrArg (Reply.extended o.result) (OpenBody.blocks_new_append label o.trail.code)
  · exact congrArg (Reply.extended o.result) (s.body.blocks_append o.trail.code)
  · exact s.body.blocks_append o.trail.code

/-- The statement at fault is the second one, and the body ends as it does after the first. -/
theorem append_up_to_fault :
    let number : Source.Note := ⟨.number, {}⟩
    let x : Expr := .var number "x"
    let s : Session := { body := .new "start" }
    let body : List Stmt := [.eval number x, .eval number (.field number x "size"), .ret number x]
    ∃ f blocks before stmt after, (s.run (.extend body)).1 = .extended (.error f) blocks ∧
      body = before ++ stmt :: after ∧
      (s.run (.extend body)).2.body = (s.run (.extend before)).2.body := by
  intro number x s body
  have hplain : ∀ stmt ∈ body, stmt.isPlain = true := by decide
  obtain ⟨-, -, hfault⟩ := lowering_only_appends s body
  obtain ⟨before, stmt, after, _, _, _, hbody, -, -, hsame⟩ :=
    hfault (.notAnObject .fieldLookup .number {}) _ rfl
  have hmem : stmt ∈ body := by
    rw [hbody]
    exact List.mem_append_right _ List.mem_cons_self
  exact ⟨_, _, before, stmt, after, rfl, hbody, hsame (hplain stmt hmem)⟩

/-- A conditional is not plain: the blocks it opened before the fault in its branch stay open. -/
example :
    let number : Source.Note := ⟨.number, {}⟩
    let x : Expr := .var number "x"
    let nope : Stmt := .eval number (.field number (.unary number .neg x) "f")
    ((({} : Session).run (.extend [.eval number x, nope])).2.body.blocks =
        [⟨"entry", [.eval (.operand (.var "x"))]⟩]) ∧
      (({} : Session).run (.extend [.ifElse number x [.eval number x, nope] []])).2.body.blocks =
        [⟨"entry", [.branch (.var "x") "$then1" "$else1"]⟩,
          ⟨"$then1", [.eval (.operand (.var "x"))]⟩] := by
  decide +kernel

end BlockLowering
