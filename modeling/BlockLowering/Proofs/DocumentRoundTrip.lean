import BlockLowering.Flat.Document
import BlockLowering.Proofs.RoundTrips
import BlockLowering.Proofs.SourceTrees

/-! Source programs and flat programs are decoded from their own encodings. Every type of either
format is settled from the types of its fields. The decoders that call themselves recurse on the
levels left to open, and the proofs about them follow that recursion. -/

namespace BlockLowering

open Decoder (tagged_eq_ok tagged_unit_eq_ok choice_ofString list_eq_ok)

namespace Source

theorem Ty.encode_plain (t : Ty) : t.encode.Plain := by
  induction t with
  | list elem ih => simp [Ty.encode, ih]
  | _ => simp [Ty.encode]

theorem Ty.encode_depth_pos (t : Ty) : 0 < t.encode.depth := by
  cases t <;> exact Nat.succ_pos _

theorem Ty.decode_encode (t : Ty) (levels : Nat) (phase : Phase) (hd : t.encode.depth ≤ levels) :
    Ty.decode levels phase t.encode = .ok t := by
  induction levels generalizing t phase with
  | zero => exact absurd hd (Nat.not_le.mpr t.encode_depth_pos)
  | succ n ih =>
    have hp := t.encode_plain
    cases t with
    | number => exact tagged_unit_eq_ok hd (by decide) rfl
    | bool => exact tagged_unit_eq_ok hd (by decide) rfl
    | none => exact tagged_unit_eq_ok hd (by decide) rfl
    | object name =>
      refine tagged_eq_ok hd hp (by decide) rfl (by decide) rfl fun o h => ?_
      rw [h.field .text "name" name (by simp)]
      rfl
    | list elem =>
      refine tagged_eq_ok hd hp (by decide) rfl (by decide) rfl fun o h => ?_
      have helem : o.field "elem" (fun _ => Ty.decode n) = .value elem :=
        h.field_of "elem" (List.mem_singleton_self _) fun phase => ih elem phase
      rw [helem]
      rfl

theorem Ty.roundTrips : RoundTrips Ty.encode Ty.decode := ⟨Ty.encode_plain, Ty.decode_encode⟩

theorem Loc.roundTrips : RoundTrips Loc.encode Loc.decode := by
  refine .record (by decide) (fun _ => rfl) (fun loc => ?_) fun loc _ o h => ?_
  · simp [RoundTrips.word.plain]
  · rw [h.field .word "line" loc.line (by simp), h.field .word "column" loc.column (by simp),
      h.fieldD .word "length" loc.length 0 (by simp)]
    rfl

theorem Note.roundTrips : RoundTrips Note.encode Note.decode := by
  refine .record (by decide) (fun _ => rfl) (fun note => ?_) fun note _ o h => ?_
  · simp [(Ty.roundTrips).plain, (Loc.roundTrips).plain]
  · rw [h.field Ty.roundTrips "ty" note.ty (by simp),
      h.fieldD Loc.roundTrips "loc" note.loc {} (by simp)]
    rfl

theorem Literal.roundTrips : RoundTrips Literal.encode Literal.decode := by
  have hp : ∀ l : Literal, l.encode.Plain := by
    intro l
    cases l <;> simp [Literal.encode]
  refine ⟨hp, fun l levels phase hd => ?_⟩
  specialize hp l
  cases l with
  | num n =>
    refine tagged_eq_ok hd hp (by decide) rfl (by decide) rfl fun o h => ?_
    rw [h.field .integer "value" n (by simp)]
    rfl
  | bool b =>
    refine tagged_eq_ok hd hp (by decide) rfl (by decide) rfl fun o h => ?_
    rw [h.field .bool "value" b (by simp)]
    rfl
  | none => exact tagged_unit_eq_ok hd (by decide) rfl

theorem UnaryOp.roundTrips : RoundTrips UnaryOp.encode UnaryOp.decode where
  plain op := .text op.key
  decode_encode op levels phase _ := choice_ofString (by cases op <;> rfl) levels phase

theorem BinaryOp.roundTrips : RoundTrips BinaryOp.encode BinaryOp.decode where
  plain op := .text op.key
  decode_encode op levels phase _ := choice_ofString (by cases op <;> rfl) levels phase

theorem Expr.encodeAll_eq (es : List Expr) : Expr.encodeAll es = es.map Expr.encode := by
  induction es with
  | nil => rfl
  | cons e es ih => rw [Expr.encodeAll, ih, List.map_cons]

theorem Expr.encode_plain (e : Expr) : e.encode.Plain := by
  induction e <;>
    simp_all [Expr.encode, Expr.encodeAll_eq, (Note.roundTrips).plain, (UnaryOp.roundTrips).plain,
      (BinaryOp.roundTrips).plain, (Literal.roundTrips).plain]

theorem Expr.encode_depth_pos (e : Expr) : 0 < e.encode.depth := by
  cases e <;> exact Nat.succ_pos _

theorem Expr.decode_encode (e : Expr) (levels : Nat) (phase : Phase)
    (hd : e.encode.depth ≤ levels) : Expr.decode levels phase e.encode = .ok e := by
  induction levels generalizing e phase with
  | zero => exact absurd hd (Nat.not_le.mpr e.encode_depth_pos)
  | succ n ih =>
    have sub {o : Opened} {members : List (String × Json)} (h : o.Holds n members) (name : String)
        (e : Expr) (hm : (name, e.encode) ∈ members) :
        o.field name (fun _ => Expr.decode n) = .value e :=
      h.field_of name hm fun phase => ih e phase
    have subs {o : Opened} {members : List (String × Json)} (h : o.Holds n members) (name : String)
        (es : List Expr) (hm : (name, .ofList (Expr.encodeAll es)) ∈ members) :
        o.field name (.list fun _ => Expr.decode n) = .value es := by
      rw [Expr.encodeAll_eq] at hm
      refine h.field_of name hm fun phase hes => list_eq_ok hes fun e _ he => ?_
      exact ih e phase (Nat.le_of_lt he)
    have hp := e.encode_plain
    cases e with
    | unary note op arg =>
      refine tagged_eq_ok hd hp (by decide) rfl (by decide) rfl fun o h => ?_
      rw [h.field Note.roundTrips "a" note (by simp), h.field UnaryOp.roundTrips "op" op (by simp),
        sub h "expr" arg (by simp)]
      rfl
    | binary note op left right =>
      refine tagged_eq_ok hd hp (by decide) rfl (by decide) rfl fun o h => ?_
      rw [h.field Note.roundTrips "a" note (by simp), h.field BinaryOp.roundTrips "op" op (by simp),
        sub h "left" left (by simp), sub h "right" right (by simp)]
      rfl
    | builtin1 note name arg =>
      refine tagged_eq_ok hd hp (by decide) rfl (by decide) rfl fun o h => ?_
      rw [h.field Note.roundTrips "a" note (by simp), h.field .text "name" name (by simp),
        sub h "arg" arg (by simp)]
      rfl
    | builtin2 note name left right =>
      refine tagged_eq_ok hd hp (by decide) rfl (by decide) rfl fun o h => ?_
      rw [h.field Note.roundTrips "a" note (by simp), h.field .text "name" name (by simp),
        sub h "left" left (by simp), sub h "right" right (by simp)]
      rfl
    | call note name args =>
      refine tagged_eq_ok hd hp (by decide) rfl (by decide) rfl fun o h => ?_
      rw [h.field Note.roundTrips "a" note (by simp), h.field .text "name" name (by simp),
        subs h "arguments" args (by simp)]
      rfl
    | methodCall note receiver method args =>
      refine tagged_eq_ok hd hp (by decide) rfl (by decide) rfl fun o h => ?_
      rw [h.field Note.roundTrips "a" note (by simp), sub h "obj" receiver (by simp),
        h.field .text "method" method (by simp), subs h "arguments" args (by simp)]
      rfl
    | field note receiver name =>
      refine tagged_eq_ok hd hp (by decide) rfl (by decide) rfl fun o h => ?_
      rw [h.field Note.roundTrips "a" note (by simp), sub h "obj" receiver (by simp),
        h.field .text "field" name (by simp)]
      rfl
    | index note receiver index =>
      refine tagged_eq_ok hd hp (by decide) rfl (by decide) rfl fun o h => ?_
      rw [h.field Note.roundTrips "a" note (by simp), sub h "obj" receiver (by simp),
        sub h "index" index (by simp)]
      rfl
    | construct note className =>
      refine tagged_eq_ok hd hp (by decide) rfl (by decide) rfl fun o h => ?_
      rw [h.field Note.roundTrips "a" note (by simp), h.field .text "name" className (by simp)]
      rfl
    | listLiteral note elements =>
      refine tagged_eq_ok hd hp (by decide) rfl (by decide) rfl fun o h => ?_
      rw [h.field Note.roundTrips "a" note (by simp), subs h "elements" elements (by simp)]
      rfl
    | var note name =>
      refine tagged_eq_ok hd hp (by decide) rfl (by decide) rfl fun o h => ?_
      rw [h.field Note.roundTrips "a" note (by simp), h.field .text "name" name (by simp)]
      rfl
    | literal note value =>
      refine tagged_eq_ok hd hp (by decide) rfl (by decide) rfl fun o h => ?_
      rw [h.field Note.roundTrips "a" note (by simp),
        h.field Literal.roundTrips "value" value (by simp)]
      rfl

theorem Expr.roundTrips : RoundTrips Expr.encode Expr.decode :=
  ⟨Expr.encode_plain, Expr.decode_encode⟩

theorem Stmt.encodeAll_eq (body : List Stmt) : Stmt.encodeAll body = body.map Stmt.encode := by
  induction body with
  | nil => rfl
  | cons s body ih => rw [Stmt.encodeAll, ih, List.map_cons]

theorem Stmt.encodeAll_plain (body : List Stmt) : ∀ j ∈ Stmt.encodeAll body, j.Plain := by
  induction body using Stmt.bodyInduction with
  | nil => simp [Stmt.encodeAll]
  | plain s rest hs ih =>
    have hstmt : s.encode.Plain := by
      cases s with
      | ifElse | whileLoop => simp [Stmt.isPlain] at hs
      | _ => simp [Stmt.encode, (Note.roundTrips).plain, Expr.encode_plain]
    simpa [Stmt.encodeAll] using ⟨hstmt, ih⟩
  | ifElse note cond thenBody elseBody rest ht he ih =>
    simpa [Stmt.encodeAll, Stmt.encode, (Note.roundTrips).plain, Expr.encode_plain]
      using ⟨⟨ht, he⟩, ih⟩
  | whileLoop note cond body rest hb ih =>
    simpa [Stmt.encodeAll, Stmt.encode, (Note.roundTrips).plain, Expr.encode_plain] using ⟨hb, ih⟩

theorem Stmt.encode_plain (s : Stmt) : s.encode.Plain :=
  Stmt.encodeAll_plain [s] _ List.mem_cons_self

theorem Stmt.encode_depth_pos (s : Stmt) : 0 < s.encode.depth := by
  cases s <;> exact Nat.succ_pos _

theorem Stmt.decode_encode (s : Stmt) (levels : Nat) (phase : Phase)
    (hd : s.encode.depth ≤ levels) : Stmt.decode levels phase s.encode = .ok s := by
  induction levels generalizing s phase with
  | zero => exact absurd hd (Nat.not_le.mpr s.encode_depth_pos)
  | succ n ih =>
    have subs {o : Opened} {members : List (String × Json)} (h : o.Holds n members) (name : String)
        (body : List Stmt) (hm : (name, .ofList (Stmt.encodeAll body)) ∈ members) :
        o.field name (.list fun _ => Stmt.decode n) = .value body := by
      rw [Stmt.encodeAll_eq] at hm
      refine h.field_of name hm fun phase hbody => list_eq_ok hbody fun s _ hs => ?_
      exact ih s phase (Nat.le_of_lt hs)
    have hp := s.encode_plain
    cases s with
    | assign note name value =>
      refine tagged_eq_ok hd hp (by decide) rfl (by decide) rfl fun o h => ?_
      rw [h.field Note.roundTrips "a" note (by simp), h.field .text "name" name (by simp),
        h.field Expr.roundTrips "value" value (by simp)]
      rfl
    | ret note value =>
      refine tagged_eq_ok hd hp (by decide) rfl (by decide) rfl fun o h => ?_
      rw [h.field Note.roundTrips "a" note (by simp), h.field Expr.roundTrips "value" value (by simp)]
      rfl
    | eval note e =>
      refine tagged_eq_ok hd hp (by decide) rfl (by decide) rfl fun o h => ?_
      rw [h.field Note.roundTrips "a" note (by simp), h.field Expr.roundTrips "expr" e (by simp)]
      rfl
    | pass note =>
      refine tagged_eq_ok hd hp (by decide) rfl (by decide) rfl fun o h => ?_
      rw [h.field Note.roundTrips "a" note (by simp)]
      rfl
    | assignField note receiver name value =>
      refine tagged_eq_ok hd hp (by decide) rfl (by decide) rfl fun o h => ?_
      rw [h.field Note.roundTrips "a" note (by simp),
        h.field Expr.roundTrips "obj" receiver (by simp), h.field .text "field" name (by simp),
        h.field Expr.roundTrips "value" value (by simp)]
      rfl
    | assignIndex note receiver index value =>
      refine tagged_eq_ok hd hp (by decide) rfl (by decide) rfl fun o h => ?_
      rw [h.field Note.roundTrips "a" note (by simp),
        h.field Expr.roundTrips "obj" receiver (by simp),
        h.field Expr.roundTrips "index" index (by simp),
        h.field Expr.roundTrips "value" value (by simp)]
      rfl
    | ifElse note cond thenBody elseBody =>
      refine tagged_eq_ok hd hp (by decide) rfl (by decide) rfl fun o h => ?_
      rw [h.field Note.roundTrips "a" note (by simp), h.field Expr.roundTrips "cond" cond (by simp),
        subs h "thn" thenBody (by simp), subs h "els" elseBody (by simp)]
      rfl
    | whileLoop note cond body =>
      refine tagged_eq_ok hd hp (by decide) rfl (by decide) rfl fun o h => ?_
      rw [h.field Note.roundTrips "a" note (by simp), h.field Expr.roundTrips "cond" cond (by simp),
        subs h "body" body (by simp)]
      rfl

theorem Stmt.roundTrips : RoundTrips Stmt.encode Stmt.decode :=
  ⟨Stmt.encode_plain, Stmt.decode_encode⟩

theorem Decl.roundTrips : RoundTrips Decl.encode Decl.decode := by
  refine .record (by decide) (fun _ => rfl) (fun d => ?_) fun d _ o h => ?_
  · simp [(Ty.roundTrips).plain, (Literal.roundTrips).plain, (Loc.roundTrips).plain]
  · rw [h.field .text "name" d.name (by simp), h.field Ty.roundTrips "ty" d.ty (by simp),
      h.field Literal.roundTrips "value" d.value (by simp),
      h.fieldD Loc.roundTrips "loc" d.loc {} (by simp)]
    rfl

theorem Param.roundTrips : RoundTrips Param.encode Param.decode := by
  refine .record (by decide) (fun _ => rfl) (fun p => ?_) fun p _ o h => ?_
  · simp [(Ty.roundTrips).plain]
  · rw [h.field .text "name" p.name (by simp), h.field Ty.roundTrips "ty" p.ty (by simp)]
    rfl

theorem Function.roundTrips : RoundTrips Function.encode Function.decode := by
  refine .record (by decide) (fun _ => rfl) (fun f => ?_) fun f _ o h => ?_
  · simp [Stmt.encodeAll_eq, (Param.roundTrips).plain, (Ty.roundTrips).plain,
      (Decl.roundTrips).plain, (Stmt.roundTrips).plain, (Loc.roundTrips).plain]
  · rw [h.field .text "name" f.name (by simp),
      h.fieldD (.list Param.roundTrips) "parameters" f.params [] (by simp),
      h.field Ty.roundTrips "ret" f.ret (by simp),
      h.fieldD (.list Decl.roundTrips) "inits" f.locals [] (by simp),
      h.fieldD (.list Stmt.roundTrips) "body" f.body [] (by simp [Stmt.encodeAll_eq]),
      h.fieldD Loc.roundTrips "loc" f.loc {} (by simp)]
    rfl

theorem Class.roundTrips : RoundTrips Class.encode Class.decode := by
  refine .record (by decide) (fun _ => rfl) (fun c => ?_) fun c _ o h => ?_
  · simp [(Decl.roundTrips).plain, (Function.roundTrips).plain, (Loc.roundTrips).plain]
  · rw [h.field .text "name" c.name (by simp),
      h.fieldD (.list Decl.roundTrips) "fields" c.fields [] (by simp),
      h.fieldD (.list Function.roundTrips) "methods" c.methods [] (by simp),
      h.fieldD Loc.roundTrips "loc" c.loc {} (by simp)]
    rfl

theorem Program.roundTrips : RoundTrips Program.encode Program.decode := by
  refine .record (by decide) (fun _ => rfl) (fun p => ?_) fun p _ o h => ?_
  · simp [Stmt.encodeAll_eq, (Function.roundTrips).plain, (Decl.roundTrips).plain,
      (Class.roundTrips).plain, (Stmt.roundTrips).plain]
  · rw [h.fieldD (.list Function.roundTrips) "funs" p.functions [] (by simp),
      h.fieldD (.list Decl.roundTrips) "inits" p.globals [] (by simp),
      h.fieldD (.list Class.roundTrips) "classes" p.classes [] (by simp),
      h.fieldD (.list Stmt.roundTrips) "stmts" p.body [] (by simp [Stmt.encodeAll_eq])]
    rfl

end Source

namespace Flat

open Source (Ty Param UnaryOp BinaryOp)

theorem Operand.roundTrips : RoundTrips Operand.encode Operand.decode := by
  have hp : ∀ v : Operand, v.encode.Plain := by
    intro v
    cases v <;> simp [Operand.encode, RoundTrips.word.plain]
  refine ⟨hp, fun v levels phase hd => ?_⟩
  specialize hp v
  cases v with
  | num n =>
    refine tagged_eq_ok hd hp (by decide) rfl (by decide) rfl fun o h => ?_
    rw [h.field .integer "value" n (by simp)]
    rfl
  | bool b =>
    refine tagged_eq_ok hd hp (by decide) rfl (by decide) rfl fun o h => ?_
    rw [h.field .bool "value" b (by simp)]
    rfl
  | none => exact tagged_unit_eq_ok hd (by decide) rfl
  | word n =>
    refine tagged_eq_ok hd hp (by decide) rfl (by decide) rfl fun o h => ?_
    rw [h.field .word "value" n (by simp)]
    rfl
  | var name =>
    refine tagged_eq_ok hd hp (by decide) rfl (by decide) rfl fun o h => ?_
    rw [h.field .text "name" name (by simp)]
    rfl

theorem Rhs.roundTrips : RoundTrips Rhs.encode Rhs.decode := by
  have hp : ∀ r : Rhs, r.encode.Plain := by
    intro r
    cases r <;> simp [Rhs.encode, (Operand.roundTrips).plain, (UnaryOp.roundTrips).plain,
      (BinaryOp.roundTrips).plain]
  refine ⟨hp, fun r levels phase hd => ?_⟩
  specialize hp r
  cases r with
  | operand v =>
    refine tagged_eq_ok hd hp (by decide) rfl (by decide) rfl fun o h => ?_
    rw [h.field Operand.roundTrips "value" v (by simp)]
    rfl
  | unary op v =>
    refine tagged_eq_ok hd hp (by decide) rfl (by decide) rfl fun o h => ?_
    rw [h.field UnaryOp.roundTrips "op" op (by simp), h.field Operand.roundTrips "expr" v (by simp)]
    rfl
  | binary op l r =>
    refine tagged_eq_ok hd hp (by decide) rfl (by decide) rfl fun o h => ?_
    rw [h.field BinaryOp.roundTrips "op" op (by simp),
      h.field Operand.roundTrips "left" l (by simp), h.field Operand.roundTrips "right" r (by simp)]
    rfl
  | builtin1 name v =>
    refine tagged_eq_ok hd hp (by decide) rfl (by decide) rfl fun o h => ?_
    rw [h.field .text "name" name (by simp), h.field Operand.roundTrips "arg" v (by simp)]
    rfl
  | builtin2 name l r =>
    refine tagged_eq_ok hd hp (by decide) rfl (by decide) rfl fun o h => ?_
    rw [h.field .text "name" name (by simp), h.field Operand.roundTrips "left" l (by simp),
      h.field Operand.roundTrips "right" r (by simp)]
    rfl
  | call name args =>
    refine tagged_eq_ok hd hp (by decide) rfl (by decide) rfl fun o h => ?_
    rw [h.field .text "name" name (by simp),
      h.field (.list Operand.roundTrips) "arguments" args (by simp)]
    rfl
  | load base offset =>
    refine tagged_eq_ok hd hp (by decide) rfl (by decide) rfl fun o h => ?_
    rw [h.field Operand.roundTrips "start" base (by simp),
      h.field Operand.roundTrips "offset" offset (by simp)]
    rfl
  | alloc size =>
    refine tagged_eq_ok hd hp (by decide) rfl (by decide) rfl fun o h => ?_
    rw [h.field Operand.roundTrips "amount" size (by simp)]
    rfl

theorem Instr.roundTrips : RoundTrips Instr.encode Instr.decode := by
  have hp : ∀ i : Instr, i.encode.Plain := by
    intro i
    cases i <;> simp [Instr.encode, (Operand.roundTrips).plain, (Rhs.roundTrips).plain]
  refine ⟨hp, fun i levels phase hd => ?_⟩
  specialize hp i
  cases i with
  | assign target value =>
    refine tagged_eq_ok hd hp (by decide) rfl (by decide) rfl fun o h => ?_
    rw [h.field .text "name" target (by simp), h.field Rhs.roundTrips "value" value (by simp)]
    rfl
  | ret value =>
    refine tagged_eq_ok hd hp (by decide) rfl (by decide) rfl fun o h => ?_
    rw [h.field Operand.roundTrips "value" value (by simp)]
    rfl
  | eval value =>
    refine tagged_eq_ok hd hp (by decide) rfl (by decide) rfl fun o h => ?_
    rw [h.field Rhs.roundTrips "expr" value (by simp)]
    rfl
  | store base offset value =>
    refine tagged_eq_ok hd hp (by decide) rfl (by decide) rfl fun o h => ?_
    rw [h.field Operand.roundTrips "start" base (by simp),
      h.field Operand.roundTrips "offset" offset (by simp),
      h.field Operand.roundTrips "value" value (by simp)]
    rfl
  | jump label =>
    refine tagged_eq_ok hd hp (by decide) rfl (by decide) rfl fun o h => ?_
    rw [h.field .text "lbl" label (by simp)]
    rfl
  | branch cond t e =>
    refine tagged_eq_ok hd hp (by decide) rfl (by decide) rfl fun o h => ?_
    rw [h.field Operand.roundTrips "cond" cond (by simp), h.field .text "thn" t (by simp),
      h.field .text "els" e (by simp)]
    rfl

theorem Block.roundTrips : RoundTrips Block.encode Block.decode := by
  refine .record (by decide) (fun _ => rfl) (fun b => ?_) fun b _ o h => ?_
  · simp [(Instr.roundTrips).plain]
  · rw [h.field .text "label" b.label (by simp),
      h.field (.list Instr.roundTrips) "stmts" b.code (by simp)]
    rfl

theorem Decl.roundTrips : RoundTrips Decl.encode Decl.decode := by
  refine .record (by decide) (fun _ => rfl) (fun d => ?_) fun d _ o h => ?_
  · simp [(Ty.roundTrips).plain, (Operand.roundTrips).plain]
  · rw [h.field .text "name" d.name (by simp), h.field Ty.roundTrips "ty" d.ty (by simp),
      h.field Operand.roundTrips "value" d.value (by simp)]
    rfl

theorem Function.roundTrips : RoundTrips Function.encode Function.decode := by
  refine .record (by decide) (fun _ => rfl) (fun f => ?_) fun f _ o h => ?_
  · simp [(Param.roundTrips).plain, (Ty.roundTrips).plain, (Decl.roundTrips).plain,
      (Block.roundTrips).plain]
  · rw [h.field .text "name" f.name (by simp),
      h.field (.list Param.roundTrips) "parameters" f.params (by simp),
      h.field Ty.roundTrips "ret" f.ret (by simp),
      h.field (.list Decl.roundTrips) "inits" f.decls (by simp),
      h.field (.list Block.roundTrips) "body" f.body (by simp)]
    rfl

theorem Class.roundTrips : RoundTrips Class.encode Class.decode := by
  refine .record (by decide) (fun _ => rfl) (fun c => ?_) fun c _ o h => ?_
  · simp [(Decl.roundTrips).plain, (Function.roundTrips).plain]
  · rw [h.field .text "name" c.name (by simp),
      h.field (.list Decl.roundTrips) "fields" c.fields (by simp),
      h.field (.list Function.roundTrips) "methods" c.methods (by simp)]
    rfl

theorem Program.roundTrips : RoundTrips Program.encode Program.decode := by
  refine .record (by decide) (fun _ => rfl) (fun p => ?_) fun p _ o h => ?_
  · simp [(Function.roundTrips).plain, (Decl.roundTrips).plain, (Class.roundTrips).plain,
      (Block.roundTrips).plain]
  · rw [h.field (.list Function.roundTrips) "funs" p.functions (by simp),
      h.field (.list Decl.roundTrips) "inits" p.decls (by simp),
      h.field (.list Class.roundTrips) "classes" p.classes (by simp),
      h.field (.list Block.roundTrips) "body" p.body (by simp)]
    rfl

end Flat

/-- Decoding undoes encoding, for every type of the source format and of the flat format. -/
theorem documents_round_trip :
    (RoundTrips Source.Ty.encode Source.Ty.decode ∧
      RoundTrips Source.Loc.encode Source.Loc.decode ∧
      RoundTrips Source.Note.encode Source.Note.decode ∧
      RoundTrips Source.Literal.encode Source.Literal.decode ∧
      RoundTrips Source.UnaryOp.encode Source.UnaryOp.decode ∧
      RoundTrips Source.BinaryOp.encode Source.BinaryOp.decode ∧
      RoundTrips Source.Expr.encode Source.Expr.decode ∧
      RoundTrips Source.Stmt.encode Source.Stmt.decode ∧
      RoundTrips Source.Decl.encode Source.Decl.decode ∧
      RoundTrips Source.Param.encode Source.Param.decode ∧
      RoundTrips Source.Function.encode Source.Function.decode ∧
      RoundTrips Source.Class.encode Source.Class.decode ∧
      RoundTrips Source.Program.encode Source.Program.decode) ∧
    RoundTrips Flat.Operand.encode Flat.Operand.decode ∧
      RoundTrips Flat.Rhs.encode Flat.Rhs.decode ∧
      RoundTrips Flat.Instr.encode Flat.Instr.decode ∧
      RoundTrips Flat.Block.encode Flat.Block.decode ∧
      RoundTrips Flat.Decl.encode Flat.Decl.decode ∧
      RoundTrips Flat.Function.encode Flat.Function.decode ∧
      RoundTrips Flat.Class.encode Flat.Class.decode ∧
      RoundTrips Flat.Program.encode Flat.Program.decode := by
  constructor
  · exact ⟨Source.Ty.roundTrips, Source.Loc.roundTrips, Source.Note.roundTrips,
      Source.Literal.roundTrips, Source.UnaryOp.roundTrips, Source.BinaryOp.roundTrips,
      Source.Expr.roundTrips, Source.Stmt.roundTrips, Source.Decl.roundTrips,
      Source.Param.roundTrips, Source.Function.roundTrips, Source.Class.roundTrips,
      Source.Program.roundTrips⟩
  · exact ⟨Flat.Operand.roundTrips, Flat.Rhs.roundTrips, Flat.Instr.roundTrips,
      Flat.Block.roundTrips, Flat.Decl.roundTrips, Flat.Function.roundTrips,
      Flat.Class.roundTrips, Flat.Program.roundTrips⟩

end BlockLowering
