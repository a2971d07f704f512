import BlockLowering.Proofs.DecodedDepth
import BlockLowering.Proofs.ProgramValidity

/-! How deep a lowered program is when it is written out. Its code is flat, so it opens at most
twelve levels by itself. Beyond that only the types of declarations count, and a temporary has the
type of an expression that stood deeper in the source than the declaration does now. -/

namespace BlockLowering

open Source (Ty Expr Stmt bodyExprs)
open Flat (Operand Rhs Instr Block Decl)
open Json (depth_ofList_le_iff depth_ofMembers_le_iff lt_depth_ofList lt_depth_ofMembers)

namespace Flat

theorem Operand.encode_depth (v : Operand) : v.encode.depth = 1 := by
  cases v <;> simp [Operand.encode, Json.ofMembers, Json.depth, Json.membersDepth]

theorem Rhs.encode_depth_le (r : Rhs) : r.encode.depth ≤ 3 := by
  cases r with
  | call name args =>
    have hargs : (Json.ofList (args.map Operand.encode)).depth ≤ 2 :=
      depth_ofList_le_iff.mpr ⟨by omega, by simp [Operand.encode_depth]⟩
    simpa [Rhs.encode, depth_ofMembers_le_iff] using Nat.lt_succ_of_le hargs
  | _ => simp [Rhs.encode, depth_ofMembers_le_iff, Operand.encode_depth]

theorem Instr.encode_depth_le (i : Instr) : i.encode.depth ≤ 4 := by
  cases i with
  | assign target value | eval value =>
    have hvalue := Nat.lt_succ_of_le value.encode_depth_le
    simpa [Instr.encode, depth_ofMembers_le_iff] using hvalue
  | _ => simp [Instr.encode, depth_ofMembers_le_iff, Operand.encode_depth]

theorem body_depth_le (blocks : List Block) :
    (Json.ofList (blocks.map Block.encode)).depth ≤ 7 := by
  rw [depth_ofList_le_iff, List.forall_mem_map]
  refine ⟨by omega, fun b _ => ?_⟩
  have hcode : (Json.ofList (b.code.map Instr.encode)).depth ≤ 5 := by
    rw [depth_ofList_le_iff, List.forall_mem_map]
    exact ⟨by omega, fun i _ => Nat.lt_succ_of_le i.encode_depth_le⟩
  have hblock : b.encode.depth ≤ 6 := by
    simpa [Block.encode, depth_ofMembers_le_iff] using Nat.lt_succ_of_le hcode
  omega

end Flat

/-- Whatever is declared has the type of one of the expressions, unless it is a number. -/
def TypedFrom (es : List Expr) (ds : List Decl) : Prop :=
  ∀ d ∈ ds, d.ty = .number ∨ ∃ e ∈ es, d.ty = e.ty

namespace TypedFrom

variable {es es' : List Expr} {ds ds' : List Decl}

theorem nil : TypedFrom es [] := by simp [TypedFrom]

theorem mono (h : TypedFrom es ds) (hs : es ⊆ es') : TypedFrom es' ds := by
  intro d hd
  rcases h d hd with hn | ⟨e, he, ht⟩
  · exact .inl hn
  · exact .inr ⟨e, hs he, ht⟩

theorem both (h : TypedFrom es ds) (h' : TypedFrom es ds') : TypedFrom es (ds ++ ds') :=
  List.forall_mem_append.mpr ⟨h, h'⟩

theorem append (h : TypedFrom es ds) (h' : TypedFrom es' ds') :
    TypedFrom (es ++ es') (ds ++ ds') :=
  (h.mono (List.subset_append_left _ _)).both (h'.mono (List.subset_append_right _ _))

theorem temporary {e : Expr} (he : e ∈ es) (name : String) :
    TypedFrom es [.temporary name e.ty] := by
  intro d hd
  rw [List.mem_singleton.mp hd]
  exact .inr ⟨e, he, rfl⟩

theorem numbers (names : List String) : TypedFrom es (names.map (.temporary · .number)) := by
  intro d hd
  obtain ⟨name, -, rfl⟩ := List.mem_map.mp hd
  exact .inl rfl

end TypedFrom

variable {ctx : Context}

theorem Source.Expr.mem_nodes (e : Expr) : e ∈ e.nodes := by
  cases e <;> exact List.mem_cons_self

mutual

theorem Flattens.typed {a b : Names} {e : Expr} {x : WithPrelude Rhs} {t : List String} :
    Flattens ctx a e x b t → TypedFrom e.nodes x.prelude.decls
  | .unary h | .builtin1 h | .field _ h => h.typed.mono (List.subset_cons_self _ _)
  | .binary hl hr | .builtin2 hl hr => (hl.typed.append hr.typed).mono (List.subset_cons_self _ _)
  | .call h => h.typed.mono (List.subset_cons_self _ _)
  | .methodCall _ hr h => ((hr.typed.append h.typed).mono (List.subset_cons_self _ _)).both .nil
  | .index hr hi =>
    ((hr.typed.append hi.typed).mono (List.subset_cons_self _ _)).both (.numbers [_, _])
  | .construct _ => ((TypedFrom.temporary (Source.Expr.mem_nodes _) _).both .nil).both .nil
  | .listLiteral h =>
    ((TypedFrom.temporary (Source.Expr.mem_nodes _) _).both
      (h.typed.mono (List.subset_cons_self _ _))).both .nil
  | .var | .literal => .nil

theorem FlattensOperand.typed {a b : Names} {e : Expr} {x : WithPrelude Operand}
    {t : List String} : FlattensOperand ctx a e x b t → TypedFrom e.nodes x.prelude.decls
  | .value h => h.typed
  | .temporary h _ => h.typed.both (TypedFrom.temporary (Source.Expr.mem_nodes e) _)

theorem FlattensAll.typed {a b : Names} {es : List Expr} {xs : WithPrelude (List Operand)}
    {t : List String} : FlattensAll ctx a es xs b t → TypedFrom (Expr.allNodes es) xs.prelude.decls
  | .nil => .nil
  | .cons h hs => h.typed.append hs.typed

end

theorem FlattensStmt.typed {a b : Names} {stmt : Stmt} {p : Prelude} {t : List String}
    (h : FlattensStmt ctx a stmt p b t) : TypedFrom (Expr.allNodes stmt.exprs) p.decls := by
  have hone (e : Expr) : e.nodes ⊆ Expr.allNodes [e] :=
    Source.Expr.nodes_subset_allNodes List.mem_cons_self
  cases h with
  | assign h | eval h => exact (h.typed.mono (hone _)).both .nil
  | ret h => exact (h.typed.mono (hone _)).both .nil
  | pass => exact .nil
  | assignField _ hx hy => exact (hx.typed.append (hy.typed.mono (hone _))).both .nil
  | assignIndex hx hi hy =>
    have hall := (hx.typed.append hi.typed).append (hy.typed.mono (hone _))
    rw [List.append_assoc] at hall
    exact (hall.both (.numbers [_, _])).both .nil

/-- A body declares temporaries with types of its expressions, and numbers. -/
theorem Builds.typed {a b : Names} {body : List Stmt} {ds : List Decl} {f : Fragment}
    {t : List String} (h : Builds ctx a body ds f b t) : TypedFrom (bodyExprs body) ds := by
  induction h with
  | nil => exact .nil
  | plain hs _ ih =>
    rw [Source.bodyExprs_plain _ hs.isPlain]
    exact hs.typed.append ih
  | ifElse _ hx _ _ _ iht ihe ih =>
    rw [Source.bodyExprs_ifElse]
    exact ((hx.typed.append iht).append ihe).append ih
  | whileLoop _ hx _ _ ihb ih =>
    rw [Source.bodyExprs_whileLoop]
    exact (hx.typed.append ihb).append ih

namespace Source

theorem Expr.ty_depth_le (e : Expr) : e.ty.encode.depth + 2 ≤ e.encode.depth := by
  have hty : e.ty.encode.depth < e.note.encode.depth :=
    lt_depth_ofMembers (m := ("ty", e.ty.encode)) List.mem_cons_self
  have hnote : e.note.encode.depth < e.encode.depth := by
    cases e <;> exact lt_depth_ofMembers (m := ("a", _)) (List.mem_cons_of_mem _ List.mem_cons_self)
  omega

theorem Expr.operand_depth_lt {e operand : Expr} (h : operand ∈ e.operands) :
    operand.encode.depth < e.encode.depth := by
  have hargs {args : List Expr} {members : List (String × Json)} (ha : operand ∈ args)
      (name : String) (hm : (name, .ofList (Expr.encodeAll args)) ∈ members) :
      operand.encode.depth < (Json.ofMembers members).depth := by
    rw [Expr.encodeAll_eq] at hm
    exact (lt_depth_ofList (List.mem_map_of_mem ha)).trans (lt_depth_ofMembers hm)
  cases e with
  | unary note op arg =>
    rw [List.mem_singleton.mp h]
    exact lt_depth_ofMembers (m := ("expr", _)) (by simp)
  | builtin1 note name arg =>
    rw [List.mem_singleton.mp h]
    exact lt_depth_ofMembers (m := ("arg", _)) (by simp)
  | field note receiver name =>
    rw [List.mem_singleton.mp h]
    exact lt_depth_ofMembers (m := ("obj", _)) (by simp)
  | binary note op left right | builtin2 note name left right =>
    rcases List.mem_pair.mp h with rfl | rfl
    · exact lt_depth_ofMembers (m := ("left", _)) (by simp)
    · exact lt_depth_ofMembers (m := ("right", _)) (by simp)
  | index note receiver index =>
    rcases List.mem_pair.mp h with rfl | rfl
    · exact lt_depth_ofMembers (m := ("obj", _)) (by simp)
    · exact lt_depth_ofMembers (m := ("index", _)) (by simp)
  | call note name args =>
    change operand ∈ args at h
    exact hargs h "arguments" (by simp)
  | methodCall note receiver method args =>
    rcases List.mem_cons.mp h with rfl | h
    · exact lt_depth_ofMembers (m := ("obj", _)) (by simp)
    · exact hargs h "arguments" (by simp)
  | listLiteral note elements =>
    change operand ∈ elements at h
    exact hargs h "elements" (by simp)
  | construct | var | literal => cases h

theorem Expr.exists_of_mem_allNodes {es : List Expr} {node : Expr} (h : node ∈ Expr.allNodes es) :
    ∃ e ∈ es, node ∈ e.nodes := by
  induction es with
  | nil => simp [Expr.allNodes] at h
  | cons e es ih =>
    rcases List.mem_append.mp h with hhead | htail
    · exact ⟨e, List.mem_cons_self, hhead⟩
    · obtain ⟨e', he', hn⟩ := ih htail
      exact ⟨e', List.mem_cons_of_mem _ he', hn⟩

theorem Expr.node_depth_le {e node : Expr} (h : node ∈ e.nodes) :
    node.encode.depth ≤ e.encode.depth := by
  induction hd : e.encode.depth using Nat.strong_induction_on generalizing e with
  | _ d ih =>
    rw [Expr.nodes_eq] at h
    rcases List.mem_cons.mp h with rfl | hbelow
    · omega
    · obtain ⟨operand, hmem, hnode⟩ := Expr.exists_of_mem_allNodes hbelow
      have hlt := Expr.operand_depth_lt hmem
      have hle := ih operand.encode.depth (hd ▸ hlt) hnode rfl
      omega

theorem Stmt.expr_depth_lt {s : Stmt} {e : Expr} (h : e ∈ s.exprs) :
    e.encode.depth < s.encode.depth := by
  cases s with
  | assign | ret =>
    rw [List.mem_singleton.mp h]
    exact lt_depth_ofMembers (m := ("value", _)) (by simp)
  | eval =>
    rw [List.mem_singleton.mp h]
    exact lt_depth_ofMembers (m := ("expr", _)) (by simp)
  | pass => cases h
  | assignField =>
    rcases List.mem_pair.mp h with rfl | rfl
    · exact lt_depth_ofMembers (m := ("obj", _)) (by simp)
    · exact lt_depth_ofMembers (m := ("value", _)) (by simp)
  | assignIndex =>
    rcases List.mem_cons.mp h with rfl | h
    · exact lt_depth_ofMembers (m := ("obj", _)) (by simp)
    · rcases List.mem_pair.mp h with rfl | rfl
      · exact lt_depth_ofMembers (m := ("index", _)) (by simp)
      · exact lt_depth_ofMembers (m := ("value", _)) (by simp)
  | ifElse | whileLoop =>
    rw [List.mem_singleton.mp h]
    exact lt_depth_ofMembers (m := ("cond", _)) (by simp)

/-- The levels that a body opens when it is written out. -/
def bodyDepth (body : List Stmt) : Nat := (Json.ofList (Stmt.encodeAll body)).depth

theorem bodyDepth_cons (s : Stmt) (rest : List Stmt) :
    s.encode.depth < bodyDepth (s :: rest) ∧ bodyDepth rest ≤ bodyDepth (s :: rest) := by
  refine ⟨lt_depth_ofList List.mem_cons_self, depth_ofList_le_iff.mpr ⟨?_, fun j hj => ?_⟩⟩
  · exact Nat.lt_of_le_of_lt (Nat.zero_le _) (lt_depth_ofList List.mem_cons_self)
  · exact lt_depth_ofList (List.mem_cons_of_mem _ hj)

theorem Stmt.node_depth_lt (body : List Stmt) :
    ∀ s ∈ Stmt.allNodes body, s.encode.depth < bodyDepth body := by
  induction body using Stmt.bodyInduction with
  | nil => simp [Stmt.allNodes]
  | plain s rest hs ih =>
    obtain ⟨hhead, htail⟩ := bodyDepth_cons s rest
    have hnodes : s.nodes = [s] := by
      cases s with
      | ifElse | whileLoop => simp [Stmt.isPlain] at hs
      | _ => rfl
    rw [Stmt.allNodes, hnodes, List.singleton_append, List.forall_mem_cons]
    exact ⟨hhead, fun s' hs' => Nat.lt_of_lt_of_le (ih s' hs') htail⟩
  | ifElse note cond thenBody elseBody rest iht ihe ih =>
    obtain ⟨hhead, htail⟩ := bodyDepth_cons (.ifElse note cond thenBody elseBody) rest
    have ht : bodyDepth thenBody < (Stmt.ifElse note cond thenBody elseBody).encode.depth :=
      lt_depth_ofMembers (m := ("thn", .ofList (Stmt.encodeAll thenBody))) (by simp)
    have he : bodyDepth elseBody < (Stmt.ifElse note cond thenBody elseBody).encode.depth :=
      lt_depth_ofMembers (m := ("els", .ofList (Stmt.encodeAll elseBody))) (by simp)
    simp only [Stmt.allNodes, Stmt.nodes, List.cons_append, List.forall_mem_cons,
      List.forall_mem_append]
    exact ⟨hhead, ⟨fun s hs => (iht s hs).trans (ht.trans hhead),
      fun s hs => (ihe s hs).trans (he.trans hhead)⟩,
      fun s hs => Nat.lt_of_lt_of_le (ih s hs) htail⟩
  | whileLoop note cond body rest ihb ih =>
    obtain ⟨hhead, htail⟩ := bodyDepth_cons (.whileLoop note cond body) rest
    have hb : bodyDepth body < (Stmt.whileLoop note cond body).encode.depth :=
      lt_depth_ofMembers (m := ("body", .ofList (Stmt.encodeAll body))) (by simp)
    simp only [Stmt.allNodes, Stmt.nodes, List.cons_append, List.forall_mem_cons,
      List.forall_mem_append]
    exact ⟨hhead, fun s hs => (ihb s hs).trans (hb.trans hhead),
      fun s hs => Nat.lt_of_lt_of_le (ih s hs) htail⟩

/-- A type stands four levels below the body that its expression occurs in. -/
theorem bodyExprs_ty_depth_le {body : List Stmt} {e : Expr} (h : e ∈ bodyExprs body) :
    e.ty.encode.depth + 4 ≤ bodyDepth body := by
  obtain ⟨s, hs, he⟩ := List.mem_flatMap.mp h
  obtain ⟨root, hroot, hnode⟩ := Expr.exists_of_mem_allNodes he
  have h₁ := e.ty_depth_le
  have h₂ := Expr.node_depth_le hnode
  have h₃ := Stmt.expr_depth_lt hroot
  have h₄ := Stmt.node_depth_lt body s hs
  omega

end Source

theorem Flat.Decl.encode_depth_le (d : Decl) : d.encode.depth ≤ d.ty.encode.depth + 1 := by
  have hpos := d.ty.encode_depth_pos
  simp only [Decl.encode, depth_ofMembers_le_iff, List.forall_mem_cons, Operand.encode_depth,
    Json.depth_ofString]
  exact ⟨by omega, by omega, by omega, by omega, by simp⟩

/-- What a body declares, and its variables after that. -/
theorem TypedFrom.depth_le {body : List Stmt} {ds : List Decl} (h : TypedFrom (bodyExprs body) ds)
    (own : List Source.Decl) :
    (Json.ofList ((ds ++ own.map Decl.ofSource).map Decl.encode)).depth ≤
      max 3 (max (Source.bodyDepth body) (Json.ofList (own.map Source.Decl.encode)).depth) := by
  rw [depth_ofList_le_iff, List.forall_mem_map, List.forall_mem_append, List.forall_mem_map]
  refine ⟨by omega, fun d hd => ?_, fun d hd => ?_⟩
  · have hle := d.encode_depth_le
    rcases h d hd with hn | ⟨e, he, ht⟩
    · have hone : Ty.number.encode.depth = 1 := rfl
      rw [hn, hone] at hle
      omega
    · have hty := Source.bodyExprs_ty_depth_le he
      rw [ht] at hle
      omega
  · have hle : (Decl.ofSource d).encode.depth ≤ d.ty.encode.depth + 1 :=
      (Decl.ofSource d).encode_depth_le
    have hty : d.ty.encode.depth < d.encode.depth :=
      lt_depth_ofMembers (m := ("ty", _)) (by simp)
    have hd := lt_depth_ofList (List.mem_map_of_mem (f := Source.Decl.encode) hd)
    omega

theorem Lower.each_depth_le {ω α β : Type} [EmptyCollection ω] [Append ω] {step : α → Lower ω β}
    (encode : α → Json) (encode' : β → Json) {n : Nat}
    (h : ∀ {item a x b t}, (step item).Yields a x b t →
      (encode' x).depth ≤ max n (encode item).depth)
    {items : List α} {a b : Names} {xs : List β} {t : ω}
    (hy : (each step items).Yields a xs b t) :
    (Json.ofList (xs.map encode')).depth ≤ max (n + 1) (Json.ofList (items.map encode)).depth := by
  rw [depth_ofList_le_iff, List.forall_mem_map]
  refine ⟨by omega, fun x hx => ?_⟩
  obtain ⟨item, hitem, hle⟩ := each_yields_exists h hy x hx
  have hlt := lt_depth_ofList (List.mem_map_of_mem (f := encode) hitem)
  omega

theorem logBody_typed {spans : List Span} {entry : String} {body : List Stmt} {ds : List Decl}
    {blocks : List Block} {a b : Names} {t : List Event}
    (h : (logBody spans ctx entry body).Yields a (ds, blocks) b t) :
    TypedFrom (bodyExprs body) ds := by
  obtain ⟨steps, hy, rfl⟩ := Lower.yields_mapTrail.mp h
  obtain ⟨f, u, hb, rfl, hd⟩ := buildBody_builds hy
  exact hb.typed

theorem flattenFunction_depth {spans : List Span} {f : Source.Function} {g : Flat.Function}
    {a b : Names} {t : List Event} (h : (flattenFunction ctx spans f).Yields a g b t) :
    g.encode.depth ≤ max 8 f.encode.depth := by
  obtain ⟨ds, blocks, t', hb, -, rfl⟩ := flattenFunction_cases h
  obtain ⟨hpos, hfields⟩ := depth_ofMembers_le_iff.mp (Nat.le_refl f.encode.depth)
  simp only [List.forall_mem_cons] at hfields
  obtain ⟨-, hparams, hret, hlocals, hbody, -⟩ := hfields
  have hdecls := (logBody_typed hb).depth_le f.locals
  have hcode := Flat.body_depth_le blocks
  simp only [Source.bodyDepth] at hdecls
  simp only [Flat.Function.encode, depth_ofMembers_le_iff, List.forall_mem_cons, Json.depth_ofString]
  exact ⟨by omega, by omega, by omega, by omega, by omega, by omega, by simp⟩

theorem flattenClass_depth {c : Source.Class} {d : Flat.Class} {a b : Names} {t : List Event}
    (h : (flattenClass ctx c).Yields a d b t) : d.encode.depth ≤ max 10 c.encode.depth := by
  obtain ⟨methods, hm, rfl⟩ := flattenClass_parts h
  obtain ⟨hpos, hfields⟩ := depth_ofMembers_le_iff.mp (Nat.le_refl c.encode.depth)
  simp only [List.forall_mem_cons] at hfields
  obtain ⟨-, hown, hmethods, -⟩ := hfields
  have hdecls := (TypedFrom.nil : TypedFrom (bodyExprs []) []).depth_le c.fields
  have hnone : Source.bodyDepth [] = 1 := rfl
  have hbodies := Lower.each_depth_le Source.Function.encode Flat.Function.encode
    flattenFunction_depth hm
  rw [List.nil_append] at hdecls
  simp only [Flat.Class.encode, depth_ofMembers_le_iff, List.forall_mem_cons, Json.depth_ofString]
  exact ⟨by omega, by omega, by omega, by omega, by simp⟩

/-- A lowered program is written in at most twelve levels, or in no more than its source. -/
theorem flattenProgram_depth {p : Source.Program} {q : Flat.Program} {a b : Names}
    {t : List Event} (h : (flattenProgram ctx p).Yields a q b t) :
    q.encode.depth ≤ max 12 p.encode.depth := by
  obtain ⟨ds, body, functions, classes, _, _, t₁, t₂, t₃, hb, hf, hc, -, rfl⟩ :=
    flattenProgram_cases h
  obtain ⟨hpos, hfields⟩ := depth_ofMembers_le_iff.mp (Nat.le_refl p.encode.depth)
  simp only [List.forall_mem_cons] at hfields
  obtain ⟨hfuns, hglobals, hclasses, hbody, -⟩ := hfields
  have hdecls := (logBody_typed hb).depth_le p.globals
  have hcode := Flat.body_depth_le body
  have hlf := Lower.each_depth_le Source.Function.encode Flat.Function.encode
    flattenFunction_depth hf
  have hlc := Lower.each_depth_le Source.Class.encode Flat.Class.encode flattenClass_depth hc
  simp only [Source.bodyDepth] at hdecls
  simp only [Flat.Program.encode, depth_ofMembers_le_iff, List.forall_mem_cons]
  exact ⟨by omega, by omega, by omega, by omega, by omega, by simp⟩

end BlockLowering
