import BlockLowering.Proofs.LiteralLayouts
import BlockLowering.Proofs.LoweredNames

/-! Where lowered code reads its temporaries. In the code of one block, a temporary is read only after
an instruction of the same block has assigned it. This holds of the code of each expression by
itself, and code put after code keeps it. -/

namespace BlockLowering

open Source (Expr Stmt Note)
open Flat (Operand Rhs Instr Decl Block)
open Fragment (ofCode closing)

def Flat.Instr.operands : Instr → List Operand
  | .assign _ r | .eval r => r.operands
  | .ret v => [v]
  | .store base offset value => [base, offset, value]
  | .jump _ => []
  | .branch cond _ _ => [cond]

/-- The temporaries among the operands are among the given names. -/
def Known (names : List String) (operands : List Operand) : Prop :=
  ∀ name, .var name ∈ operands → IsTemporary name → name ∈ names

/-- Each temporary that the code reads is one of `known`, or the code has assigned it before. -/
def Settled : List String → List Instr → Prop
  | _, [] => True
  | known, i :: rest => Known known i.operands ∧ Settled (i.assigned?.toList ++ known) rest

namespace Known

variable {names more : List String} {operands others : List Operand}

theorem mono (h : Known names operands) (hs : names ⊆ more) : Known more operands :=
  fun name hm ht => hs (h name hm ht)

theorem nil : Known names [] := fun _ hm => nomatch hm

theorem append (h : Known names operands) (h' : Known names others) :
    Known names (operands ++ others) :=
  fun name hm => (List.mem_append.mp hm).elim (h name) (h' name)

theorem cons {v : Operand} (h : Known names [v]) (h' : Known names operands) :
    Known names (v :: operands) :=
  h.append h'

theorem of_mem {v : Operand} (h : Known names operands) (hv : v ∈ operands) : Known names [v] :=
  fun name hm => h name (List.mem_singleton.mp hm ▸ hv)

theorem of_varName? {v : Operand} (h : v.varName? = none) : Known names [v] := by
  intro name hm
  obtain rfl : .var name = v := List.mem_singleton.mp hm
  cases h

theorem word (n : UInt32) : Known names [.word n] := of_varName? rfl

theorem var {name : String} (h : name ∈ names) : Known names [.var name] := by
  intro other hm _
  obtain rfl : other = name := Operand.var.inj (List.mem_singleton.mp hm)
  exact h

theorem two {v w : Operand} {t u : List String} (h : Known t [v]) (h' : Known u [w]) :
    Known (t ++ u) [v, w] :=
  (h.mono (List.subset_append_left t u)).cons (h'.mono (List.subset_append_right t u))

end Known

namespace Settled

variable {known more : List String} {code rest : List Instr}

theorem mono (h : Settled known code) (hs : known ⊆ more) : Settled more code := by
  induction code generalizing known more with
  | nil => trivial
  | cons i rest ih =>
    have hrest : i.assigned?.toList ++ known ⊆ i.assigned?.toList ++ more :=
      List.append_subset.mpr ⟨List.subset_append_left _ _,
        List.Subset.trans hs (List.subset_append_right _ _)⟩
    exact ⟨h.1.mono hs, ih h.2 hrest⟩

theorem andThen (h : Settled known code)
    (h' : Settled (code.filterMap Instr.assigned? ++ known) rest) : Settled known (code ++ rest) := by
  induction code generalizing known with
  | nil => exact h'
  | cons i code ih =>
    refine ⟨h.1, ih h.2 (h'.mono ?_)⟩
    simp only [List.filterMap_eq_flatMap_toList, List.flatMap_cons, List.append_subset]
    simp

theorem append (h : Settled known code) (h' : Settled [] rest) : Settled known (code ++ rest) :=
  h.andThen (h'.mono (List.nil_subset _))

theorem of_forall (h : ∀ i ∈ code, Known known i.operands) : Settled known code := by
  induction code generalizing known with
  | nil => trivial
  | cons i rest ih =>
    rw [List.forall_mem_cons] at h
    exact ⟨h.1, ih fun j hj => (h.2 j hj).mono (List.subset_append_right _ _)⟩

theorem single {i : Instr} (h : Known known i.operands) : Settled known [i] := ⟨h, trivial⟩

/-- A temporary that is read is known or was assigned before. -/
theorem read {i : Instr} {name : String} (h : Settled known (code ++ i :: rest))
    (hi : .var name ∈ i.operands) (ht : IsTemporary name) :
    name ∈ code.filterMap Instr.assigned? ∨ name ∈ known := by
  induction code generalizing known with
  | nil => exact Or.inr (h.1 name hi ht)
  | cons j code ih =>
    simp only [List.filterMap_eq_flatMap_toList, List.flatMap_cons, List.mem_append] at ih ⊢
    rcases ih h.2 with hm | hm
    · exact Or.inl (Or.inr hm)
    · exact (List.mem_append.mp hm).imp_left Or.inl

end Settled

/-- A prelude whose temporaries start from nothing and are read after they are assigned. -/
structure Prelude.Orderly (known : List String) (p : Prelude) : Prop where
  placeholders : ∀ d ∈ p.decls, d.value = .none
  settled : Settled known p.code

namespace Prelude.Orderly

variable {known more t : List String} {p q : Prelude}

theorem empty : (∅ : Prelude).Orderly known :=
  ⟨(fun _ hd => nomatch hd), trivial⟩

theorem andThen (hp : p.Orderly known) (hd : p.Declares t) (hq : q.Orderly (t ++ known)) :
    (p ++ q).Orderly known := by
  refine ⟨List.forall_mem_append.mpr ⟨hp.placeholders, hq.placeholders⟩, hp.settled.andThen ?_⟩
  rw [hd.assigned]
  exact hq.settled

theorem append (hp : p.Orderly known) (hq : q.Orderly []) : (p ++ q).Orderly known :=
  ⟨List.forall_mem_append.mpr ⟨hp.placeholders, hq.placeholders⟩, hp.settled.append hq.settled⟩

theorem temporary {r : Rhs} (h : Known known r.operands) (name : String) (ty : Source.Ty) :
    (Prelude.temporary name ty r).Orderly known :=
  ⟨by simp [Prelude.temporary, Decl.temporary], .single h⟩

theorem ofCode {code : List Instr} (h : ∀ i ∈ code, Known known i.operands) :
    (Prelude.ofCode code).Orderly known :=
  ⟨(fun _ hd => nomatch hd), .of_forall h⟩

theorem helperCall {args : List Operand} (h : Known known args) (name : String) :
    (Prelude.ofCode [BlockLowering.helperCall name args]).Orderly known :=
  .ofCode fun i hi => by
    rw [List.mem_singleton.mp hi]
    exact h

theorem guardedOffset (ctx : Context) {index list : Operand} (hl : Known known [list])
    (hi : Known known [index]) (length offset : String) :
    (BlockLowering.guardedOffset ctx length offset index list).Orderly known := by
  have hload : (Prelude.temporary length .number (.load list (.word 0))).Orderly known :=
    .temporary (hl.cons (.word 0)) length .number
  have hindex : Known ([length] ++ known) [index] := hi.mono (List.subset_append_right _ _)
  have hcheck : (Prelude.ofCode [BlockLowering.helperCall ctx.settings.boundsHelper
      [.var length, index]]).Orderly ([length] ++ known) :=
    .helperCall ((Known.var (by simp)).cons hindex) _
  exact (hload.andThen (.temporary _ _ _) hcheck).andThen
    ((Declares.temporary _ _ _).append (.helperCall _ _)) (.temporary (hindex.cons (.word 1)) _ _)

end Prelude.Orderly

variable {ctx : Context}

theorem newObject_orderly {fields : ClassLayout} (hf : fields.Literal) (note : Note)
    (className name : String) : (newObject ctx note className fields name).Orderly [] := by
  have hname : Known [name] [.var name] := .var List.mem_cons_self
  have halloc : (Prelude.temporary name note.ty
      (.alloc (.word (UInt32.ofNat fields.size)))).Orderly [] := .temporary (.word _) _ _
  have hstores : (Prelude.ofCode (fields.values.map fun slot =>
      Instr.store (.var name) (.word slot.offset) slot.initial)).Orderly [name] := by
    refine .ofCode fun i hi => ?_
    obtain ⟨slot, hslot, rfl⟩ := List.mem_map.mp hi
    exact hname.cons ((Known.word _).cons (.of_varName? (hf slot hslot)))
  have hplain : (Prelude.ofCode (fields.values.map fun slot =>
      Instr.store (.var name) (.word slot.offset) slot.initial)).Declares [] :=
    .ofCode (by simp [Instr.assigned?]) (by simp [Instr.isTransfer])
  exact (halloc.andThen (.temporary _ _ _) hstores).andThen
    ((Prelude.Declares.temporary _ _ _).append hplain) (.helperCall hname _)

theorem known_storeElements {known : List String} {list : Operand} {values : List Operand}
    (hl : Known known [list]) (hv : Known known values) (offset : Nat) :
    ∀ i ∈ storeElements list offset values, Known known i.operands := by
  induction values generalizing offset with
  | nil => exact fun _ hi => nomatch hi
  | cons v rest ih =>
    have hrest : Known known rest := fun name hm => hv name (List.mem_cons_of_mem _ hm)
    refine List.forall_mem_cons.mpr ⟨?_, ih hrest (offset + 1)⟩
    exact hl.cons ((Known.word _).cons (hv.of_mem List.mem_cons_self))

theorem newList_orderly {xs : WithPrelude (List Operand)} {t : List String}
    (h : xs.prelude.Orderly []) (hd : xs.prelude.Declares t) (hv : Known t xs.value) (note : Note)
    (name : String) (size : Nat) : (newList note name size xs).Orderly [] := by
  have hname : Known ([name] ++ t ++ []) [.var name] := .var (by simp)
  have halloc : (Prelude.temporary name note.ty
      (.alloc (.word (UInt32.ofNat (size + 1))))).Orderly [] := .temporary (.word _) _ _
  refine (halloc.append h).andThen ((Prelude.Declares.temporary _ _ _).append hd) (.ofCode ?_)
  refine List.forall_mem_cons.mpr ⟨?_, known_storeElements hname (hv.mono (by simp)) 1⟩
  exact hname.cons ((Known.word 0).cons (.of_varName? rfl))

theorem FlattensOperand.known {a b : Names} {e : Expr} {x : WithPrelude Operand} {t : List String}
    (h : FlattensOperand ctx a e x b t) (hv : ∀ v ∈ e.vars, ¬ IsTemporary v) : Known t [x.value] := by
  intro name hm ht
  rcases h.operand_mem (List.mem_singleton.mp hm).symm with hn | hn
  · exact absurd ht (hv name hn)
  · exact hn

theorem FlattensAll.known {a b : Names} {es : List Expr} {xs : WithPrelude (List Operand)}
    {t : List String} (h : FlattensAll ctx a es xs b t)
    (hv : ∀ v ∈ Expr.allVars es, ¬ IsTemporary v) : Known t xs.value := by
  induction es generalizing a xs t with
  | nil =>
    cases h
    exact .nil
  | cons e es ih =>
    cases h with
    | cons hx hs =>
      rw [Expr.allVars_cons, List.forall_mem_append] at hv
      exact ((hx.known hv.1).mono (List.subset_append_left _ _)).cons
        ((ih hs hv.2).mono (List.subset_append_right _ _))

mutual

theorem Flattens.orderly (hl : ctx.layout.Literal) {a b : Names} {e : Expr} {x : WithPrelude Rhs}
    {t : List String} : Flattens ctx a e x b t → (∀ v ∈ e.vars, ¬ IsTemporary v) →
    x.prelude.Orderly [] ∧ Known t x.value.operands
  | .unary h, hv | .builtin1 h, hv => ⟨h.orderly hl hv, h.known hv⟩
  | .field _ h, hv => ⟨h.orderly hl hv, (h.known hv).cons (.word _)⟩
  | .binary hx hy, hv => by
    rw [Expr.vars_binary, List.forall_mem_append] at hv
    exact ⟨(hx.orderly hl hv.1).append (hy.orderly hl hv.2), (hx.known hv.1).two (hy.known hv.2)⟩
  | .builtin2 hx hy, hv => by
    rw [Expr.vars_builtin2, List.forall_mem_append] at hv
    exact ⟨(hx.orderly hl hv.1).append (hy.orderly hl hv.2), (hx.known hv.1).two (hy.known hv.2)⟩
  | .call h, hv => ⟨h.orderly hl hv, h.known hv⟩
  | .methodCall (t := t) (u := u) _ hx h, hv => by
    rw [Expr.vars_methodCall, List.forall_mem_append] at hv
    have hreceiver := (hx.known hv.1).mono (List.subset_append_left t u)
    have hargs := (h.known hv.2).mono (List.subset_append_right t u)
    refine ⟨((hx.orderly hl hv.1).append (h.orderly hl hv.2)).andThen
      (hx.declares.append h.declares) ?_, hreceiver.cons hargs⟩
    rw [List.append_nil]
    exact .helperCall hreceiver _
  | .index (t := t) (u := u) hx hi, hv => by
    rw [Expr.vars_index, List.forall_mem_append] at hv
    have hreceiver := (hx.known hv.1).mono (List.subset_append_left t u)
    have hindex := (hi.known hv.2).mono (List.subset_append_right t u)
    refine ⟨((hx.orderly hl hv.1).append (hi.orderly hl hv.2)).andThen
      (hx.declares.append hi.declares) ?_,
      (hreceiver.mono (List.subset_append_left _ _)).cons (.var (by simp))⟩
    rw [List.append_nil]
    exact .guardedOffset ctx hreceiver hindex _ _
  | .construct hf, _ => ⟨newObject_orderly (hl _ _ hf) _ _ _, .var List.mem_cons_self⟩
  | .listLiteral h, hv =>
    ⟨newList_orderly (h.orderly hl hv) h.declares (h.known hv) _ _ _, .var List.mem_cons_self⟩
  | .var, hv => ⟨.empty, fun name hm ht => by
    obtain rfl := Operand.var.inj (List.mem_singleton.mp hm)
    exact absurd ht (hv name List.mem_cons_self)⟩
  | .literal, _ => ⟨.empty, fun name hm => by
    exact absurd (List.mem_singleton.mp hm).symm (Operand.ofLiteral_ne_var _ name)⟩

theorem FlattensOperand.orderly (hl : ctx.layout.Literal) {a b : Names} {e : Expr}
    {x : WithPrelude Operand} {t : List String} : FlattensOperand ctx a e x b t →
    (∀ v ∈ e.vars, ¬ IsTemporary v) → x.prelude.Orderly []
  | .value h, hv => (h.orderly hl hv).1
  | .temporary h _, hv => by
    obtain ⟨hp, hk⟩ := h.orderly hl hv
    refine hp.andThen h.declares (.temporary ?_ _ _)
    rw [List.append_nil]
    exact hk

theorem FlattensAll.orderly (hl : ctx.layout.Literal) {a b : Names} {es : List Expr}
    {xs : WithPrelude (List Operand)} {t : List String} : FlattensAll ctx a es xs b t →
    (∀ v ∈ Expr.allVars es, ¬ IsTemporary v) → xs.prelude.Orderly []
  | .nil, _ => .empty
  | .cons h hs, hv => by
    rw [Expr.allVars_cons, List.forall_mem_append] at hv
    exact (h.orderly hl hv.1).append (hs.orderly hl hv.2)

end

theorem Prelude.Orderly.finish {p : Prelude} {t : List String} (h : p.Orderly [])
    (hd : p.Declares t) {last : Instr} (hl : Known t last.operands) :
    (p ++ Prelude.ofCode [last]).Orderly [] := by
  refine h.andThen hd (.ofCode fun i hi => ?_)
  rw [List.mem_singleton.mp hi, List.append_nil]
  exact hl

theorem FlattensStmt.orderly (hl : ctx.layout.Literal) {a b : Names} {stmt : Stmt} {p : Prelude}
    {t : List String} (h : FlattensStmt ctx a stmt p b t)
    (hv : ∀ v ∈ Expr.allVars stmt.exprs, ¬ IsTemporary v) : p.Orderly [] := by
  cases h with
  | assign h | eval h =>
    simp only [Stmt.exprs, Expr.allVars_cons, List.forall_mem_append] at hv
    obtain ⟨hp, hk⟩ := h.orderly hl hv.1
    exact hp.finish h.declares hk
  | ret h =>
    simp only [Stmt.exprs, Expr.allVars_cons, List.forall_mem_append] at hv
    exact (h.orderly hl hv.1).finish h.declares (h.known hv.1)
  | pass => exact .empty
  | assignField _ hx hy =>
    simp only [Stmt.exprs, Expr.allVars_cons, List.forall_mem_append] at hv
    have hstore := (hx.known hv.1).two (hy.known hv.2.1)
    refine ((hx.orderly hl hv.1).append (hy.orderly hl hv.2.1)).finish
      (hx.declares.append hy.declares) ?_
    exact (hstore.of_mem (by simp)).cons ((Known.word _).cons (hstore.of_mem (by simp)))
  | @assignIndex _ _ _ t u w _ _ _ _ _ _ _ hx hi hy =>
    simp only [Stmt.exprs, Expr.allVars_cons, List.forall_mem_append] at hv
    have hdecl := (hx.declares.append hi.declares).append hy.declares
    have hknown := ((hx.known hv.1).two (hi.known hv.2.1)).mono (List.subset_append_left (t ++ u) w)
    have hvalue := (hy.known hv.2.2.1).mono (List.subset_append_right (t ++ u) w)
    have hreceiver := hknown.of_mem List.mem_cons_self
    have hindex := hknown.of_mem (List.mem_cons_of_mem _ List.mem_cons_self)
    have hargs := ((hx.orderly hl hv.1).append (hi.orderly hl hv.2.1)).append
      (hy.orderly hl hv.2.2.1)
    refine (hargs.andThen hdecl ?_).finish (hdecl.append (.guardedOffset ctx _ _ _ _)) ?_
    · rw [List.append_nil]
      exact .guardedOffset ctx hreceiver hindex _ _
    · exact (hreceiver.mono (List.subset_append_left _ _)).cons
        ((Known.var (by simp)).cons (hvalue.mono (List.subset_append_left _ _)))

theorem FlattensOperand.settled_testCode (hl : ctx.layout.Literal) {a b : Names} {cond : Expr}
    {x : WithPrelude Operand} {t : List String} (h : FlattensOperand ctx a cond x b t)
    (hv : ∀ v ∈ cond.vars, ¬ IsTemporary v) (thenLabel elseLabel : String) :
    Settled [] (testCode x thenLabel elseLabel) := by
  have hbranch : Known t (Instr.branch x.value thenLabel elseLabel).operands := h.known hv
  exact ((h.orderly hl hv).finish h.declares hbranch).settled

theorem settled_jump (label : String) : Settled [] [.jump label] := .single .nil

theorem Builds.orderly (hl : ctx.layout.Literal) {a b : Names} {body : List Stmt} {ds : List Decl}
    {f : Fragment} {t : List String} (h : Builds ctx a body ds f b t)
    (hv : ∀ x ∈ Source.bodyReads body, ¬ IsTemporary x) :
    f.Blockwise (Settled []) ∧ ∀ d ∈ ds, d.value = .none := by
  have happend : ∀ code more, Settled [] code → Settled [] more → Settled [] (code ++ more) :=
    fun _ _ h h' => h.append h'
  have hclosing : ∀ {code : List Instr} (label : String), Settled [] code →
      (closing code label).Blockwise (Settled []) := fun label h => .closing h trivial label
  induction h with
  | nil => exact ⟨.ofCode trivial, by simp⟩
  | plain hs _ ih =>
    rw [Source.bodyReads_plain _ hs.isPlain, List.forall_mem_append] at hv
    obtain ⟨hf, hd⟩ := ih hv.2
    obtain ⟨hp, hc⟩ := hs.orderly hl hv.1
    exact ⟨(Fragment.Blockwise.ofCode hc).append happend hf, List.forall_mem_append.mpr ⟨hp, hd⟩⟩
  | ifElse _ hx _ _ _ iht ihe ih =>
    rw [Source.bodyReads_ifElse] at hv
    simp only [List.forall_mem_append] at hv ⊢
    obtain ⟨⟨⟨hvx, hvt⟩, hve⟩, hv⟩ := hv
    obtain ⟨hthen, hdt⟩ := iht hvt
    obtain ⟨helse, hde⟩ := ihe hve
    obtain ⟨hrest, hd⟩ := ih hv
    refine ⟨?_, ⟨⟨(hx.orderly hl hvx).placeholders, hdt⟩, hde⟩, hd⟩
    have htest := fun l l' next => hclosing next (hx.settled_testCode hl hvx l l')
    have hjump := fun target next => hclosing next (settled_jump target)
    exact (((((htest _ _ _).append happend hthen).append happend (hjump _ _)).append happend helse).append
      happend (hjump _ _)).append happend hrest
  | whileLoop _ hx _ _ ihb ih =>
    rw [Source.bodyReads_whileLoop] at hv
    simp only [List.forall_mem_append] at hv ⊢
    obtain ⟨⟨hvx, hvb⟩, hv⟩ := hv
    obtain ⟨hbody, hdb⟩ := ihb hvb
    obtain ⟨hrest, hd⟩ := ih hv
    refine ⟨?_, ⟨(hx.orderly hl hvx).placeholders, hdb⟩, hd⟩
    have htest := fun l l' next => hclosing next (hx.settled_testCode hl hvx l l')
    have hjump := fun target next => hclosing next (settled_jump target)
    exact ((((hjump _ _).append happend (htest _ _ _)).append happend hbody).append happend
      (hjump _ _)).append happend hrest

/-- The temporaries that code assigns, in order. -/
def assignedTemporaries (code : List Instr) : List String :=
  (code.filterMap Instr.assigned?).filter (IsTemporary ·)

theorem assignedTemporaries_append (code more : List Instr) :
    assignedTemporaries (code ++ more) = assignedTemporaries code ++ assignedTemporaries more := by
  rw [assignedTemporaries, List.filterMap_append, List.filter_append]
  rfl

theorem Prelude.Declares.assignedTemporaries {p : Prelude} {t : List String} (h : p.Declares t)
    (ht : ∀ name ∈ t, IsTemporary name) : assignedTemporaries p.code = t := by
  rw [BlockLowering.assignedTemporaries, h.assigned]
  exact List.filter_eq_self.mpr fun name hn => decide_eq_true (ht name hn)

theorem assignedTemporaries_single {i : Instr} (h : ∀ name ∈ i.assigned?, ¬ IsTemporary name) :
    assignedTemporaries [i] = [] := by
  unfold assignedTemporaries
  cases hi : i.assigned? with
  | none => simp [hi]
  | some name => simpa [hi] using h name hi

theorem FlattensStmt.assigned {a b : Names} {stmt : Stmt} {p : Prelude} {t : List String}
    (h : FlattensStmt ctx a stmt p b t) (hv : ∀ x ∈ stmt.assigned?, ¬ IsTemporary x) :
    assignedTemporaries p.code = t := by
  have hlast : ∀ {q : Prelude} {u : List String} {last : Instr}, q.Declares u →
      (∀ name ∈ u, IsTemporary name) → (∀ name ∈ last.assigned?, ¬ IsTemporary name) →
      assignedTemporaries (q ++ Prelude.ofCode [last]).code = u := by
    intro q u last hq hu hl
    rw [Prelude.append_code, assignedTemporaries_append, hq.assignedTemporaries hu]
    exact (congrArg (u ++ ·) (assignedTemporaries_single hl)).trans (List.append_nil u)
  have ht := h.temporaries
  cases h with
  | assign h => exact hlast h.declares ht hv
  | eval h => exact hlast h.declares ht nofun
  | ret h => exact hlast h.declares ht nofun
  | pass => rfl
  | assignField _ hx hy => exact hlast (hx.declares.append hy.declares) ht nofun
  | assignIndex hx hi hy =>
    exact hlast (((hx.declares.append hi.declares).append hy.declares).append
      (.guardedOffset ctx _ _ _ _)) ht nofun

/-- The temporaries of a body are assigned as they are declared: each once, in order. -/
theorem Builds.assigned {a b : Names} {body : List Stmt} {ds : List Decl} {f : Fragment}
    {t : List String} (h : Builds ctx a body ds f b t)
    (hv : ∀ x ∈ Source.bodyTargets body, ¬ IsTemporary x) :
    assignedTemporaries f.instrs = ds.map (·.name) := by
  have htest : ∀ {a b : Names} {cond : Expr} {x : WithPrelude Operand} {t : List String}
      {l l' : String}, FlattensOperand ctx a cond x b t →
      assignedTemporaries (testCode x l l') = x.prelude.decls.map (·.name) := by
    intro a b cond x t l l' hx
    rw [testCode, assignedTemporaries_append, hx.declares.assignedTemporaries hx.temporaries,
      hx.declares.decls]
    exact List.append_nil t
  have hjump : ∀ label, assignedTemporaries [.jump label] = [] := fun _ => rfl
  induction h with
  | nil => rfl
  | plain hs _ ih =>
    rw [Source.bodyTargets_plain _ hs.isPlain, List.forall_mem_append] at hv
    rw [Fragment.instrs_append, Fragment.instrs_ofCode, assignedTemporaries_append, List.map_append,
      hs.decls, hs.assigned (by simpa using hv.1), ih hv.2]
  | ifElse _ hx _ _ _ iht ihe ih =>
    rw [Source.bodyTargets_ifElse] at hv
    simp only [List.forall_mem_append] at hv
    simp only [Fragment.instrs_append, Fragment.instrs_closing, assignedTemporaries_append,
      htest hx, hjump, iht hv.1.1, ihe hv.1.2, ih hv.2, List.map_append, List.append_nil]
  | whileLoop _ hx _ _ ihb ih =>
    rw [Source.bodyTargets_whileLoop, List.forall_mem_append] at hv
    simp only [Fragment.instrs_append, Fragment.instrs_closing, assignedTemporaries_append,
      htest hx, hjump, ihb hv.1, ih hv.2, List.map_append, List.append_nil, List.nil_append]

end BlockLowering
