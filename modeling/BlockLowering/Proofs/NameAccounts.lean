import BlockLowering.Proofs.CallCounts
import BlockLowering.Proofs.NameCapture
import BlockLowering.Proofs.NeededNames

/-! Names and blocks are accounted for, node by node. How far each counter of the supply moves, and
how many blocks there are, can be read off the source: conditionals and loops take three labels
each, and every operation, object, list and element takes its temporaries. Each name that is
drawn then stands in one place, at a block or among the declarations. -/

namespace BlockLowering

open Source (Expr Stmt Ty bodyExprs bodyNeeds)
open Flat (Decl Block)

/-- The bases of the labels that conditionals and loops take. -/
def Base.flow : List String :=
  [Base.thenBlock, Base.elseBlock, Base.endBlock, Base.loopStart, Base.loopBody, Base.loopEnd]

namespace Source

def Expr.isConstruct : Expr → Bool
  | .construct .. => true
  | _ => false

def Expr.isListLiteral : Expr → Bool
  | .listLiteral .. => true
  | _ => false

/-- The nodes that are operands: all but what a statement assigns to a variable or evaluates. -/
def Stmt.operandNodes : Stmt → List Expr
  | .assign _ _ e | .eval _ e => Expr.allNodes e.operands
  | stmt => Expr.allNodes stmt.exprs

def operandNodes (body : List Stmt) : List Expr := (Stmt.allNodes body).flatMap Stmt.operandNodes

/-- The accesses to elements, read or assigned. -/
def elementCount (body : List Stmt) : Nat :=
  (bodyExprs body).countP Expr.isIndex + (Stmt.allNodes body).countP Stmt.isAssignIndex

def ifCount (body : List Stmt) : Nat := (Stmt.allNodes body).countP Stmt.isIfElse

def whileCount (body : List Stmt) : Nat := (Stmt.allNodes body).countP Stmt.isWhileLoop

/-- How many labels of each base a body takes. -/
def labelDemand (body : List Stmt) : List (String × Nat) :=
  [(Base.thenBlock, ifCount body), (Base.elseBlock, ifCount body), (Base.endBlock, ifCount body),
    (Base.loopStart, whileCount body), (Base.loopBody, whileCount body),
    (Base.loopEnd, whileCount body)]

/-- The types of the temporaries of each base that a body takes, node by node. -/
def temporaryDemand (body : List Stmt) : List (String × List Ty) :=
  [(Base.operand, ((operandNodes body).filter Expr.isComposite).map Expr.ty),
    (Base.object, ((bodyExprs body).filter Expr.isConstruct).map Expr.ty),
    (Base.list, ((bodyExprs body).filter Expr.isListLiteral).map Expr.ty),
    (Base.length, List.replicate (elementCount body) .number),
    (Base.offset, List.replicate (elementCount body) .number)]

/-- The needs of a body by its statements, their nodes and their operands. -/
def nodeNeeds (body : List Stmt) : List Need :=
  (Stmt.allNodes body).flatMap Stmt.ownNeeds ++ (bodyExprs body).flatMap Expr.ownNeeds ++
    (operandNodes body).flatMap Expr.holder

section

variable (n : Need)

theorem Expr.count_needs_operands (e : Expr) :
    e.needs.count n = e.ownNeeds.count n + (Expr.allNeeds e.operands).count n := by
  cases e <;> simp only [Expr.needs, Expr.operands, Expr.allNeeds, Expr.ownNeeds,
    List.count_append, List.count_nil] <;> omega

theorem Expr.count_allNeeds_of {es : List Expr}
    (h : ∀ e ∈ es, e.needs.count n = (e.nodes.flatMap Expr.ownNeeds).count n +
      ((Expr.allNodes e.operands).flatMap Expr.holder).count n) :
    (Expr.allNeeds es).count n = ((Expr.allNodes es).flatMap Expr.ownNeeds).count n +
      ((Expr.allNodes es).flatMap Expr.holder).count n := by
  induction es with
  | nil => rfl
  | cons e es ih =>
    rw [List.forall_mem_cons] at h
    have hholder : (e.nodes.flatMap Expr.holder).count n =
        e.holder.count n + ((Expr.allNodes e.operands).flatMap Expr.holder).count n := by
      rw [Expr.nodes_eq, List.flatMap_cons, List.count_append]
    simp only [Expr.allNeeds, Expr.allNodes, List.flatMap_append, List.count_append, h.1,
      ih h.2, hholder]
    omega

theorem Expr.count_needs (e : Expr) :
    e.needs.count n = (e.nodes.flatMap Expr.ownNeeds).count n +
      ((Expr.allNodes e.operands).flatMap Expr.holder).count n := by
  induction e using Expr.operandInduction with
  | h e ih =>
    rw [e.count_needs_operands, Expr.count_allNeeds_of n ih, Expr.nodes_eq, List.flatMap_cons,
      List.count_append]
    omega

theorem Expr.count_allNeeds (es : List Expr) :
    (Expr.allNeeds es).count n = ((Expr.allNodes es).flatMap Expr.ownNeeds).count n +
      ((Expr.allNodes es).flatMap Expr.holder).count n :=
  Expr.count_allNeeds_of n fun e _ => e.count_needs n

theorem Stmt.count_needs {stmt : Stmt} (h : stmt.isPlain = true) :
    stmt.needs.count n = stmt.ownNeeds.count n +
      ((Expr.allNodes stmt.exprs).flatMap Expr.ownNeeds).count n +
      (stmt.operandNodes.flatMap Expr.holder).count n := by
  cases stmt with
  | ifElse | whileLoop => cases h
  | assign _ _ e | eval _ e =>
    simp only [Stmt.needs, Stmt.exprs, Stmt.operandNodes, Stmt.ownNeeds, e.count_needs,
      Expr.allNodes, List.append_nil, List.count_nil]
    omega
  | assignIndex =>
    simp only [Stmt.needs, Stmt.exprs, Stmt.operandNodes, List.count_append,
      Expr.count_allNeeds]
    omega
  | _ =>
    simp only [Stmt.needs, Stmt.exprs, Stmt.operandNodes, Stmt.ownNeeds, Expr.count_allNeeds,
      List.count_nil]
    omega

/-- Both lists have each need as often; only their order differs. -/
theorem count_bodyNeeds (body : List Stmt) :
    (bodyNeeds body).count n = (nodeNeeds body).count n := by
  simp only [nodeNeeds, bodyExprs, operandNodes, List.count_append]
  induction body using Stmt.bodyInduction with
  | nil => rfl
  | plain stmt rest hp ih =>
    simp only [bodyNeeds, Stmt.allNodes_plain rest hp, List.flatMap_cons, List.flatMap_append,
      List.count_append, stmt.count_needs n hp, ih]
    omega
  | ifElse note cond thenBody elseBody rest iht ihe ih =>
    simp only [bodyNeeds, Stmt.needs, Stmt.allNodes_ifElse, List.flatMap_cons,
      List.flatMap_append, List.count_append, Expr.count_allNeeds, Stmt.exprs,
      Stmt.operandNodes, iht, ihe, ih]
    omega
  | whileLoop note cond body rest ihb ih =>
    simp only [bodyNeeds, Stmt.needs, Stmt.allNodes_whileLoop, List.flatMap_cons,
      List.flatMap_append, List.count_append, Expr.count_allNeeds, Stmt.exprs,
      Stmt.operandNodes, ihb, ih]
    omega

end

theorem bodyNeeds_perm (body : List Stmt) : (bodyNeeds body).Perm (nodeNeeds body) :=
  List.perm_iff_count.mpr fun n => count_bodyNeeds n body

/-- Expressions need temporaries only. -/
theorem Expr.exists_of_mem_needs {e : Expr} {n : Need} (h : n ∈ e.ownNeeds ++ e.holder) :
    ∃ base ∈ Base.temporaries, ∃ ty, n = .temporary base ty := by
  rcases List.mem_append.mp h with h | h
  · cases e with
    | index =>
      rcases List.mem_pair.mp h with rfl | rfl
      · exact ⟨Base.length, by decide, _, rfl⟩
      · exact ⟨Base.offset, by decide, _, rfl⟩
    | construct => exact ⟨Base.object, by decide, _, List.mem_singleton.mp h⟩
    | listLiteral => exact ⟨Base.list, by decide, _, List.mem_singleton.mp h⟩
    | _ => cases h
  · rw [Expr.holder] at h
    by_cases hc : e.isComposite = true
    · rw [if_pos hc] at h
      exact ⟨Base.operand, by decide, _, List.mem_singleton.mp h⟩
    · rw [if_neg hc] at h
      cases h

theorem Stmt.mem_needs {stmt : Stmt} {n : Need} (h : n ∈ stmt.ownNeeds) :
    (∃ base ∈ Base.temporaries, ∃ ty, n = .temporary base ty) ∨
      ∃ base ∈ Base.flow, n = .label base := by
  cases stmt with
  | assignIndex =>
    rcases List.mem_pair.mp h with rfl | rfl
    · exact Or.inl ⟨Base.length, by decide, _, rfl⟩
    · exact Or.inl ⟨Base.offset, by decide, _, rfl⟩
  | ifElse | whileLoop =>
    simp only [Stmt.ownNeeds, List.mem_cons, List.not_mem_nil, or_false] at h
    rcases h with rfl | rfl | rfl <;> exact Or.inr ⟨_, by decide, rfl⟩
  | _ => cases h

/-- Labels and temporaries have bases of their own. -/
theorem mem_bodyNeeds {body : List Stmt} {n : Need} (h : n ∈ bodyNeeds body) :
    (∃ base ∈ Base.temporaries, ∃ ty, n = .temporary base ty) ∨
      ∃ base ∈ Base.flow, n = .label base := by
  have hn := (bodyNeeds_perm body).mem_iff.mp h
  simp only [nodeNeeds, List.mem_append, List.mem_flatMap] at hn
  rcases hn with (⟨stmt, -, hs⟩ | ⟨e, -, he⟩) | ⟨e, -, he⟩
  · exact Stmt.mem_needs hs
  · exact Or.inl (Expr.exists_of_mem_needs (List.mem_append_left _ he))
  · exact Or.inl (Expr.exists_of_mem_needs (List.mem_append_right _ he))

theorem flow_disjoint : ∀ base ∈ Base.flow, base ∉ Base.temporaries := by decide

theorem bodyNeeds_base {body : List Stmt} :
    ∀ n ∈ bodyNeeds body, n.base ∈ Base.temporaries ++ Base.flow := by
  intro n hn
  rcases mem_bodyNeeds hn with ⟨base, hb, ty, rfl⟩ | ⟨base, hb, rfl⟩
  · exact List.mem_append_left _ hb
  · exact List.mem_append_right _ hb

theorem label_notMem_bodyNeeds {base : String} (hb : base ∈ Base.temporaries) (body : List Stmt) :
    .label base ∉ bodyNeeds body := by
  intro h
  rcases mem_bodyNeeds h with ⟨other, -, ty, he⟩ | ⟨other, ho, he⟩
  · cases he
  · cases he
    exact flow_disjoint base ho hb

theorem countP_needs_eq_zero {l : List Expr} {f : Expr → List Need}
    (hf : ∀ e, f e ⊆ e.ownNeeds ++ e.holder) {base : String} (hb : base ∈ Base.flow) :
    (l.flatMap f).countP (·.base = base) = 0 := by
  rw [List.countP_eq_zero]
  intro n hn he
  obtain ⟨e, -, hn⟩ := List.mem_flatMap.mp hn
  obtain ⟨other, ho, ty, rfl⟩ := Expr.exists_of_mem_needs (hf e hn)
  exact flow_disjoint base hb (of_decide_eq_true he ▸ ho)

/-- The labels of a base are needed by the statements of one kind, once by each. -/
theorem countP_bodyNeeds {base : String} (hb : base ∈ Base.flow) {kind : Stmt → Bool}
    (hk : ∀ stmt, stmt.ownNeeds.countP (·.base = base) = if kind stmt then 1 else 0)
    (body : List Stmt) :
    (bodyNeeds body).countP (·.base = base) = (Stmt.allNodes body).countP kind := by
  rw [(bodyNeeds_perm body).countP_eq, nodeNeeds, List.countP_append, List.countP_append,
    countP_flatMap_eq fun stmt _ => hk stmt,
    countP_needs_eq_zero (fun e => List.subset_append_left _ _) hb,
    countP_needs_eq_zero (fun e => List.subset_append_right _ _) hb, Nat.add_zero]

theorem countP_labelDemand {body : List Stmt} {base : String} {n : Nat}
    (h : (base, n) ∈ labelDemand body) : (bodyNeeds body).countP (·.base = base) = n := by
  simp only [labelDemand, List.mem_cons, Prod.mk.injEq, List.not_mem_nil, or_false] at h
  rcases h with ⟨rfl, rfl⟩ | ⟨rfl, rfl⟩ | ⟨rfl, rfl⟩ | ⟨rfl, rfl⟩ | ⟨rfl, rfl⟩ | ⟨rfl, rfl⟩ <;>
    exact countP_bodyNeeds (by decide) (fun stmt => by cases stmt <;> rfl) body

theorem typesFor_flatMap {α : Type} {base : String} {f : α → List Need} {kind : α → Bool}
    {ty : α → Ty} (h : ∀ x, typesFor base (f x) = if kind x then [ty x] else []) (l : List α) :
    typesFor base (l.flatMap f) = (l.filter kind).map ty := by
  induction l with
  | nil => rfl
  | cons x l ih =>
    have hcons : typesFor base (f x ++ l.flatMap f) =
        typesFor base (f x) ++ typesFor base (l.flatMap f) := List.filterMap_append
    rw [List.flatMap_cons, hcons, h, ih]
    by_cases hk : kind x = true
    · rw [if_pos hk, List.filter_cons_of_pos hk, List.map_cons, List.singleton_append]
    · rw [if_neg hk, List.filter_cons_of_neg hk, List.nil_append]

section

variable (base : String) (inStmts : Stmt → Bool) (inNodes held : Expr → Bool) (ty : Expr → Ty)
  (body : List Stmt)

/-- The types of the temporaries of a base, from the statements, the nodes and the operands that
need them. -/
theorem typesFor_bodyNeeds
    (hs : ∀ stmt, typesFor base (Stmt.ownNeeds stmt) = if inStmts stmt then [.number] else [])
    (hn : ∀ e, typesFor base (Expr.ownNeeds e) = if inNodes e then [ty e] else [])
    (hh : ∀ e, typesFor base (Expr.holder e) = if held e then [e.ty] else []) :
    (typesFor base (bodyNeeds body)).Perm
      (((Stmt.allNodes body).filter inStmts).map (fun _ => .number) ++
        ((bodyExprs body).filter inNodes).map ty ++
        ((operandNodes body).filter held).map Expr.ty) := by
  have hnodes : typesFor base (nodeNeeds body) =
      typesFor base ((Stmt.allNodes body).flatMap Stmt.ownNeeds) ++
        typesFor base ((bodyExprs body).flatMap Expr.ownNeeds) ++
        typesFor base ((operandNodes body).flatMap Expr.holder) := by
    simp only [typesFor, nodeNeeds, List.filterMap_append]
  rw [typesFor_flatMap hs, typesFor_flatMap hn, typesFor_flatMap hh] at hnodes
  rw [← hnodes]
  exact (bodyNeeds_perm body).filterMap _

end

theorem replicate_elementCount (body : List Stmt) :
    ((Stmt.allNodes body).filter Stmt.isAssignIndex).map (fun _ => Ty.number) ++
      ((bodyExprs body).filter Expr.isIndex).map (fun _ => Ty.number) =
      List.replicate (elementCount body) .number := by
  rw [List.map_const', List.map_const', List.replicate_append_replicate,
    ← List.countP_eq_length_filter, ← List.countP_eq_length_filter, elementCount, Nat.add_comm]

theorem typesFor_temporaryDemand {body : List Stmt} {base : String} {types : List Ty}
    (h : (base, types) ∈ temporaryDemand body) : (typesFor base (bodyNeeds body)).Perm types := by
  simp only [temporaryDemand, List.mem_cons, Prod.mk.injEq, List.not_mem_nil, or_false] at h
  rcases h with ⟨rfl, rfl⟩ | ⟨rfl, rfl⟩ | ⟨rfl, rfl⟩ | ⟨rfl, rfl⟩ | ⟨rfl, rfl⟩
  · have hp := typesFor_bodyNeeds Base.operand (fun _ => false) (fun _ => false) Expr.isComposite
      Expr.ty body (by rintro ⟨⟩ <;> rfl) (by rintro ⟨⟩ <;> rfl) (by rintro ⟨⟩ <;> rfl)
    simpa using hp
  · have hp := typesFor_bodyNeeds Base.object (fun _ => false) Expr.isConstruct (fun _ => false)
      Expr.ty body (by rintro ⟨⟩ <;> rfl) (by rintro ⟨⟩ <;> rfl) (by rintro ⟨⟩ <;> rfl)
    simpa using hp
  · have hp := typesFor_bodyNeeds Base.list (fun _ => false) Expr.isListLiteral (fun _ => false)
      Expr.ty body (by rintro ⟨⟩ <;> rfl) (by rintro ⟨⟩ <;> rfl) (by rintro ⟨⟩ <;> rfl)
    simpa using hp
  · have hp := typesFor_bodyNeeds Base.length Stmt.isAssignIndex Expr.isIndex (fun _ => false)
      (fun _ => .number) body (by rintro ⟨⟩ <;> rfl) (by rintro ⟨⟩ <;> rfl) (by rintro ⟨⟩ <;> rfl)
    rwa [replicate_elementCount, List.filter_false, List.map_nil, List.append_nil] at hp
  · have hp := typesFor_bodyNeeds Base.offset Stmt.isAssignIndex Expr.isIndex (fun _ => false)
      (fun _ => .number) body (by rintro ⟨⟩ <;> rfl) (by rintro ⟨⟩ <;> rfl) (by rintro ⟨⟩ <;> rfl)
    rwa [replicate_elementCount, List.filter_false, List.map_nil, List.append_nil] at hp

theorem temporaryDemand_base {body : List Stmt} {base : String} {types : List Ty}
    (h : (base, types) ∈ temporaryDemand body) : base ∈ Base.temporaries :=
  List.mem_map_of_mem (f := Prod.fst) h

theorem labelDemand_base {body : List Stmt} {base : String} {n : Nat}
    (h : (base, n) ∈ labelDemand body) : base ∈ Base.flow :=
  List.mem_map_of_mem (f := Prod.fst) h

end Source

theorem typesFor_length {base : String} {needs : List Need} (h : .label base ∉ needs) :
    (typesFor base needs).length = needs.countP (·.base = base) := by
  induction needs with
  | nil => rfl
  | cons n needs ih =>
    rw [List.mem_cons, not_or] at h
    cases n with
    | label other =>
      have hne : ¬ other = base := fun he => h.1 (congrArg Need.label he.symm)
      rw [List.countP_cons_of_neg (by simp [Need.base, hne]), ← ih h.2]
      rfl
    | temporary other ty =>
      by_cases he : other = base
      · rw [List.countP_cons_of_pos (by simp [Need.base, he]), ← ih h.2]
        simp [typesFor, Need.typeFor, he]
      · rw [List.countP_cons_of_neg (by simp [Need.base, he]), ← ih h.2]
        simp [typesFor, Need.typeFor, he]

theorem not_isTemporary_numbered {base : String} (hp : PlainBase base)
    (hb : base ∉ Base.temporaries) (k : Nat) : ¬ IsTemporary (base ++ toString k) := by
  intro h
  have hplain : ∀ b ∈ Base.temporaries, PlainBase b := by decide
  have hown : NumberedFrom [base] (base ++ toString k) :=
    numberedFrom_numbered (List.mem_singleton_self base) k
  obtain ⟨other, ho, ho'⟩ := hown.common (List.forall_mem_singleton.mpr hp) hplain h
  exact hb (List.mem_singleton.mp ho ▸ ho')

variable {ctx : Context}

theorem Builds.blocks_length {a b : Names} {body : List Stmt} {ds : List Decl} {f : Fragment}
    {t : List String} (h : Builds ctx a body ds f b t) :
    f.blocks.length = 3 * (Source.ifCount body + Source.whileCount body) := by
  simp only [Source.ifCount, Source.whileCount]
  induction h with
  | nil => rfl
  | @plain _ _ _ _ _ stmt _ _ _ _ hs _ ih =>
    have hif : ¬ stmt.isIfElse = true := by cases hs <;> exact Bool.false_ne_true
    have hwhile : ¬ stmt.isWhileLoop = true := by cases hs <;> exact Bool.false_ne_true
    rw [Fragment.blocks_append_length, ih, Stmt.allNodes_plain _ hs.isPlain,
      List.countP_cons_of_neg hif, List.countP_cons_of_neg hwhile]
    exact Nat.zero_add _
  | ifElse _ hx _ _ _ iht ihe ih =>
    simp only [Fragment.blocks_append_length, Fragment.blocks_closing_length, iht, ihe, ih,
      Stmt.allNodes_ifElse, List.countP_cons, List.countP_append, Stmt.isIfElse, Stmt.isWhileLoop]
    simp only [if_true, Bool.false_eq_true, if_false]
    omega
  | whileLoop _ hx _ _ ihb ih =>
    simp only [Fragment.blocks_append_length, Fragment.blocks_closing_length, ihb, ih,
      Stmt.allNodes_whileLoop, List.countP_cons, List.countP_append, Stmt.isIfElse,
      Stmt.isWhileLoop]
    simp only [if_true, Bool.false_eq_true, if_false]
    omega

section

variable {entry : String} {a b : Names} {body : List Stmt} {ds : List Decl} {f : Fragment}
  {t : List String}

/-- A name that was drawn stands at one block or in one declaration. -/
theorem Builds.count_numbered (hp : PlainBase entry)
    (h : Builds ctx (a.advance entry) body ds f b t) {base : String} (hb : PlainBase base) {k : Nat}
    (hlo : a.count base < k) (hhi : k ≤ b.count base) :
    ((f.toBlocks (a.fresh entry)).map (·.label)).count (base ++ toString k) +
      (ds.map (·.name)).count (base ++ toString k) = 1 := by
  have hdraws : Draws a b (a.fresh entry :: t) := (Draws.advance a hp).trans h.draws
  have hperm : ((f.toBlocks (a.fresh entry)).map (·.label) ++ ds.map (·.name)).Perm
      (a.fresh entry :: t) := h.names_perm.cons _
  rw [← List.count_append, hperm.count_eq]
  exact List.count_eq_one_of_mem hdraws.nodup ((hdraws.numbered_mem_iff hb).mpr ⟨hlo, hhi⟩)

theorem Builds.count_decls_eq_zero (h : Builds ctx a body ds f b t) {name : String}
    (hn : ¬ IsTemporary name) : (ds.map (·.name)).count name = 0 :=
  List.count_eq_zero.mpr fun hm => hn (h.temporaries name hm)

theorem Builds.count_labels_eq_zero (hp : PlainBase entry) (he : entry ∉ Base.temporaries)
    (h : Builds ctx (a.advance entry) body ds f b t) {name : String} (hn : IsTemporary name) :
    ((f.toBlocks (a.fresh entry)).map (·.label)).count name = 0 := by
  refine List.count_eq_zero.mpr fun hm => ?_
  rcases List.mem_cons.mp hm with rfl | hm
  · exact not_isTemporary_numbered hp he _ hn
  · exact not_isTemporary_of_label (h.labels_numbered name hm) hn

/-- How far the counters of labels move, that of the first block included. -/
theorem Builds.count_labelDemand (he : entry ∉ Base.temporaries ++ Base.flow)
    (h : Builds ctx (a.advance entry) body ds f b t) {base : String} {n : Nat}
    (hm : (base, n) ∈ (entry, 1) :: Source.labelDemand body) :
    b.count base = a.count base + n := by
  rw [h.serves.count_eq]
  rcases List.mem_cons.mp hm with heq | hm
  · cases heq
    have hnone : (bodyNeeds body).countP (·.base = entry) = 0 := by
      rw [List.countP_eq_zero]
      exact fun n hn hb => he (of_decide_eq_true hb ▸ Source.bodyNeeds_base n hn)
    rw [a.count_advance_self, hnone]
  · have hne : base ≠ entry :=
      fun heq => he (heq ▸ List.mem_append_right _ (Source.labelDemand_base hm))
    rw [a.count_advance_of_ne hne, Source.countP_labelDemand hm]

end

/-- What a lowered body takes from the supply, and where it stands. The counters of labels and
temporaries move by what the source demands, and no others; a label that was drawn is at one
block, and a temporary in one declaration. The temporaries of a base are declared in the order of
their numbers, with the types of the nodes in the order in which they are flattened. No counter has
gone past the last number. -/
structure Accounted (entry : String) (body : List Stmt) (names after : Names) (decls : List Decl)
    (blocks : List Block) : Prop where
  size : blocks.length = 1 + 3 * (Source.ifCount body + Source.whileCount body)
  labels : ∀ base n, (base, n) ∈ (entry, 1) :: Source.labelDemand body →
    after.count base = names.count base + n ∧
    ∀ k, names.count base < k → k ≤ after.count base →
      (blocks.map (·.label)).count (base ++ toString k) = 1 ∧
      (decls.map (·.name)).count (base ++ toString k) = 0
  temporaries : ∀ base types, (base, types) ∈ Source.temporaryDemand body →
    after.count base = names.count base + types.length ∧
    (∀ k, names.count base < k → k ≤ after.count base →
      (decls.map (·.name)).count (base ++ toString k) = 1 ∧
      (blocks.map (·.label)).count (base ++ toString k) = 0) ∧
    (typesFor base (bodyNeeds body)).Perm types ∧
    decls.filter (fun d => NumberedFrom [base] d.name) = (typesFor base (bodyNeeds body)).mapIdx
      fun i ty => .temporary (base ++ toString (names.count base + i + 1)) ty
  declared : ∀ d ∈ decls, IsTemporary d.name
  others : ∀ base, base ≠ entry → base ∉ Base.temporaries ++ Base.flow →
    after.last? base = names.last? base
  bounded : ∀ base, after.count base ≤ Names.maxNumber

/-- Whenever a body is lowered from an entry label with a base of its own, without counting past the
last number, the supply moves as its text says, and each name that was drawn is in its one
place. -/
theorem names_and_blocks_accounted {entry : String} (hplain : PlainBase entry)
    (hentry : entry ∉ Base.temporaries ++ Base.flow) {body : List Stmt} {names : Names}
    {decls : List Decl} {blocks : List Block}
    (h : (buildBody ctx entry body names).verdict = .value (decls, blocks)) :
    Accounted entry body names (buildBody ctx entry body names).names decls blocks := by
  obtain ⟨hfits, hresult⟩ := (Outcome.verdict_eq_iff _ _).mp h
  obtain ⟨f, t, hb, rfl, -⟩ := buildBody_builds (Lower.yields_of_result hresult)
  have hplains : ∀ base ∈ Base.temporaries ++ Base.flow, PlainBase base := by decide
  have hown : entry ∉ Base.temporaries := fun he => hentry (List.mem_append_left _ he)
  refine ⟨?_, fun base n hm => ?_, fun base types hm => ?_, fun d hd => ?_,
    fun base hne hbase => ?_, (Names.fits_iff _).mp hfits⟩
  · rw [Fragment.toBlocks, List.length_cons, hb.blocks_length, Nat.add_comm]
  · refine ⟨hb.count_labelDemand hentry hm, fun k hlo hhi => ?_⟩
    have hlabel : PlainBase base ∧ base ∉ Base.temporaries := by
      rcases List.mem_cons.mp hm with heq | hm
      · cases heq
        exact ⟨hplain, hown⟩
      · have hflow := Source.labelDemand_base hm
        exact ⟨hplains base (List.mem_append_right _ hflow), Source.flow_disjoint base hflow⟩
    have hzero := hb.count_decls_eq_zero (not_isTemporary_numbered hlabel.1 hlabel.2 k)
    have hsum := hb.count_numbered hplain hlabel.1 hlo hhi
    omega
  · have hbase := Source.temporaryDemand_base hm
    have hne : base ≠ entry := fun he => hown (he ▸ hbase)
    have hp := hplains base (List.mem_append_left _ hbase)
    have hnone := Source.label_notMem_bodyNeeds hbase body
    have htypes := Source.typesFor_temporaryDemand hm
    refine ⟨?_, fun k hlo hhi => ?_, htypes, ?_⟩
    · rw [hb.serves.count_eq, names.count_advance_of_ne hne, ← typesFor_length hnone,
        htypes.length_eq]
    · have hzero := hb.count_labels_eq_zero hplain hown (isTemporary_numbered hbase k)
      have hsum := hb.count_numbered hplain hp hlo hhi
      omega
    · rw [hb.serves.decls_filter (fun n hn => hplains _ (Source.bodyNeeds_base n hn)) hp hnone,
        names.count_advance_of_ne hne]
  · exact hb.temporaries d.name (List.mem_map_of_mem hd)
  · have hnone : ∀ n ∈ bodyNeeds body, n.base ≠ base :=
      fun n hn he => hbase (he ▸ Source.bodyNeeds_base n hn)
    rw [hb.serves.last?_eq hnone, names.last?_advance_of_ne hne]

theorem refill_accounted :
    let ctx : Context := ⟨.ofClasses [⟨"Pool", [⟨"free", .number, .num 0, {}⟩], [], {}⟩], {}⟩
    let names : Names := ({} : Names).advance Base.operand
    ∃ decls blocks, (buildBody ctx "run" Source.refill names).verdict = .value (decls, blocks) ∧
      blocks.length = 7 ∧
      Accounted "run" Source.refill names (buildBody ctx "run" Source.refill names).names decls
        blocks := by
  intro ctx names
  obtain ⟨⟨decls, blocks⟩, hb⟩ := ok_of_isOk
    (show (buildBody ctx "run" Source.refill names).result.isOk = true by decide +kernel)
  have hv : (buildBody ctx "run" Source.refill names).verdict = .value (decls, blocks) :=
    (Outcome.verdict_eq_iff _ _).mpr ⟨by decide +kernel, hb⟩
  have haccounted := names_and_blocks_accounted (by decide) (by decide) hv
  have hcount : 1 + 3 * (Source.ifCount Source.refill + Source.whileCount Source.refill) = 7 := by
    decide
  exact ⟨decls, blocks, hv, haccounted.size.trans hcount, haccounted⟩

end BlockLowering
