import BlockLowering.Proofs.ProgramBodies
import BlockLowering.Proofs.SingleAssignment

/-! New lists and objects are filled before they are used. The words of an allocation are written in
order, right after it as far as the code mentions what was allocated: the length and the elements
of a list, the initial values of the fields of an object. Only then is the object passed to its
initializer. The elements of a list are computed in between, but cannot mention it. -/

namespace BlockLowering

open Source (Expr Stmt Note)
open Flat (Operand Rhs Instr Decl Block)
open Fragment (ofCode closing)

namespace Table

variable {α : Type}

theorem setEntry_of_notMem {name : String} {l : List (String × α)} (h : name ∉ l.map (·.1))
    (value : α) : setEntry name value l = l ++ [(name, value)] := by
  induction l with
  | nil => rfl
  | cons e rest ih =>
    obtain ⟨k, v⟩ := e
    rw [List.map_cons, List.mem_cons, not_or] at h
    rw [setEntry, if_neg (Ne.symm h.1), ih h.2, List.cons_append]

theorem entries_ofList {entries : List (String × α)} (h : (entries.map (·.1)).Nodup) :
    (ofList entries).entries = entries := by
  suffices hfold : ∀ t : Table α, (t.entries.map (·.1) ++ entries.map (·.1)).Nodup →
      (entries.foldl (fun t e => t.insert e.1 e.2) t).entries = t.entries ++ entries from
    hfold ⟨[]⟩ h
  induction entries with
  | nil => exact fun t _ => (List.append_nil _).symm
  | cons e rest ih =>
    intro t ht
    have hnew : e.1 ∉ t.entries.map (·.1) := by
      rw [List.map_cons, List.nodup_middle, List.nodup_cons, List.mem_append, not_or] at ht
      exact ht.1.1
    have hinsert : (t.insert e.1 e.2).entries = t.entries ++ [e] := setEntry_of_notMem hnew e.2
    rw [List.foldl_cons, ih (List.nodup_cons.mp h).2, hinsert, List.append_assoc]
    · rfl
    · rw [hinsert]
      simpa using ht

end Table

/-- The initial values of the fields of a class. -/
def Source.Class.initials (c : Source.Class) : List Operand :=
  c.fields.map fun d => .ofLiteral d.value

theorem ClassLayout.values_ofFields {fields : List Source.Decl}
    (h : (fields.map (·.name)).Nodup) : (ofFields fields).values =
      fields.zipIdx.map fun (d, i) => ⟨UInt32.ofNat i, .ofLiteral d.value⟩ := by
  have hkeys : ((fields.zipIdx.map fun (d, i) =>
      (d.name, (⟨UInt32.ofNat i, .ofLiteral d.value⟩ : Slot))).map (·.1)).Nodup := by
    have hnames : fields.map (·.name) = (fields.zipIdx.map Prod.fst).map (·.name) := by
      rw [List.zipIdx_map_fst]
    rw [hnames, List.map_map] at h
    rwa [List.map_map]
  rw [ofFields, Table.values, Table.entries_ofList hkeys, List.map_map]
  rfl

/-- The instructions that mention what was allocated, from the allocation of `n` words on. They
start with the stores of the contents of a list, or with those of an object and the call of its
initializer. -/
inductive Initialised (classes : List Source.Class) (settings : Settings) (name : String) :
    UInt32 → List Instr → Prop
  | list {n elements more} : n.toNat = elements.length + 1 → .var name ∉ elements →
      Initialised classes settings name n
        (storeElements (.var name) 0 (.num elements.length :: elements) ++ more)
  | object {n c more} : c ∈ classes → n.toNat = c.fields.length →
      Initialised classes settings name n
        (storeElements (.var name) 0 c.initials ++
          helperCall (settings.methodName c.name settings.initMethod) [.var name] :: more)

/-- Each allocation puts a number of words in a name, and the code after it fills them. -/
def Filled (classes : List Source.Class) (settings : Settings) : List Instr → Prop
  | [] => True
  | i :: rest =>
    (∀ name size, i = .assign name (.alloc size) → ∃ n, size = .word n ∧
      Initialised classes settings name n (rest.filter (·.Uses name))) ∧
    Filled classes settings rest

def Flat.Instr.Allocates (i : Instr) : Prop := ∃ name size, i = .assign name (.alloc size)

variable {classes : List Source.Class} {settings : Settings} {name : String}

theorem Initialised.append {n : UInt32} {code : List Instr}
    (h : Initialised classes settings name n code) (more : List Instr) :
    Initialised classes settings name n (code ++ more) := by
  cases h with
  | list hn he =>
    rw [List.append_assoc]
    exact .list hn he
  | object hc hn =>
    rw [List.append_assoc, List.cons_append]
    exact .object hc hn

namespace Filled

variable {code more : List Instr}

theorem append (h : Filled classes settings code) (h' : Filled classes settings more) :
    Filled classes settings (code ++ more) := by
  induction code with
  | nil => exact h'
  | cons i rest ih =>
    refine ⟨fun name size he => ?_, ih h.2⟩
    obtain ⟨n, hn, hi⟩ := h.1 name size he
    refine ⟨n, hn, ?_⟩
    change Initialised classes settings name n ((rest ++ more).filter (·.Uses name))
    rw [List.filter_append]
    exact hi.append _

theorem of_forall (h : ∀ i ∈ code, ¬ i.Allocates) : Filled classes settings code := by
  induction code with
  | nil => trivial
  | cons i rest ih =>
    rw [List.forall_mem_cons] at h
    exact ⟨fun name size he => absurd ⟨name, size, he⟩ h.1, ih h.2⟩

theorem concat {i : Instr} (h : Filled classes settings code) (hi : ¬ i.Allocates) :
    Filled classes settings (code ++ [i]) :=
  h.append (.of_forall (List.forall_mem_singleton.mpr hi))

theorem at_alloc {front back : List Instr} {size : Operand}
    (h : Filled classes settings (front ++ .assign name (.alloc size) :: back)) :
    ∃ n, size = .word n ∧ Initialised classes settings name n (back.filter (·.Uses name)) := by
  induction front with
  | nil => exact h.1 name size rfl
  | cons i front ih => exact ih h.2

end Filled

theorem not_allocates_assign {r : Rhs} (h : ∀ size, r ≠ .alloc size) (name : String) :
    ¬ (Instr.assign name r).Allocates := by
  rintro ⟨_, size, he⟩
  exact h size (Instr.assign.inj he).2

theorem not_allocates_eval {r : Rhs} : ¬ (Instr.eval r).Allocates := nofun

theorem storeElements_uses (name : String) (values : List Operand) (offset : Nat) :
    (storeElements (.var name) offset values).filter (·.Uses name) =
      storeElements (.var name) offset values := by
  induction values generalizing offset with
  | nil => rfl
  | cons v rest ih =>
    have huse : (Instr.store (.var name) (.word (UInt32.ofNat offset)) v).Uses name :=
      Or.inr List.mem_cons_self
    simp [storeElements, huse, ih]

theorem storeElements_not_allocates {list : Operand} {offset : Nat} {values : List Operand} :
    ∀ i ∈ storeElements list offset values, ¬ i.Allocates := by
  intro i hi
  obtain ⟨base, k, value, rfl⟩ := exists_store_of_mem hi
  rintro ⟨_, _, he⟩
  cases he

theorem stores_eq_storeElements (name : String) (fields : List Source.Decl) (k : Nat) :
    ((fields.zipIdx k).map fun (d, i) =>
      Instr.store (.var name) (.word (UInt32.ofNat i)) (.ofLiteral d.value)) =
      storeElements (.var name) k (fields.map fun d => .ofLiteral d.value) := by
  induction fields generalizing k with
  | nil => rfl
  | cons d rest ih =>
    rw [List.zipIdx_cons, List.map_cons, ih]
    rfl

variable {ctx : Context} {nodes : List Expr}

/-- The elements of a list literal. -/
def Source.Expr.elements? : Expr → Option (List Expr)
  | .listLiteral _ elements => some elements
  | _ => none

/-- Classes whose fields have names and words of their own, lists whose lengths are words, and
variables that no temporary is named after. -/
structure Fillable (ctx : Context) (classes : List Source.Class) (nodes : List Expr) : Prop where
  layout : ctx.layout = .ofClasses classes
  distinct : ∀ c ∈ classes, (c.fields.map (·.name)).Nodup
  fields : ∀ c ∈ classes, c.fields.length < 2 ^ 32 - 1
  lists : ∀ e ∈ nodes, ∀ elements ∈ e.elements?, elements.length < 2 ^ 32 - 1
  reads : ∀ x ∈ nodes.filterMap Expr.varName?, ¬ IsTemporary x

theorem newObject_filled (h : Fillable ctx classes nodes) {className : String}
    {fields : ClassLayout} (hf : ctx.layout.fields? className = some fields) (note : Note)
    (name : String) :
    Filled classes ctx.settings (newObject ctx note className fields name).code := by
  rw [h.layout] at hf
  obtain ⟨c, hc, rfl, rfl⟩ := Layout.exists_class hf
  have hvalues := ClassLayout.values_ofFields (h.distinct c hc)
  have hsize : (ClassLayout.ofFields c.fields).size = c.fields.length := by
    rw [Table.size, ← List.length_map (·.2), ← Table.values, hvalues, List.length_map,
      List.length_zipIdx]
  have hcode : (newObject ctx note c.name (.ofFields c.fields) name).code =
      .assign name (.alloc (.word (UInt32.ofNat c.fields.length))) ::
        (storeElements (.var name) 0 c.initials ++
          [helperCall (ctx.settings.methodName c.name ctx.settings.initMethod) [.var name]]) := by
    rw [Source.Class.initials, ← stores_eq_storeElements, ← hsize]
    simp only [newObject, Prelude.append_code, hvalues, List.map_map]
    rfl
  have hinit : (helperCall (ctx.settings.methodName c.name ctx.settings.initMethod)
      [.var name]).Uses name := Or.inr List.mem_cons_self
  have hshort := h.fields c hc
  rw [hcode]
  refine ⟨?_, (Filled.of_forall storeElements_not_allocates).concat not_allocates_eval⟩
  rintro _ _ ⟨⟩
  refine ⟨_, rfl, ?_⟩
  rw [List.filter_append, storeElements_uses, List.filter_cons_of_pos (by simpa using hinit)]
  refine .object hc ?_
  rw [UInt32.toNat_ofNat']
  omega

/-- The code for the elements does not mention the list: the list's name was drawn before it. -/
theorem newList_filled {xs : WithPrelude (List Operand)} (hx : Filled classes settings xs.prelude.code)
    (hcode : ∀ i ∈ xs.prelude.code, ¬ i.Uses name) (hvalues : .var name ∉ xs.value)
    (hshort : xs.value.length < 2 ^ 32 - 1) (note : Note) :
    Filled classes settings (newList note name xs.value.length xs).code := by
  have he : (newList note name xs.value.length xs).code =
      .assign name (.alloc (.word (UInt32.ofNat (xs.value.length + 1)))) ::
        (xs.prelude.code ++ storeElements (.var name) 0 (.num xs.value.length :: xs.value)) := rfl
  have hnone : xs.prelude.code.filter (·.Uses name) = [] := by
    rw [List.filter_eq_nil_iff]
    intro i hi
    simpa using hcode i hi
  rw [he]
  refine ⟨?_, hx.append (.of_forall storeElements_not_allocates)⟩
  rintro _ _ ⟨⟩
  refine ⟨_, rfl, ?_⟩
  rw [List.filter_append, hnone, List.nil_append, storeElements_uses, ← List.append_nil
    (storeElements _ _ _)]
  refine .list ?_ hvalues
  rw [UInt32.toNat_ofNat']
  omega

/-- The operation that is left never allocates: a new list or object is in its name by then. -/
theorem Flattens.value_ne_alloc {a b : Names} {e : Expr} {x : WithPrelude Rhs} {t : List String}
    (h : Flattens ctx a e x b t) : ∀ size, x.value ≠ .alloc size := by
  intro size he
  cases h <;> cases he

theorem Fillable.literal (h : Fillable ctx classes nodes) : ctx.layout.Literal :=
  h.layout ▸ Layout.literal_ofClasses classes

theorem Fillable.vars (h : Fillable ctx classes nodes) {es : List Expr}
    (hn : Expr.allNodes es ⊆ nodes) : ∀ v ∈ Expr.allVars es, ¬ IsTemporary v :=
  fun v hv => h.reads v (List.filterMap_subset _ hn hv)

theorem guardedOffset_filled (length offset : String) (index list : Operand) :
    Filled classes settings (guardedOffset ctx length offset index list).code := by
  have hload : ¬ (Instr.assign length (.load list (.word 0))).Allocates :=
    not_allocates_assign (fun _ h => by cases h) length
  have hadd : ¬ (Instr.assign offset (.binary .plus index (.word 1))).Allocates :=
    not_allocates_assign (fun _ h => by cases h) offset
  exact Filled.of_forall (List.forall_mem_cons.mpr ⟨hload, List.forall_mem_cons.mpr
    ⟨not_allocates_eval, List.forall_mem_singleton.mpr hadd⟩⟩)

mutual

theorem Flattens.filled (hf : Fillable ctx classes nodes) {a b : Names} {e : Expr}
    {x : WithPrelude Rhs} {t : List String} : Flattens ctx a e x b t → e.nodes ⊆ nodes →
    Filled classes ctx.settings x.prelude.code
  | .unary h, hn | .builtin1 h, hn | .field _ h, hn => h.filled hf (List.cons_subset.mp hn).2
  | .binary hl hr, hn | .builtin2 hl hr, hn => by
    obtain ⟨hnl, hnr⟩ := List.append_subset.mp (List.cons_subset.mp hn).2
    exact (hl.filled hf hnl).append (hr.filled hf hnr)
  | .call h, hn => h.filled hf (List.cons_subset.mp hn).2
  | .methodCall _ hr h, hn => by
    obtain ⟨hnr, hargs⟩ := List.append_subset.mp (List.cons_subset.mp hn).2
    exact ((hr.filled hf hnr).append (h.filled hf hargs)).concat not_allocates_eval
  | .index hr hi, hn => by
    obtain ⟨hnr, hni⟩ := List.append_subset.mp (List.cons_subset.mp hn).2
    exact ((hr.filled hf hnr).append (hi.filled hf hni)).append (guardedOffset_filled _ _ _ _)
  | .construct hl, _ => newObject_filled hf hl _ _
  | .listLiteral (a := a) (t := t) h, hn => by
    obtain ⟨hmem, hes⟩ := List.cons_subset.mp hn
    have hvars := hf.vars hes
    have hname : a.fresh Base.list ∉ t :=
      (List.nodup_cons.mp ((Draws.advance a (by decide)).trans h.draws).nodup).1
    have htemp : IsTemporary (a.fresh Base.list) := Names.isTemporary_fresh a (by decide)
    have hused : ∀ i ∈ _, ¬ Instr.Uses i (a.fresh Base.list) := fun i hi hu => hname <| by
      have hm := (h.orderly hf.literal hvars).settled.assigned_of_uses htemp hi hu
      rwa [h.declares.assignedTemporaries h.temporaries] at hm
    have hlength := h.length_eq
    rw [← hlength]
    refine newList_filled (h.filled hf hes) hused (fun hm => hname (h.known hvars _ hm htemp)) ?_ _
    rw [hlength]
    exact hf.lists _ hmem _ rfl
  | .var, _ | .literal, _ => trivial

theorem FlattensOperand.filled (hf : Fillable ctx classes nodes) {a b : Names} {e : Expr}
    {x : WithPrelude Operand} {t : List String} : FlattensOperand ctx a e x b t →
    e.nodes ⊆ nodes → Filled classes ctx.settings x.prelude.code
  | .value h, hn => h.filled hf hn
  | .temporary h _, hn => (h.filled hf hn).concat (not_allocates_assign h.value_ne_alloc _)

theorem FlattensAll.filled (hf : Fillable ctx classes nodes) {a b : Names} {es : List Expr}
    {xs : WithPrelude (List Operand)} {t : List String} : FlattensAll ctx a es xs b t →
    Expr.allNodes es ⊆ nodes → Filled classes ctx.settings xs.prelude.code
  | .nil, _ => trivial
  | .cons h hs, hn => by
    obtain ⟨hn, hns⟩ := List.append_subset.mp hn
    exact (h.filled hf hn).append (hs.filled hf hns)

end

theorem FlattensStmt.filled (hf : Fillable ctx classes nodes) {a b : Names} {stmt : Stmt}
    {p : Prelude} {t : List String} (h : FlattensStmt ctx a stmt p b t)
    (hn : Expr.allNodes stmt.exprs ⊆ nodes) : Filled classes ctx.settings p.code := by
  cases h with
  | assign h =>
    exact (h.filled hf (List.append_subset.mp hn).1).concat (not_allocates_assign h.value_ne_alloc _)
  | eval h => exact (h.filled hf (List.append_subset.mp hn).1).concat not_allocates_eval
  | ret h => exact (h.filled hf (List.append_subset.mp hn).1).concat nofun
  | pass => trivial
  | assignField _ hx hy =>
    obtain ⟨hnx, hnr⟩ := List.append_subset.mp hn
    have hargs := (hx.filled hf hnx).append (hy.filled hf (List.append_subset.mp hnr).1)
    exact hargs.concat nofun
  | assignIndex hx hi hy =>
    obtain ⟨hnx, hnr⟩ := List.append_subset.mp hn
    obtain ⟨hni, hnr⟩ := List.append_subset.mp hnr
    have hargs := ((hx.filled hf hnx).append (hi.filled hf hni)).append
      (hy.filled hf (List.append_subset.mp hnr).1)
    exact (hargs.append (guardedOffset_filled _ _ _ _)).concat nofun

theorem FlattensOperand.filled_testCode (hf : Fillable ctx classes nodes) {a b : Names}
    {cond : Expr} {x : WithPrelude Operand} {t : List String}
    (h : FlattensOperand ctx a cond x b t) (hn : cond.nodes ⊆ nodes) (thenLabel elseLabel : String) :
    Filled classes ctx.settings (testCode x thenLabel elseLabel) :=
  (h.filled hf hn).concat nofun

theorem Builds.filled (hf : Fillable ctx classes nodes) {a b : Names} {body : List Stmt}
    {ds : List Decl} {f : Fragment} {t : List String} (h : Builds ctx a body ds f b t)
    (hn : Source.bodyExprs body ⊆ nodes) : f.Blockwise (Filled classes ctx.settings) := by
  have happend : ∀ code more, Filled classes ctx.settings code →
      Filled classes ctx.settings more → Filled classes ctx.settings (code ++ more) :=
    fun _ _ h h' => h.append h'
  have hjump : ∀ target label, (closing [.jump target] label).Blockwise
      (Filled classes ctx.settings) := fun target label =>
    .closing (.of_forall (List.forall_mem_singleton.mpr nofun)) trivial label
  induction h with
  | nil => exact .ofCode trivial
  | plain hs _ ih =>
    rw [Source.bodyExprs_plain _ hs.isPlain, List.append_subset] at hn
    exact (Fragment.Blockwise.ofCode (hs.filled hf hn.1)).append happend (ih hn.2)
  | ifElse _ hx _ _ _ iht ihe ih =>
    simp only [Source.bodyExprs_ifElse, List.append_subset] at hn
    obtain ⟨⟨⟨hcond, hthen⟩, helse⟩, hrest⟩ := hn
    have htest := fun l l' => Fragment.Blockwise.closing (hx.filled_testCode hf hcond l l') trivial
    exact (((((htest _ _ _).append happend (iht hthen)).append happend (hjump _ _)).append happend
      (ihe helse)).append happend (hjump _ _)).append happend (ih hrest)
  | whileLoop _ hx _ _ ihb ih =>
    simp only [Source.bodyExprs_whileLoop, List.append_subset] at hn
    obtain ⟨⟨hcond, hbody⟩, hrest⟩ := hn
    have htest := fun l l' => Fragment.Blockwise.closing (hx.filled_testCode hf hcond l l') trivial
    exact ((((hjump _ _).append happend (htest _ _ _)).append happend (ihb hbody)).append happend
      (hjump _ _)).append happend (ih hrest)

theorem Lowers.filled (hf : Fillable ctx classes nodes) {bodies : List (List Stmt)}
    {blocks : List Block} {t : List String} (h : Lowers ctx bodies blocks t)
    (hn : bodies.flatMap Source.bodyExprs ⊆ nodes) :
    ∀ b ∈ blocks, Filled classes ctx.settings b.code := by
  induction h with
  | nil => simp
  | cons hb _ ih =>
    rw [List.flatMap_cons, List.append_subset] at hn
    exact List.forall_mem_append.mpr ⟨(hb.filled hf hn.1).toBlocks _, ih hn.2⟩

theorem Source.Program.reads_subset (p : Source.Program) :
    p.exprs.filterMap Expr.varName? ⊆ p.variables := by
  intro x hx
  rw [exprs, List.filterMap_flatMap] at hx
  obtain ⟨body, hbody, hx⟩ := List.mem_flatMap.mp hx
  have hvar : x ∈ bodyVars body := List.mem_append_right _ hx
  simp only [bodies, List.cons_append, List.mem_cons, List.mem_append, List.mem_map,
    List.mem_flatMap] at hbody
  simp only [Source.Program.variables, List.mem_append, List.mem_flatMap]
  rcases hbody with rfl | ⟨f, hf, rfl⟩ | ⟨c, hc, m, hm, rfl⟩
  · exact Or.inl (Or.inl (Or.inr hvar))
  · exact Or.inl (Or.inr ⟨f, hf, List.mem_append_right _ hvar⟩)
  · exact Or.inr ⟨c, hc, List.mem_flatMap.mpr ⟨m, hm, List.mem_append_right _ hvar⟩⟩

theorem storeElements_getElem? (list : Operand) (values : List Operand) (offset k : Nat) :
    (storeElements list offset values)[k]? =
      values[k]?.map fun v => .store list (.word (UInt32.ofNat (offset + k))) v := by
  induction values generalizing offset k with
  | nil => rfl
  | cons v rest ih =>
    cases k with
    | zero => rfl
    | succ k =>
      rw [storeElements, List.getElem?_cons_succ, List.getElem?_cons_succ, ih,
        Nat.add_right_comm offset 1 k, Nat.add_assoc]

theorem stores_of_storeElements {values : List Operand} {rest : List Instr}
    (hv : .var name ∉ values) {k : Nat} (hk : k < values.length) :
    ∃ v, v ≠ .var name ∧ (storeElements (.var name) 0 values ++ rest)[k]? =
      some (.store (.var name) (.word (UInt32.ofNat k)) v) := by
  have hget : (storeElements (.var name) 0 values)[k]? =
      some (.store (.var name) (.word (UInt32.ofNat k)) values[k]) := by
    rw [storeElements_getElem?, List.getElem?_eq_getElem hk, Option.map_some, Nat.zero_add]
  have hlt := (List.getElem?_eq_some_iff.mp hget).1
  refine ⟨values[k], fun he => hv (he ▸ List.getElem_mem hk), ?_⟩
  rw [List.getElem?_append_left hlt, hget]

theorem Source.Class.var_notMem_initials (c : Source.Class) (name : String) :
    .var name ∉ c.initials := by
  intro hm
  obtain ⟨d, -, he⟩ := List.mem_map.mp hm
  exact Operand.ofLiteral_ne_var d.value name he

/-- The first instructions that mention an allocation of `n` words write them, one after another. -/
theorem Initialised.stores {n : UInt32} {code : List Instr}
    (h : Initialised classes settings name n code) : ∀ k < n.toNat, ∃ v, v ≠ .var name ∧
      code[k]? = some (.store (.var name) (.word (UInt32.ofNat k)) v) := by
  intro k hk
  cases h with
  | list hn he =>
    refine stores_of_storeElements (by simpa using he) ?_
    rwa [List.length_cons, ← hn]
  | @object c _ hc hn =>
    refine stores_of_storeElements (c.var_notMem_initials name) ?_
    rwa [Source.Class.initials, List.length_map, ← hn]

/-- After an allocation, the first instructions that mention it are in the same block and store
into its words, from the first to the last, values other than itself. These are the length and
the elements of a list, or the initial values of the fields of an object, whose initializer
is called next. -/
theorem allocations_filled_before_use {p : Source.Program} {q : Flat.Program} {names : Names}
    (hdistinct : ∀ c ∈ p.classes, (c.fields.map (·.name)).Nodup)
    (hfields : ∀ c ∈ p.classes, c.fields.length < 2 ^ 32 - 1)
    (hlists : ∀ e ∈ p.exprs, ∀ elements ∈ e.elements?, elements.length < 2 ^ 32 - 1)
    (hvars : ∀ x ∈ p.variables, ¬ IsTemporary x)
    (h : (flattenProgram ⟨.ofClasses p.classes, settings⟩ p names).result = .ok q) :
    ∀ b ∈ q.blocks, ∀ front name size back,
      b.code = front ++ .assign name (.alloc size) :: back →
      ∃ n : UInt32, size = .word n ∧
        (∀ k < n.toNat, ∃ v, v ≠ .var name ∧ (back.filter (·.Uses name))[k]? =
          some (.store (.var name) (.word (UInt32.ofNat k)) v)) ∧
        Initialised p.classes settings name n (back.filter (·.Uses name)) := by
  intro b hb front name size back hcode
  obtain ⟨t, hl, -⟩ := lowers_of_result h
  have hf : Fillable ⟨.ofClasses p.classes, settings⟩ p.classes p.exprs :=
    ⟨rfl, hdistinct, hfields, hlists, fun x hx => hvars x (p.reads_subset hx)⟩
  have hfilled := hl.filled hf (List.Subset.refl _) b hb
  rw [hcode] at hfilled
  obtain ⟨n, hn, hi⟩ := hfilled.at_alloc
  exact ⟨n, hn, hi.stores, hi⟩

/-- A list with a list and an object in it, which are made between its allocation and its stores. -/
def Source.bundle : Source.Program :=
  let number : Note := ⟨.number, {}⟩
  let numbers : Note := ⟨.list .number, {}⟩
  { classes := [⟨"Pair", [⟨"left", .number, .num 0, {}⟩, ⟨"right", .number, .num 1, {}⟩], [], {}⟩]
    body := [.assign number "xs" (.listLiteral numbers
      [.listLiteral numbers [.literal number (.num 7)], .construct ⟨.object "Pair", {}⟩ "Pair"])] }

theorem bundle_filled_before_use :
    ∃ q, (flattenProgram ⟨.ofClasses Source.bundle.classes, {}⟩ Source.bundle {}).result = .ok q ∧
      ∃ b ∈ q.blocks, ∃ front back,
        b.code = front ++ .assign "newList1" (.alloc (.word 3)) :: back ∧
        ∀ k < 3, ∃ v, v ≠ .var "newList1" ∧ (back.filter (·.Uses "newList1"))[k]? =
          some (.store (.var "newList1") (.word (UInt32.ofNat k)) v) := by
  have hm : ∀ q ∈ (flattenProgram ⟨.ofClasses Source.bundle.classes, {}⟩ Source.bundle
      {}).result.toOption,
      ∃ b ∈ q.blocks, .assign "newList1" (.alloc (.word 3)) ∈ b.code := by decide +kernel
  obtain ⟨q, hq⟩ := ok_of_isOk (show (flattenProgram ⟨.ofClasses Source.bundle.classes, {}⟩
    Source.bundle {}).result.isOk = true by decide +kernel)
  obtain ⟨b, hb, halloc⟩ := hm q (by rw [hq]; rfl)
  obtain ⟨front, back, hcode⟩ := List.append_of_mem halloc
  obtain ⟨n, hn, hstores, -⟩ := allocations_filled_before_use (by decide) (by decide)
    (by decide +kernel) (by decide +kernel) hq b hb front _ _ back hcode
  obtain rfl : n = 3 := (Operand.word.inj hn).symm
  exact ⟨q, hq, b, hb, front, back, hcode, hstores⟩

end BlockLowering
