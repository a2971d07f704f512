import BlockLowering.Proofs.ExecutedInstructions
import BlockLowering.Proofs.LoweredNames

/-! The guards of lowered code do their work. Before an element of a list is accessed, the index has
been checked against the length that the list still has, and before a method is called, the
receiver has been checked. Both hold in every run, because the check and the access stand in one
block and nothing between them touches the memory or the operands. -/

namespace BlockLowering

open Source (Expr Stmt Note bodyCallees bodyClasses bodyExprs)
open Flat (Operand Rhs Instr Block Decl)

variable {V H : Type} {m : Runtime V H} {ctx : Context} {int? : V → Option Int}
  {free : List String}

/-- A runtime whose helpers stop what they are there to stop. Integers are read off values by
`int?`; that of a raw 1 is needed for the offset of an element. -/
structure Runtime.Guarding (m : Runtime V H) (settings : Settings) (int? : V → Option Int) :
    Prop where
  word_one : int? (m.word 1) = some 1
  plus : ∀ {v w x i j heap heap'}, int? v = some i → int? w = some j →
    m.binary .plus v w heap = some (x, heap') → int? x = some (i + j) ∧ heap' = heap
  notNone : ∀ heap, m.call settings.notNoneHelper [m.none] heap = Option.none
  bounds : ∀ {length index x heap heap'},
    m.call settings.boundsHelper [length, index] heap = some (x, heap') →
    (∃ n i, int? length = some n ∧ int? index = some i ∧ 0 ≤ i ∧ i < n) ∧ heap' = heap

/-- The offset is a fixed one, or it lies between 1 and the length that the list keeps at its
start. -/
def OffsetGuarded (m : Runtime V H) (int? : V → Option Int) (s : State V H)
    (base offset : Operand) : Prop :=
  offset.word? = none → ∃ length n o,
    m.load (base.value m s.env) (m.word 0) s.heap = some length ∧ int? length = some n ∧
    int? (offset.value m s.env) = some o ∧ 1 ≤ o ∧ o ≤ n

/-- Calls of other functions than the `free` ones have a receiver. -/
def Flat.Rhs.Guarded (m : Runtime V H) (int? : V → Option Int) (free : List String)
    (s : State V H) : Rhs → Prop
  | .load base offset => OffsetGuarded m int? s base offset
  | .call name args =>
    name ∉ free → ∃ receiver rest, args = receiver :: rest ∧ receiver.value m s.env ≠ m.none
  | _ => True

def Flat.Instr.Guarded (m : Runtime V H) (int? : V → Option Int) (free : List String)
    (s : State V H) : Instr → Prop
  | .assign _ r | .eval r => r.Guarded m int? free s
  | .store base offset _ => OffsetGuarded m int? s base offset
  | _ => True

theorem offsetGuarded_word (s : State V H) (base : Operand) (k : UInt32) :
    OffsetGuarded m int? s base (.word k) :=
  fun h => by cases h

/-- What the expressions `nodes` may use: their variables are no temporaries, and the functions
that they call by name, the helpers and the methods that start new objects are free. -/
structure Admits (ctx : Context) (free : List String) (nodes : List Expr) : Prop where
  vars : ∀ name ∈ nodes.filterMap Expr.varName?, ¬ IsTemporary name
  callees : ∀ name ∈ nodes.filterMap Expr.callee?, name ∈ free
  inits : ∀ className ∈ nodes.filterMap Expr.constructed?,
    ctx.settings.methodName className ctx.settings.initMethod ∈ free
  notNone : ctx.settings.notNoneHelper ∈ free
  bounds : ctx.settings.boundsHelper ∈ free

namespace Admits

theorem mono {nodes more : List Expr} (h : Admits ctx free more) (hs : nodes ⊆ more) :
    Admits ctx free nodes where
  vars name hn := h.vars name (List.filterMap_subset _ hs hn)
  callees name hn := h.callees name (List.filterMap_subset _ hs hn)
  inits className hn := h.inits className (List.filterMap_subset _ hs hn)
  notNone := h.notNone
  bounds := h.bounds

theorem left {nodes more : List Expr} (h : Admits ctx free (nodes ++ more)) :
    Admits ctx free nodes :=
  h.mono (List.subset_append_left _ _)

theorem right {nodes more : List Expr} (h : Admits ctx free (nodes ++ more)) :
    Admits ctx free more :=
  h.mono (List.subset_append_right _ _)

theorem tail {e : Expr} {nodes : List Expr} (h : Admits ctx free (e :: nodes)) :
    Admits ctx free nodes :=
  h.mono (List.subset_cons_self _ _)

theorem holds {e : Expr} (h : Admits ctx free e.nodes) (s : State V H) : Holds e.vars s.env s :=
  fun v hv => ⟨h.vars v hv, rfl⟩

end Admits

theorem always_guardedOffset (hb : ctx.settings.boundsHelper ∈ free) (length offset : String)
    (index list : Operand) :
    Always m (Instr.Guarded m int? free) (guardedOffset ctx length offset index list).code := by
  refine Always.of_forall fun i hi s => ?_
  simp only [guardedOffset, Prelude.append_code, Prelude.temporary, Prelude.ofCode, helperCall,
    List.mem_append, List.mem_singleton] at hi
  rcases hi with (rfl | rfl) | rfl
  · exact offsetGuarded_word s list 0
  · exact fun hn => absurd hb hn
  · trivial

theorem guardedOffset_guards (hm : m.Guarding ctx.settings int?) {length offset : String}
    {index list : Operand} (hl : list.Avoids [length, offset]) {s s' : State V H}
    (h : runCode m (guardedOffset ctx length offset index list).code s = some s') :
    OffsetGuarded m int? s' list (.var offset) := by
  have hlist : list.value m s'.env = list.value m s.env :=
    hl.value_eq ((Prelude.Declares.guardedOffset ctx length offset index list).sameOff h)
  simp only [guardedOffset, Prelude.append_code, Prelude.temporary, Prelude.ofCode, helperCall,
    runCode_append, runCode_assign, runCode_eval, Option.bind_eq_some_iff,
    Option.map_eq_some_iff, Rhs.value, Prod.exists, Operand.value_word] at h
  obtain ⟨_, ⟨_, ⟨len, _, ⟨_, hload, hread⟩, rfl⟩, _, heap, hcall, rfl⟩, o, heap', hplus, rfl⟩ := h
  cases hread
  simp only [List.map_cons, List.map_nil, Operand.value_var, State.assign_env_self,
    State.assign_heap] at hcall hplus
  obtain ⟨⟨n, i, hn, hi, hi0, hin⟩, rfl⟩ := hm.bounds hcall
  obtain ⟨ho, rfl⟩ := hm.plus hi hm.word_one hplus
  refine fun _ => ⟨len, n, i + 1, ?_, hn, ?_, by omega, by omega⟩
  · rw [hlist]
    exact hload
  · rw [Operand.value_var, State.assign_env_self]
    exact ho

theorem receiver_guards (hm : m.Guarding ctx.settings int?) {receiver : Operand}
    {s s' : State V H}
    (h : runCode m [helperCall ctx.settings.notNoneHelper [receiver]] s = some s') :
    receiver.value m s'.env ≠ m.none := by
  simp only [helperCall, runCode_eval, Option.map_eq_some_iff, Rhs.value, Prod.exists,
    List.map_cons, List.map_nil] at h
  obtain ⟨_, heap, hcall, rfl⟩ := h
  intro hnone
  rw [hnone, hm.notNone] at hcall
  cases hcall

theorem always_newObject {className : String}
    (hinit : ctx.settings.methodName className ctx.settings.initMethod ∈ free)
    (note : Note) (fields : ClassLayout) (name : String) :
    Always m (Instr.Guarded m int? free) (newObject ctx note className fields name).code := by
  refine Always.of_forall fun i hi s => ?_
  simp only [newObject, Prelude.append_code, Prelude.temporary, Prelude.ofCode, helperCall,
    List.mem_append, List.mem_singleton, List.mem_map] at hi
  rcases hi with (rfl | ⟨slot, _, rfl⟩) | rfl
  · trivial
  · exact offsetGuarded_word s (.var name) slot.offset
  · exact fun hn => absurd hinit hn

theorem always_storeElements (list : Operand) (offset : Nat) (values : List Operand) :
    Always m (Instr.Guarded m int? free) (storeElements list offset values) := by
  induction values generalizing offset with
  | nil => exact Always.nil
  | cons v rest ih =>
    exact fun s => ⟨offsetGuarded_word s list _, fun t _ => ih (offset + 1) t⟩

theorem always_newList {xs : WithPrelude (List Operand)}
    (h : Always m (Instr.Guarded m int? free) xs.prelude.code) (note : Note)
    (name : String) (size : Nat) :
    Always m (Instr.Guarded m int? free) (newList note name size xs).code := by
  have halloc : Always m (Instr.Guarded m int? free)
      [.assign name (.alloc (.word (UInt32.ofNat (size + 1))))] :=
    Always.of_forall fun i hi s => by
      rw [List.mem_singleton.mp hi]
      trivial
  have hstores : Always m (Instr.Guarded m int? free)
      (.store (.var name) (.word 0) (.num size) :: storeElements (.var name) 1 xs.value) :=
    fun s => ⟨offsetGuarded_word s (.var name) 0, fun t _ => always_storeElements _ _ _ t⟩
  exact (halloc.append h).append hstores

theorem FlattensOperand.element_guards (hm : m.Guarding ctx.settings int?) {a b c : Names}
    {e : Expr} {x : WithPrelude Operand} {index : Operand} {t u : List String}
    (h : FlattensOperand ctx a e x b t) (ha : Admits ctx free e.nodes) (hd : Draws b c u)
    (hu : ∀ name ∈ u, IsTemporary name) {code : List Instr} {s s' : State V H}
    (hs : runCode m (code ++ (guardedOffset ctx (c.fresh Base.length)
      ((c.advance Base.length).fresh Base.offset) index x.value).code) s = some s') :
    OffsetGuarded m int? s' x.value (.var ((c.advance Base.length).fresh Base.offset)) := by
  rw [runCode_append, Option.bind_eq_some_iff] at hs
  obtain ⟨s₁, _, hguard⟩ := hs
  have hl := h.avoids (ha.holds s) (hd.trans (draws_elementOffset c))
    (List.forall_mem_append.mpr ⟨hu, temporaries_elementOffset c⟩)
  exact guardedOffset_guards hm (hl.mono (List.subset_append_right _ _)) hguard

mutual

theorem Flattens.guarded (hm : m.Guarding ctx.settings int?) {a b : Names} {e : Expr}
    {x : WithPrelude Rhs} {t : List String} : Flattens ctx a e x b t → Admits ctx free e.nodes →
    Always m (Instr.Guarded m int? free) x.prelude.code ∧
      ∀ s s', runCode m x.prelude.code s = some s' → x.value.Guarded m int? free s'
  | .unary h, ha | .builtin1 h, ha => ⟨h.guarded hm ha.tail, fun _ _ _ => trivial⟩
  | .binary hl hr, ha | .builtin2 hl hr, ha =>
    ⟨(hl.guarded hm ha.tail.left).append (hr.guarded hm ha.tail.right), fun _ _ _ => trivial⟩
  | .call h, ha =>
    ⟨h.guarded hm ha.tail, fun _ _ _ hn => absurd (ha.callees _ List.mem_cons_self) hn⟩
  | .methodCall _ hr h, ha => by
    have hargs := (hr.guarded hm ha.tail.left).append (h.guarded hm ha.tail.right)
    refine ⟨hargs.concat fun _ _ _ hn => absurd ha.notNone hn, fun s s' hs _ => ?_⟩
    rw [Prelude.append_code, runCode_append, Option.bind_eq_some_iff] at hs
    obtain ⟨s₁, _, hcheck⟩ := hs
    exact ⟨_, _, rfl, receiver_guards hm hcheck⟩
  | .field _ h, ha => ⟨h.guarded hm ha.tail, fun _ s' _ => offsetGuarded_word s' _ _⟩
  | .index hr hi, ha => by
    have hargs := (hr.guarded hm ha.tail.left).append (hi.guarded hm ha.tail.right)
    refine ⟨hargs.append (always_guardedOffset ha.bounds _ _ _ _), fun s s' hs => ?_⟩
    exact hr.element_guards hm ha.tail.left hi.draws hi.temporaries hs
  | .construct _, ha =>
    ⟨always_newObject (ha.inits _ List.mem_cons_self) _ _ _, fun _ _ _ => trivial⟩
  | .listLiteral h, ha =>
    ⟨always_newList (h.guarded hm ha.tail) _ _ _, fun _ _ _ => trivial⟩
  | .var, _ | .literal, _ => ⟨Always.nil, fun _ _ _ => trivial⟩

theorem FlattensOperand.guarded (hm : m.Guarding ctx.settings int?) {a b : Names} {e : Expr}
    {x : WithPrelude Operand} {t : List String} : FlattensOperand ctx a e x b t →
    Admits ctx free e.nodes → Always m (Instr.Guarded m int? free) x.prelude.code
  | .value h, ha => (h.guarded hm ha).1
  | .temporary h _, ha => (h.guarded hm ha).1.concat (h.guarded hm ha).2

theorem FlattensAll.guarded (hm : m.Guarding ctx.settings int?) {a b : Names} {es : List Expr}
    {xs : WithPrelude (List Operand)} {t : List String} : FlattensAll ctx a es xs b t →
    Admits ctx free (Expr.allNodes es) → Always m (Instr.Guarded m int? free) xs.prelude.code
  | .nil, _ => Always.nil
  | .cons h hs, ha => (h.guarded hm ha.left).append (hs.guarded hm ha.right)

end

theorem FlattensStmt.guarded (hm : m.Guarding ctx.settings int?) {a b : Names} {stmt : Stmt}
    {p : Prelude} {t : List String} (h : FlattensStmt ctx a stmt p b t)
    (ha : Admits ctx free (Expr.allNodes stmt.exprs)) :
    Always m (Instr.Guarded m int? free) p.code := by
  cases h with
  | assign h | eval h =>
    obtain ⟨hp, hr⟩ := h.guarded hm ha.left
    exact hp.concat hr
  | ret h => exact (h.guarded hm ha.left).concat fun _ _ _ => trivial
  | pass => exact Always.nil
  | assignField _ hx hy =>
    exact ((hx.guarded hm ha.left).append (hy.guarded hm ha.right.left)).concat
      fun _ s' _ => offsetGuarded_word s' _ _
  | assignIndex hx hi hy =>
    have hargs := ((hx.guarded hm ha.left).append (hi.guarded hm ha.right.left)).append
      (hy.guarded hm ha.right.right.left)
    refine (hargs.append (always_guardedOffset ha.bounds _ _ _ _)).concat fun s s' hs => ?_
    exact hx.element_guards hm ha.left (hi.draws.trans hy.draws)
      (List.forall_mem_append.mpr ⟨hi.temporaries, hy.temporaries⟩) hs

theorem FlattensOperand.guarded_testCode (hm : m.Guarding ctx.settings int?) {a b : Names}
    {cond : Expr} {x : WithPrelude Operand} {t : List String} (h : FlattensOperand ctx a cond x b t)
    (ha : Admits ctx free cond.nodes) (thenLabel elseLabel : String) :
    Always m (Instr.Guarded m int? free) (testCode x thenLabel elseLabel) :=
  (h.guarded hm ha).concat fun _ _ _ => trivial

theorem always_jump (label : String) : Always m (Instr.Guarded m int? free) [.jump label] :=
  Always.nil.concat fun _ _ _ => trivial

theorem Builds.guarded (hm : m.Guarding ctx.settings int?) {a b : Names} {body : List Stmt}
    {ds : List Decl} {f : Fragment} {t : List String} (h : Builds ctx a body ds f b t)
    (ha : Admits ctx free (bodyExprs body)) : f.Always m (Instr.Guarded m int? free) := by
  induction h with
  | nil => exact Fragment.Always.ofCode Always.nil
  | plain hs _ ih =>
    rw [Source.bodyExprs_plain _ hs.isPlain] at ha
    exact (Fragment.Always.ofCode (hs.guarded hm ha.left)).append (ih ha.right)
  | ifElse _ hx _ _ _ iht ihe ih =>
    rw [Source.bodyExprs_ifElse] at ha
    have htest := hx.guarded_testCode hm ha.left.left.left
    exact (((((Fragment.Always.closing (htest _ _) _).append (iht ha.left.left.right)).append
      (Fragment.Always.closing (always_jump _) _)).append (ihe ha.left.right)).append
      (Fragment.Always.closing (always_jump _) _)).append (ih ha.right)
  | whileLoop _ hx _ _ ihb ih =>
    rw [Source.bodyExprs_whileLoop] at ha
    have htest := hx.guarded_testCode hm ha.left.left
    exact ((((Fragment.Always.closing (always_jump _) _).append
      (Fragment.Always.closing (htest _ _) _)).append (ihb ha.left.right)).append
      (Fragment.Always.closing (always_jump _) _)).append (ih ha.right)

/-- The functions that lowered code may call without a receiver: those that the body calls by
their names, the helpers, and the methods that start its new objects. -/
def freeTargets (settings : Settings) (body : List Stmt) : List String :=
  bodyCallees body ++ [settings.notNoneHelper, settings.boundsHelper] ++
    (bodyClasses body).map fun className => settings.methodName className settings.initMethod

theorem admits_freeTargets {body : List Stmt}
    (hv : ∀ x ∈ Source.bodyReads body, ¬ IsTemporary x) :
    Admits ctx (freeTargets ctx.settings body) (bodyExprs body) where
  vars := hv
  callees name hn := List.mem_append_left _ (List.mem_append_left _ hn)
  inits className hn := List.mem_append_right _ (List.mem_map.mpr ⟨className, hn, rfl⟩)
  notNone := by simp [freeTargets]
  bounds := by simp [freeTargets]

/-- A run from the first block comes to execute `i`, in the state `s'`. -/
def Flat.Executes (m : Runtime V H) (blocks : List Block) (s s' : State V H) (i : Instr) : Prop :=
  ∃ n block index b, (Flat.step m blocks)^[n] (.running 0 0 s) = .running block index s' ∧
    blocks[block]? = some b ∧ b.code[index]? = some i

/-- Whatever a lowered body comes to execute is guarded: an element that it accesses is one that
the list has at that moment, and a method that it calls has a receiver. -/
theorem guarded_when_executed {entry : String} {body : List Stmt}
    (hv : ∀ x ∈ Source.bodyReads body, ¬ IsTemporary x) {names : Names} {decls : List Decl}
    {blocks : List Block} (h : (buildBody ctx entry body names).result = .ok (decls, blocks))
    (hm : m.Guarding ctx.settings int?) {s s' : State V H} {i : Instr}
    (hi : Flat.Executes m blocks s s' i) :
    i.Guarded m int? (freeTargets ctx.settings body) s' := by
  obtain ⟨f, t, hb, rfl, _⟩ := buildBody_builds (Lower.yields_of_result h)
  obtain ⟨n, block, index, b, hrun, hblock, hcode⟩ := hi
  exact executed_of_always ((hb.guarded hm (admits_freeTargets hv)).toBlocks _) hrun hblock hcode

/-- A runtime with one list in its memory, of which the methods leave a single element. -/
def Runtime.oneList : Runtime (Option Int) (List (Option Int)) where
  num n := some n
  bool b := some (if b then 1 else 0)
  none := .none
  word n := some n.toNat
  unary _ v heap := some (v, heap)
  binary _ v w heap := some (v.bind fun i => w.map (i + ·), heap)
  builtin1 _ v heap := some (v, heap)
  builtin2 _ v _ heap := some (v, heap)
  call name args heap :=
    if name = "index_out_of_bounds" then
      match args with
      | [some n, some i] => if 0 ≤ i ∧ i < n then some (.none, heap) else .none
      | _ => .none
    else if name = "assert_not_none" then
      if args = [.none] then .none else some (.none, heap)
    else some (some 7, [some 1, some 0])
  load _ o heap := o.bind fun o => heap[o.toNat]?
  store _ o v heap := o.map fun o => heap.set o.toNat v
  alloc _ heap := some (some 0, heap)
  truth v := v.map (· ≠ 0)

theorem Runtime.oneList_guarding : Runtime.oneList.Guarding {} id where
  word_one := rfl
  plus {v w x i j heap heap'} hv hw h := by
    obtain rfl : v = some i := hv
    obtain rfl : w = some j := hw
    cases h
    exact ⟨rfl, rfl⟩
  notNone heap := rfl
  bounds {length index x heap heap'} h := by
    obtain _ | n := length
    · cases h
    obtain _ | i := index
    · cases h
    change (if 0 ≤ i ∧ i < n then _ else _) = _ at h
    split at h
    · rename_i hi
      cases h
      exact ⟨⟨n, i, rfl, rfl, hi⟩, rfl⟩
    · cases h

/-- Stores in a list what a method returns that makes the list shorter. -/
def Source.shrinkAndStore : List Stmt :=
  let number : Note := ⟨.number, {}⟩
  [.assignIndex number (.var ⟨.list .number, {}⟩ "xs") (.literal number (.num 0))
    (.methodCall number (.var ⟨.object "Pool", {}⟩ "pool") "shrink" [])]

/-- The code it is lowered to. -/
def Flat.shrinkAndStore : List Instr :=
  [.eval (.call "assert_not_none" [.var "pool"]),
    .assign "valname1" (.call "Pool$shrink" [.var "pool"]),
    .assign "listlength1" (.load (.var "xs") (.word 0)),
    .eval (.call "index_out_of_bounds" [.var "listlength1", .num 0]),
    .assign "offsetname1" (.binary .plus (.num 0) (.word 1)),
    .store (.var "xs") (.var "offsetname1") (.var "valname1")]

theorem shrinkAndStore_guarded :
    (∀ x ∈ Source.bodyReads Source.shrinkAndStore, ¬ IsTemporary x) ∧
    Runtime.oneList.Guarding {} id ∧
    (∃ decls, (buildBody ⟨.ofClasses [], {}⟩ "run" Source.shrinkAndStore {}).result =
      .ok (decls, [⟨"run1", Flat.shrinkAndStore⟩])) ∧
    (∃ s', Flat.Executes Runtime.oneList [⟨"run1", Flat.shrinkAndStore⟩]
        ⟨fun _ => some 0, [some 3]⟩ s' (.assign "valname1" (.call "Pool$shrink" [.var "pool"])) ∧
      s'.env "pool" ≠ none) ∧
    ∃ s', Flat.Executes Runtime.oneList [⟨"run1", Flat.shrinkAndStore⟩]
        ⟨fun _ => some 0, [some 3]⟩ s'
        (.store (.var "xs") (.var "offsetname1") (.var "valname1")) ∧
      ∃ n o, s'.heap[0]? = some (some n) ∧ s'.env "offsetname1" = some o ∧ 1 ≤ o ∧ o ≤ n := by
  have hv : ∀ x ∈ Source.bodyReads Source.shrinkAndStore, ¬ IsTemporary x := by decide
  have hm := Runtime.oneList_guarding
  obtain ⟨decls, hb⟩ : ∃ decls,
      (buildBody ⟨.ofClasses [], {}⟩ "run" Source.shrinkAndStore {}).result =
        .ok (decls, [⟨"run1", Flat.shrinkAndStore⟩]) := ⟨_, rfl⟩
  obtain ⟨s₁, hcall⟩ : ∃ s', Flat.Executes Runtime.oneList [⟨"run1", Flat.shrinkAndStore⟩]
      ⟨fun _ => some 0, [some 3]⟩ s' (.assign "valname1" (.call "Pool$shrink" [.var "pool"])) :=
    ⟨_, 1, 0, 1, _, rfl, rfl, rfl⟩
  obtain ⟨s₂, hstore⟩ : ∃ s', Flat.Executes Runtime.oneList [⟨"run1", Flat.shrinkAndStore⟩]
      ⟨fun _ => some 0, [some 3]⟩ s'
      (.store (.var "xs") (.var "offsetname1") (.var "valname1")) :=
    ⟨_, 5, 0, 5, _, rfl, rfl, rfl⟩
  refine ⟨hv, hm, ⟨decls, hb⟩, ⟨s₁, hcall, ?_⟩, s₂, hstore, ?_⟩
  · obtain ⟨receiver, rest, he, hr⟩ := guarded_when_executed hv hb hm hcall (by decide)
    cases he
    exact hr
  · obtain ⟨_, n, o, hl, rfl, ho⟩ := guarded_when_executed hv hb hm hstore rfl
    exact ⟨n, o, hl, ho⟩

end BlockLowering
