import BlockLowering.Proofs.CallCounts

/-! Where the checks of a lowered program stand. The pieces that its blocks are cut into place each
instruction: an access to an element has the check of its index in the three places before it, and
a call of a method has the check of its receiver in the place before it. -/

namespace BlockLowering

open Source (Expr Stmt Note)
open Flat (Operand Rhs Instr Block)

namespace Flat.Program

/-- The instruction in place `n` of block `k`. -/
def instr? (q : Program) (k n : Nat) : Option Instr := q.blocks[k]?.bind (·.code[n]?)

/-- The access in place `n` of block `k` is to an element. -/
def AccessesElement (q : Program) (k n : Nat) (base offset : Operand) : Prop :=
  ∃ i, q.instr? k n = some i ∧ i.AccessesElement base offset

/-- In the three places before the access, the length of the list is read, the index is checked
against it, and the offset is computed from the index. -/
structure BoundsChecked (q : Program) (settings : Settings) (k n : Nat) (length : String)
    (base index offset : Operand) : Prop where
  room : 3 ≤ n
  loaded : q.instr? k (n - 3) = some (.assign length (.load base (.word 0)))
  compared : q.instr? k (n - 2) =
    some (.eval (.call settings.boundsHelper [.var length, index]))
  computed : ∃ name, offset = .var name ∧
    q.instr? k (n - 1) = some (.assign name (.binary .plus index (.word 1)))

/-- In the place before the call, its first argument is checked. -/
structure ReceiverChecked (q : Program) (settings : Settings) (k n : Nat)
    (args : List Operand) : Prop where
  room : 1 ≤ n
  checked : ∃ receiver rest, args = receiver :: rest ∧
    q.instr? k (n - 1) = some (.eval (.call settings.notNoneHelper [receiver]))

end Flat.Program

section

variable {α β : Type} {f : α → List β} {l : List α}

theorem exists_of_getElem?_flatMap {n : Nat} {x : β} (h : (l.flatMap f)[n]? = some x) :
    ∃ m a j, l[m]? = some a ∧ (f a)[j]? = some x ∧ n = ((l.take m).flatMap f).length + j := by
  induction l generalizing n with
  | nil => simp at h
  | cons a l ih =>
    rw [List.flatMap_cons] at h
    by_cases hn : n < (f a).length
    · rw [List.getElem?_append_left hn] at h
      exact ⟨0, a, n, rfl, h, by simp⟩
    · rw [List.getElem?_append_right (by omega)] at h
      obtain ⟨m, b, j, hm, hj, he⟩ := ih h
      refine ⟨m + 1, b, j, hm, hj, ?_⟩
      rw [List.take_succ_cons, List.flatMap_cons, List.length_append]
      omega

theorem getElem?_flatMap_take {m j : Nat} {a : α} (hm : l[m]? = some a) (hj : j < (f a).length) :
    (l.flatMap f)[((l.take m).flatMap f).length + j]? = (f a)[j]? := by
  induction l generalizing m with
  | nil => simp at hm
  | cons b l ih =>
    cases m with
    | zero =>
      cases hm
      simp only [List.take_zero, List.flatMap_nil, List.length_nil, Nat.zero_add, List.flatMap_cons]
      exact List.getElem?_append_left hj
    | succ m =>
      rw [List.take_succ_cons, List.flatMap_cons, List.flatMap_cons, List.length_append,
        Nat.add_assoc, List.getElem?_append_right (by omega), Nat.add_sub_cancel_left]
      exact ih hm

theorem eq_of_nodup_flatMap (hl : (l.flatMap f).Nodup) {m m' : Nat} {a b : α} {x : β}
    (hm : l[m]? = some a) (hm' : l[m']? = some b) (hx : x ∈ f a) (hx' : x ∈ f b) : m = m' := by
  induction l generalizing m m' with
  | nil => simp at hm
  | cons c l ih =>
    rw [List.flatMap_cons] at hl
    have hd := List.disjoint_of_nodup_append hl
    have htail : ∀ {m : Nat} {a : α}, l[m]? = some a → x ∈ f a → x ∈ l.flatMap f :=
      fun hm hx => List.mem_flatMap.mpr ⟨_, List.mem_of_getElem? hm, hx⟩
    cases m with
    | zero =>
      cases m' with
      | zero => rfl
      | succ m' =>
        cases hm
        exact absurd (htail hm' hx') (hd hx)
    | succ m =>
      cases m' with
      | zero =>
        cases hm'
        exact absurd (htail hm hx) (hd hx')
      | succ m' => exact congrArg (· + 1) (ih hl.of_append_right hm hm')

end

theorem access?_of_call? {i : Instr} {name : String} {args : List Operand}
    (h : i.call? = some (name, args)) : i.access? = none := by
  obtain ⟨r, hr, hc⟩ := Option.bind_eq_some_iff.mp h
  rw [Instr.access?_of_rhs? hr]
  cases r with
  | load => cases hc
  | _ => rfl

/-- The blocks of a program, cut into pieces. No two pieces have a name in common. -/
structure Flat.Program.Cut (q : Flat.Program) (settings : Settings) (nodes : List Expr)
    (pss : List (List Piece)) : Prop where
  code : pss.map (·.flatMap (Piece.code settings)) = q.blocks.map (·.code)
  fits : ∀ ps ∈ pss, ∀ p ∈ ps, p.Fits settings nodes
  nodup : (pss.flatMap (·.flatMap Piece.names)).Nodup

/-- The piece `p` stands in block `k`, from place `start` on. -/
def Piece.StandsAt (p : Piece) (settings : Settings) (pss : List (List Piece)) (k start : Nat) :
    Prop :=
  ∃ ps m, pss[k]? = some ps ∧ ps[m]? = some p ∧
    start = ((ps.take m).flatMap (Piece.code settings)).length

/-- An access to an element is the last instruction of its piece. -/
theorem Piece.Fits.element_last {settings : Settings} {nodes : List Expr} {p : Piece}
    (h : p.Fits settings nodes) {j : Nat} {i : Instr} (hj : (p.code settings)[j]? = some i)
    {base offset : Operand} (ha : i.AccessesElement base offset) :
    ∃ length name index, p = .element length name base index i ∧ j = 3 ∧ offset = .var name := by
  obtain ⟨ha, ho⟩ := ha
  cases h with
  | single hs _ =>
    rcases j with _ | j
    · cases hj
      exact absurd ⟨ha, ho⟩ (hs base offset)
    · cases hj
  | element he =>
    rcases j with _ | _ | _ | _ | j
    · cases hj
      cases ha
      cases ho
    · cases hj
      cases ha
    · cases hj
      cases ha
    · cases hj
      cases ha.symm.trans he
      exact ⟨_, _, _, rfl, rfl, rfl⟩
    · cases hj
  | method _ _ he =>
    rcases j with _ | _ | j
    · cases hj
      cases ha
    · cases hj
      cases ha.symm.trans (access?_of_call? he)
    · cases hj

/-- A call that needs a check is the last instruction of its piece. -/
theorem Piece.Fits.method_last {settings : Settings} {nodes : List Expr} {p : Piece}
    (h : p.Fits settings nodes) {j : Nat} {i : Instr} (hj : (p.code settings)[j]? = some i)
    {name : String} {args : List Operand} (hc : i.call? = some (name, args))
    (hn : name ∉ uncheckedTargets settings nodes) :
    ∃ note e method es className receiver rest, p = .method receiver i ∧ j = 1 ∧
      .methodCall note e method es ∈ nodes ∧ e.ty.objectName? = some className ∧
      name = settings.methodName className method ∧ args = receiver :: rest := by
  cases h with
  | single _ hs =>
    rcases j with _ | j
    · cases hj
      exact absurd (hs name args hc) hn
    · cases hj
  | element he =>
    rcases j with _ | _ | _ | _ | j
    · cases hj
      cases hc
    · cases hj
      cases hc
      exact absurd (by simp [uncheckedTargets]) hn
    · cases hj
      cases hc
    · cases hj
      cases he.symm.trans (access?_of_call? hc)
    · cases hj
  | method hm hclass he =>
    rcases j with _ | _ | j
    · cases hj
      cases hc
      exact absurd (by simp [uncheckedTargets]) hn
    · cases hj
      cases hc.symm.trans he
      exact ⟨_, _, _, _, _, _, _, rfl, rfl, hm, hclass, rfl, rfl⟩
    · cases hj

theorem exists_cut {ctx : Context} {p : Source.Program} {q : Flat.Program} {names : Names}
    (h : (flattenProgram ctx p names).result = .ok q) :
    ∃ pss, q.Cut ctx.settings p.exprs pss := by
  obtain ⟨t, hl, ht⟩ := lowers_of_result h
  obtain ⟨pss, hcode, hfits, hnames⟩ := hl.allCarved (List.Subset.refl _)
  exact ⟨pss, hcode, hfits, hnames.nodup ht⟩

namespace Flat.Program.Cut

variable {q : Flat.Program} {settings : Settings} {nodes : List Expr} {pss : List (List Piece)}
  {k n : Nat}

theorem instr?_eq (h : q.Cut settings nodes pss) :
    q.instr? k n = pss[k]?.bind fun ps => (ps.flatMap (Piece.code settings))[n]? := by
  have hk := congrArg (·[k]?) h.code
  simp only [List.getElem?_map] at hk
  have hq : q.instr? k n = (q.blocks[k]?.map (·.code)).bind (·[n]?) := by
    rw [Option.bind_map]
    rfl
  rw [hq, ← hk, Option.bind_map]
  rfl

theorem exists_piece (h : q.Cut settings nodes pss) {i : Instr} (hi : q.instr? k n = some i) :
    ∃ (p : Piece) (start j : Nat), p.StandsAt settings pss k start ∧ p.Fits settings nodes ∧
      (p.code settings)[j]? = some i ∧ n = start + j := by
  rw [h.instr?_eq, Option.bind_eq_some_iff] at hi
  obtain ⟨ps, hps, hi⟩ := hi
  obtain ⟨m, p, j, hp, hj, hn⟩ := exists_of_getElem?_flatMap hi
  have hfits := h.fits ps (List.mem_of_getElem? hps) p (List.mem_of_getElem? hp)
  exact ⟨p, _, j, ⟨ps, m, hps, hp, rfl⟩, hfits, hj, hn⟩

theorem instr?_of_piece (h : q.Cut settings nodes pss) {p : Piece} {start j : Nat}
    (hp : p.StandsAt settings pss k start) (hj : j < (p.code settings).length) :
    q.instr? k (start + j) = (p.code settings)[j]? := by
  obtain ⟨ps, m, hps, hm, rfl⟩ := hp
  rw [h.instr?_eq, hps]
  exact getElem?_flatMap_take hm hj

theorem eq_of_name (h : q.Cut settings nodes pss) {p p' : Piece} {k' start start' : Nat}
    (hp : p.StandsAt settings pss k start) (hp' : p'.StandsAt settings pss k' start')
    {name : String} (hn : name ∈ p.names) (hn' : name ∈ p'.names) :
    k = k' ∧ start = start' := by
  obtain ⟨ps, m, hps, hm, rfl⟩ := hp
  obtain ⟨ps', m', hps', hm', rfl⟩ := hp'
  obtain rfl : k = k' := eq_of_nodup_flatMap h.nodup hps hps'
    (List.mem_flatMap.mpr ⟨p, List.mem_of_getElem? hm, hn⟩)
    (List.mem_flatMap.mpr ⟨p', List.mem_of_getElem? hm', hn'⟩)
  obtain rfl : ps = ps' := Option.some.inj (hps.symm.trans hps')
  have hnodup := (List.nodup_flatMap.mp h.nodup).1 ps (List.mem_of_getElem? hps)
  obtain rfl : m = m' := eq_of_nodup_flatMap hnodup hm hm' hn hn'
  exact ⟨rfl, rfl⟩

theorem element (h : q.Cut settings nodes pss) {base offset : Operand}
    (ha : q.AccessesElement k n base offset) :
    ∃ start length name index access,
      (Piece.element length name base index access).StandsAt settings pss k start ∧
      n = start + 3 ∧ offset = .var name := by
  obtain ⟨i, hi, ha⟩ := ha
  obtain ⟨p, start, j, hp, hfits, hj, rfl⟩ := h.exists_piece hi
  obtain ⟨length, name, index, rfl, rfl, ho⟩ := hfits.element_last hj ha
  exact ⟨start, length, name, index, i, hp, rfl, ho⟩

/-- The names that stand before an access are those of its piece. -/
theorem boundsChecked_iff (h : q.Cut settings nodes pss) {start : Nat} {length name : String}
    {base index : Operand} {access : Instr}
    (hp : (Piece.element length name base index access).StandsAt settings pss k start)
    {length' : String} {base' index' offset' : Operand} :
    q.BoundsChecked settings k (start + 3) length' base' index' offset' ↔
      length' = length ∧ base' = base ∧ index' = index ∧ offset' = .var name := by
  have hloaded := h.instr?_of_piece hp (show 0 < 4 by decide)
  have hcompared := h.instr?_of_piece hp (show 1 < 4 by decide)
  have hcomputed := h.instr?_of_piece hp (show 2 < 4 by decide)
  constructor
  · rintro ⟨_, hl, hc, name', rfl, ho⟩
    cases hl.symm.trans hloaded
    cases hc.symm.trans hcompared
    cases ho.symm.trans hcomputed
    exact ⟨rfl, rfl, rfl, rfl⟩
  · rintro ⟨rfl, rfl, rfl, rfl⟩
    exact ⟨by omega, hloaded, hcompared, name, rfl, hcomputed⟩

end Flat.Program.Cut

variable {ctx : Context}

/-- Every access to an element has the check of its index right before it, on the list that is
accessed, and shares its temporaries with no other access. Unless the program has another way to
call the helper, there are as many calls of it as the program has elements to read and to assign. -/
theorem element_accesses_bounds_checked {p : Source.Program} {names : Names} {q : Flat.Program}
    (h : (flattenProgram ctx p names).result = .ok q) :
    (∀ k n base offset, q.AccessesElement k n base offset →
      ∃ length index, q.BoundsChecked ctx.settings k n length base index offset ∧
        ∀ k' n' base' offset' length' index', q.AccessesElement k' n' base' offset' →
          q.BoundsChecked ctx.settings k' n' length' base' index' offset' → (k', n') ≠ (k, n) →
          length' ≠ length ∧ offset' ≠ offset) ∧
    ((∀ e ∈ p.exprs, e.target? ctx.settings ≠ some ctx.settings.boundsHelper) →
      ctx.settings.notNoneHelper ≠ ctx.settings.boundsHelper →
      q.callCount ctx.settings.boundsHelper =
        p.exprs.countP Expr.isIndex + p.stmts.countP Stmt.isAssignIndex) := by
  constructor
  · obtain ⟨pss, hcut⟩ := exists_cut h
    intro k n base offset ha
    obtain ⟨start, length, name, index, access, hp, rfl, rfl⟩ := hcut.element ha
    refine ⟨length, index, (hcut.boundsChecked_iff hp).mpr ⟨rfl, rfl, rfl, rfl⟩, ?_⟩
    intro k' n' base' offset' length' index' ha' hb hne
    obtain ⟨start', _, name', _, _, hp', rfl, rfl⟩ := hcut.element ha'
    obtain ⟨rfl, -, -, -⟩ := (hcut.boundsChecked_iff hp').mp hb
    have hplace : ∀ x ∈ [length, name], x ∉ [length', name'] := by
      intro x hx hx'
      obtain ⟨rfl, rfl⟩ := hcut.eq_of_name hp' hp hx' hx
      exact hne rfl
    constructor
    · rintro rfl
      exact hplace length' (by simp) (by simp)
    · intro he
      obtain rfl : name' = name := Operand.var.inj he
      exact hplace name' (by simp) (by simp)
  · intro ht hne
    obtain ⟨t, hl, _⟩ := lowers_of_result h
    rw [Flat.Program.callCount, hl.countP_eq ht, Nat.add_comm]
    have hexprs : Expr.checkedBy ctx.settings ctx.settings.boundsHelper = Expr.isIndex := by
      funext e
      simp [Expr.checkedBy, hne]
    have hstmts : Stmt.checkedBy ctx.settings ctx.settings.boundsHelper = Stmt.isAssignIndex := by
      funext stmt
      simp [Stmt.checkedBy]
    rw [hexprs, hstmts]

/-- Elements inside an index and a value that is assigned, and a method called on what another one
returns. -/
def Source.reorder : Source.Program :=
  let number : Note := ⟨.number, {}⟩
  let bag : Note := ⟨.object "Bag", {}⟩
  let xs : Expr := .var ⟨.list .number, {}⟩ "xs"
  let first : Expr := .index number xs (.literal number (.num 0))
  { functions := [{
      name := "shift", params := [⟨"xs", .list .number⟩, ⟨"bag", .object "Bag"⟩], ret := .number
      locals := [], loc := {}
      body := [.assignIndex number xs first (.index number xs first),
        .ret number (.methodCall number
          (.methodCall bag (.var bag "bag") "pick" [first]) "count" [])] }]
    classes := [⟨"Bag", [], [], {}⟩]
    body := [.eval number (.methodCall number (.construct bag "Bag") "count" [])] }

theorem reorder_lowered : ∃ q,
    (flattenProgram ⟨.ofClasses Source.reorder.classes, {}⟩ Source.reorder {}).result = .ok q ∧
    q.instr? 1 11 = some (.assign "valname3" (.load (.var "xs") (.var "offsetname3"))) ∧
    q.instr? 1 15 = some (.store (.var "xs") (.var "offsetname4") (.var "valname3")) ∧
    q.instr? 1 23 = some (.assign "valname6" (.call "Bag$count" [.var "valname5"])) := by
  have hm : ∀ q ∈ (flattenProgram ⟨.ofClasses Source.reorder.classes, {}⟩ Source.reorder
      {}).result.toOption,
      q.instr? 1 11 = some (.assign "valname3" (.load (.var "xs") (.var "offsetname3"))) ∧
      q.instr? 1 15 = some (.store (.var "xs") (.var "offsetname4") (.var "valname3")) ∧
      q.instr? 1 23 = some (.assign "valname6" (.call "Bag$count" [.var "valname5"])) := by
    decide +kernel
  obtain ⟨q, hq⟩ := ok_of_isOk (show (flattenProgram ⟨.ofClasses Source.reorder.classes, {}⟩
    Source.reorder {}).result.isOk = true by decide +kernel)
  exact ⟨q, hq, hm q (by rw [hq]; rfl)⟩

/-- The element that is assigned and the one it is assigned from. -/
theorem reorder_accesses_checked : ∃ q,
    (flattenProgram ⟨.ofClasses Source.reorder.classes, {}⟩ Source.reorder {}).result = .ok q ∧
    (∃ length index, q.BoundsChecked {} 1 15 length (.var "xs") index (.var "offsetname4") ∧
      ∃ length' index', q.BoundsChecked {} 1 11 length' (.var "xs") index' (.var "offsetname3") ∧
        length' ≠ length) ∧
    q.callCount "index_out_of_bounds" = 5 := by
  obtain ⟨q, hq, hload, hstore, -⟩ := reorder_lowered
  obtain ⟨hchecked, hcount⟩ := element_accesses_bounds_checked hq
  have ha : q.AccessesElement 1 15 (.var "xs") (.var "offsetname4") := ⟨_, hstore, rfl, rfl⟩
  have ha' : q.AccessesElement 1 11 (.var "xs") (.var "offsetname3") := ⟨_, hload, rfl, rfl⟩
  obtain ⟨length, index, hb, hother⟩ := hchecked 1 15 _ _ ha
  obtain ⟨length', index', hb', _⟩ := hchecked 1 11 _ _ ha'
  refine ⟨q, hq, ⟨length, index, hb, length', index', hb', ?_⟩, ?_⟩
  · exact (hother 1 11 _ _ length' index' ha' hb' (by decide)).1
  · exact (hcount (by decide +kernel) (by decide)).trans (by decide +kernel)

/-- Every call of a method has the check of its receiver right before it. Unless the program has
another way to call the helper, there are as many calls of it as the program has method calls. -/
theorem method_calls_receiver_checked {p : Source.Program} {names : Names} {q : Flat.Program}
    (h : (flattenProgram ctx p names).result = .ok q) :
    (∀ k n i name args, q.instr? k n = some i → i.call? = some (name, args) →
      name ∉ uncheckedTargets ctx.settings p.exprs →
      q.ReceiverChecked ctx.settings k n args ∧
      ∃ note receiver method es className, .methodCall note receiver method es ∈ p.exprs ∧
        receiver.ty.objectName? = some className ∧
        name = ctx.settings.methodName className method) ∧
    ((∀ e ∈ p.exprs, e.target? ctx.settings ≠ some ctx.settings.notNoneHelper) →
      ctx.settings.boundsHelper ≠ ctx.settings.notNoneHelper →
      q.callCount ctx.settings.notNoneHelper = p.exprs.countP Expr.isMethodCall) := by
  constructor
  · obtain ⟨pss, hcut⟩ := exists_cut h
    intro k n i name args hi hc hn
    obtain ⟨piece, start, j, hp, hfits, hj, rfl⟩ := hcut.exists_piece hi
    obtain ⟨note, e, method, es, className, receiver, rest, rfl, rfl, hm, hclass, hname, hargs⟩ :=
      hfits.method_last hj hc hn
    have hchecked := hcut.instr?_of_piece hp (show 0 < 2 by decide)
    exact ⟨⟨by omega, receiver, rest, hargs, hchecked⟩, note, e, method, es, className, hm, hclass,
      hname⟩
  · intro ht hne
    obtain ⟨t, hl, _⟩ := lowers_of_result h
    rw [Flat.Program.callCount, hl.countP_eq ht]
    have hexprs : Expr.checkedBy ctx.settings ctx.settings.notNoneHelper = Expr.isMethodCall := by
      funext e
      simp [Expr.checkedBy, hne]
    have hstmts : p.stmts.countP (Stmt.checkedBy ctx.settings ctx.settings.notNoneHelper) = 0 :=
      List.countP_eq_zero.mpr fun stmt _ => by simp [Stmt.checkedBy, hne]
    rw [hexprs, hstmts, Nat.zero_add]

/-- The receiver is what another method returned. -/
theorem reorder_receivers_checked : ∃ q,
    (flattenProgram ⟨.ofClasses Source.reorder.classes, {}⟩ Source.reorder {}).result = .ok q ∧
    "Bag$count" ∉ uncheckedTargets {} Source.reorder.exprs ∧
    q.ReceiverChecked {} 1 23 [.var "valname5"] ∧ q.callCount "assert_not_none" = 3 := by
  obtain ⟨q, hq, -, -, hcall⟩ := reorder_lowered
  obtain ⟨hchecked, hcount⟩ := method_calls_receiver_checked hq
  have hn : "Bag$count" ∉ uncheckedTargets {} Source.reorder.exprs := by decide +kernel
  refine ⟨q, hq, hn, (hchecked 1 23 _ _ _ hcall rfl hn).1, ?_⟩
  exact (hcount (by decide +kernel) (by decide)).trans (by decide +kernel)

end BlockLowering
