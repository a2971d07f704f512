import BlockLowering.Proofs.ProgramBodies

/-! What lowered code is made of. Every block is cut into pieces: an access to an element together
with the check of its index, a call of a method together with the check of its receiver, and single
instructions that need no check. A piece is never torn apart, though the check and what it guards
come from different steps of lowering. The names that the checks of indices introduce are drawn for
them alone. -/

namespace BlockLowering

open Source (Expr Stmt Note bodyExprs)
open Flat (Operand Rhs Instr Block Decl)

namespace Flat

/-- The base and the offset of a load. -/
def Rhs.access? : Rhs → Option (Operand × Operand)
  | .load base offset => some (base, offset)
  | _ => none

/-- The function that is called, and what it is called with. -/
def Rhs.call? : Rhs → Option (String × List Operand)
  | .call name args => some (name, args)
  | _ => none

def Instr.rhs? : Instr → Option Rhs
  | .assign _ r | .eval r => some r
  | _ => none

/-- Where an instruction reads or writes memory. -/
def Instr.access? : Instr → Option (Operand × Operand)
  | .assign _ r | .eval r => r.access?
  | .store base offset _ => some (base, offset)
  | _ => none

def Instr.call? (i : Instr) : Option (String × List Operand) := i.rhs?.bind Rhs.call?

/-- An access to an element, and not to a field or the length of a list. -/
def Instr.AccessesElement (i : Instr) (base offset : Operand) : Prop :=
  i.access? = some (base, offset) ∧ offset.word? = none

theorem Instr.access?_of_rhs? {i : Instr} {r : Rhs} (h : i.rhs? = some r) :
    i.access? = r.access? := by
  cases i with
  | assign | eval =>
    cases h
    rfl
  | _ => cases h

theorem Instr.call?_of_rhs? {i : Instr} {r : Rhs} (h : i.rhs? = some r) : i.call? = r.call? := by
  rw [Instr.call?, h]
  rfl

end Flat

/-- The functions that are called without a check: those that the expressions call by their names,
the helpers, and the methods that start new objects. -/
def uncheckedTargets (settings : Settings) (nodes : List Expr) : List String :=
  nodes.filterMap Expr.callee? ++ [settings.notNoneHelper, settings.boundsHelper] ++
    (nodes.filterMap Expr.constructed?).map fun className =>
      settings.methodName className settings.initMethod

/-- A part of a block that stays together. -/
inductive Piece where
  | single (i : Instr)
  | element (length offset : String) (base index : Operand) (access : Instr)
  | method (receiver : Operand) (call : Instr)

namespace Piece

def code (settings : Settings) : Piece → List Instr
  | single i => [i]
  | element length offset base index access =>
    [.assign length (.load base (.word 0)),
      helperCall settings.boundsHelper [.var length, index],
      .assign offset (.binary .plus index (.word 1)), access]
  | method receiver call => [helperCall settings.notNoneHelper [receiver], call]

/-- The temporaries that the check of an index introduces. -/
def names : Piece → List String
  | element length offset .. => [length, offset]
  | _ => []

/-- A piece of the code for the expressions `nodes`, with a check where one is due. -/
inductive Fits (settings : Settings) (nodes : List Expr) : Piece → Prop
  | single {i} : (∀ base offset, ¬ i.AccessesElement base offset) →
      (∀ name args, i.call? = some (name, args) → name ∈ uncheckedTargets settings nodes) →
      Fits settings nodes (single i)
  | element {length offset base index access} : access.access? = some (base, .var offset) →
      Fits settings nodes (element length offset base index access)
  | method {note e method args className receiver rest call} :
      .methodCall note e method args ∈ nodes → e.ty.objectName? = some className →
      call.call? = some (settings.methodName className method, receiver :: rest) →
      Fits settings nodes (.method receiver call)

end Piece

/-- Code that consists of pieces, whose names are among `t` and in the same order. -/
def Carved (settings : Settings) (nodes : List Expr) (code : List Instr) (t : List String) : Prop :=
  ∃ ps : List Piece, ps.flatMap (Piece.code settings) = code ∧
    (∀ p ∈ ps, p.Fits settings nodes) ∧ (ps.flatMap Piece.names).Sublist t

variable {settings : Settings} {nodes : List Expr}

namespace Carved

variable {code more : List Instr} {t u : List String}

theorem nil : Carved settings nodes [] t := ⟨[], rfl, by simp, List.nil_sublist t⟩

theorem piece {p : Piece} (h : p.Fits settings nodes) :
    Carved settings nodes (p.code settings) p.names :=
  ⟨[p], by simp, by simpa using h, by simp⟩

theorem mono (h : Carved settings nodes code t) (ht : t.Sublist u) :
    Carved settings nodes code u := by
  obtain ⟨ps, hcode, hfits, hnames⟩ := h
  exact ⟨ps, hcode, hfits, hnames.trans ht⟩

theorem append (h : Carved settings nodes code t) (h' : Carved settings nodes more u) :
    Carved settings nodes (code ++ more) (t ++ u) := by
  obtain ⟨ps, rfl, hfits, hnames⟩ := h
  obtain ⟨qs, rfl, hfits', hnames'⟩ := h'
  refine ⟨ps ++ qs, List.flatMap_append, List.forall_mem_append.mpr ⟨hfits, hfits'⟩, ?_⟩
  rw [List.flatMap_append]
  exact hnames.append hnames'

/-- Another instruction, which needs no check. -/
theorem concat {i : Instr} (h : Carved settings nodes code t)
    (ha : ∀ base offset, ¬ i.AccessesElement base offset)
    (hc : ∀ name args, i.call? = some (name, args) → name ∈ uncheckedTargets settings nodes) :
    Carved settings nodes (code ++ [i]) t := by
  have hi : Carved settings nodes (code ++ [i]) (t ++ []) := h.append (piece (.single ha hc))
  rwa [List.append_nil] at hi

theorem plain {i : Instr} (h : Carved settings nodes code t) (ha : i.access? = none)
    (hc : i.call? = none) : Carved settings nodes (code ++ [i]) t := by
  apply h.concat
  · intro base offset he
    cases ha.symm.trans he.1
  · intro name args he
    cases hc.symm.trans he

/-- A load or store at a fixed offset. -/
theorem fixed {i : Instr} {base : Operand} {k : UInt32} (h : Carved settings nodes code t)
    (ha : i.access? = some (base, .word k)) (hc : i.call? = none) :
    Carved settings nodes (code ++ [i]) t := by
  apply h.concat
  · rintro _ _ ⟨he, ho⟩
    cases ha.symm.trans he
    cases ho
  · intro name args he
    cases hc.symm.trans he

/-- A call of a function that is called without a check. -/
theorem call {i : Instr} {name : String} {args : List Operand}
    (h : Carved settings nodes code t) (ha : i.access? = none) (hc : i.call? = some (name, args))
    (hn : name ∈ uncheckedTargets settings nodes) : Carved settings nodes (code ++ [i]) t := by
  apply h.concat
  · intro base offset he
    cases ha.symm.trans he.1
  · intro name' args' he
    cases hc.symm.trans he
    exact hn

/-- Stores at fixed offsets. -/
theorem stores (h : Carved settings nodes code t)
    (hm : ∀ i ∈ more, ∃ base k value, i = .store base (.word k) value) :
    Carved settings nodes (code ++ more) t := by
  induction more generalizing code with
  | nil => rwa [List.append_nil]
  | cons i more ih =>
    obtain ⟨⟨base, k, value, rfl⟩, hrest⟩ := List.forall_mem_cons.mp hm
    rw [List.append_cons]
    exact ih (h.fixed rfl rfl) hrest

/-- The check of an index and the access to the element. -/
theorem element {ctx : Context} (h : Carved ctx.settings nodes code t) {length offset : String}
    {index base : Operand} {i : Instr} (hi : i.access? = some (base, .var offset)) :
    Carved ctx.settings nodes (code ++ (guardedOffset ctx length offset index base).code ++ [i])
      (t ++ [length, offset]) := by
  have hp : Carved ctx.settings nodes ((guardedOffset ctx length offset index base).code ++ [i])
      [length, offset] := piece (.element hi)
  rw [List.append_assoc]
  exact h.append hp

/-- The check of a receiver and the call of the method. -/
theorem method (h : Carved settings nodes code t) {note : Note} {e : Expr} {method className : String}
    {args : List Expr} {receiver : Operand} {rest : List Operand} {i : Instr}
    (hn : .methodCall note e method args ∈ nodes) (hc : e.ty.objectName? = some className)
    (hi : i.call? = some (settings.methodName className method, receiver :: rest)) :
    Carved settings nodes (code ++ [helperCall settings.notNoneHelper [receiver]] ++ [i]) t := by
  have hp : Carved settings nodes ([helperCall settings.notNoneHelper [receiver]] ++ [i]) [] :=
    piece (.method hn hc hi)
  have hall := h.append hp
  rwa [List.append_nil, ← List.append_assoc] at hall

/-- An instruction that needs no check is a piece by itself. -/
theorem of_concat {i : Instr} (h : Carved settings nodes (code ++ [i]) t) (ha : i.access? = none)
    (hc : i.call? = none) : Carved settings nodes code t := by
  obtain ⟨ps, hcode, hfits, hnames⟩ := h
  rcases List.eq_nil_or_concat ps with rfl | ⟨front, p, rfl⟩
  · simp at hcode
  · rw [List.concat_eq_append] at hcode hfits hnames
    simp only [List.flatMap_append, List.flatMap_singleton] at hcode hnames
    rw [List.forall_mem_append, List.forall_mem_singleton] at hfits
    obtain ⟨hfront, hp⟩ := hfits
    cases hp with
    | single _ _ =>
      obtain ⟨rfl, -⟩ := List.append_inj' hcode rfl
      exact ⟨front, rfl, hfront, (List.sublist_append_left _ _).trans hnames⟩
    | @element length offset base index access he =>
      have hlast : (front.flatMap (Piece.code settings) ++ _) ++ [access] = code ++ [i] :=
        (List.append_assoc _ [_, _, _] [access]).trans hcode
      cases List.append_inj' hlast rfl |>.2
      cases ha.symm.trans he
    | @method _ _ _ _ _ receiver _ call _ _ he =>
      have hlast : (front.flatMap (Piece.code settings) ++ _) ++ [call] = code ++ [i] :=
        (List.append_assoc _ [_] [call]).trans hcode
      cases List.append_inj' hlast rfl |>.2
      cases hc.symm.trans he

end Carved

variable {ctx : Context}

theorem newObject_carved {note : Note} {className : String} {fields : ClassLayout} {name : String}
    (hn : .construct note className ∈ nodes) :
    Carved ctx.settings nodes (newObject ctx note className fields name).code [] := by
  have halloc : Carved ctx.settings nodes
      [.assign name (.alloc (.word (UInt32.ofNat fields.size)))] [] := Carved.nil.plain rfl rfl
  have hinit : ctx.settings.methodName className ctx.settings.initMethod ∈
      uncheckedTargets ctx.settings nodes := by
    refine List.mem_append_right _ (List.mem_map.mpr ⟨className, ?_, rfl⟩)
    exact List.mem_filterMap.mpr ⟨_, hn, rfl⟩
  refine (halloc.stores fun i hi => ?_).call rfl rfl hinit
  obtain ⟨slot, _, rfl⟩ := List.mem_map.mp hi
  exact ⟨_, _, _, rfl⟩

theorem newList_carved {note : Note} {name : String} {size : Nat}
    {xs : WithPrelude (List Operand)} {t : List String}
    (h : Carved settings nodes xs.prelude.code t) :
    Carved settings nodes (newList note name size xs).code t := by
  have halloc : Carved settings nodes
      [.assign name (.alloc (.word (UInt32.ofNat (size + 1))))] [] := Carved.nil.plain rfl rfl
  refine (halloc.append h).stores fun i hi => ?_
  rcases List.mem_cons.mp hi with rfl | hi
  · exact ⟨_, _, _, rfl⟩
  · exact exists_store_of_mem hi

mutual

/-- Whatever instruction takes up the operation that is left, it completes the last piece. -/
theorem Flattens.carved {a b : Names} {e : Expr} {x : WithPrelude Rhs} {t : List String}
    {i : Instr} : Flattens ctx a e x b t → e.nodes ⊆ nodes → i.rhs? = some x.value →
    Carved ctx.settings nodes (x.prelude.code ++ [i]) t
  | .unary h, hn, hi | .builtin1 h, hn, hi =>
    (h.carved (List.cons_subset.mp hn).2).plain (Instr.access?_of_rhs? hi) (Instr.call?_of_rhs? hi)
  | .binary hl hr, hn, hi | .builtin2 hl hr, hn, hi => by
    obtain ⟨hnl, hnr⟩ := List.append_subset.mp (List.cons_subset.mp hn).2
    exact ((hl.carved hnl).append (hr.carved hnr)).plain (Instr.access?_of_rhs? hi)
      (Instr.call?_of_rhs? hi)
  | .call h, hn, hi => by
    obtain ⟨hmem, hargs⟩ := List.cons_subset.mp hn
    refine (h.carved hargs).call (Instr.access?_of_rhs? hi) (Instr.call?_of_rhs? hi) ?_
    exact List.mem_append_left _ (List.mem_append_left _ (List.mem_filterMap.mpr ⟨_, hmem, rfl⟩))
  | .methodCall hc hr h, hn, hi => by
    obtain ⟨hmem, hrest⟩ := List.cons_subset.mp hn
    obtain ⟨hnr, hargs⟩ := List.append_subset.mp hrest
    exact ((hr.carved hnr).append (h.carved hargs)).method hmem hc (Instr.call?_of_rhs? hi)
  | .field _ h, hn, hi =>
    (h.carved (List.cons_subset.mp hn).2).fixed (Instr.access?_of_rhs? hi) (Instr.call?_of_rhs? hi)
  | .index hr hi, hn, hrhs => by
    obtain ⟨hnr, hni⟩ := List.append_subset.mp (List.cons_subset.mp hn).2
    exact ((hr.carved hnr).append (hi.carved hni)).element (Instr.access?_of_rhs? hrhs)
  | .construct _, hn, hi =>
    ((newObject_carved (List.cons_subset.mp hn).1).mono (List.nil_sublist _)).plain
      (Instr.access?_of_rhs? hi) (Instr.call?_of_rhs? hi)
  | .listLiteral h, hn, hi =>
    ((newList_carved (h.carved (List.cons_subset.mp hn).2)).mono
      (List.sublist_cons_self _ _)).plain (Instr.access?_of_rhs? hi) (Instr.call?_of_rhs? hi)
  | .var, _, hi | .literal, _, hi =>
    Carved.nil.plain (Instr.access?_of_rhs? hi) (Instr.call?_of_rhs? hi)

theorem FlattensOperand.carved {a b : Names} {e : Expr} {x : WithPrelude Operand}
    {t : List String} : FlattensOperand ctx a e x b t → e.nodes ⊆ nodes →
    Carved ctx.settings nodes x.prelude.code t
  | .value h, hn => Carved.of_concat (h.carved hn (i := .eval (.operand _)) rfl) rfl rfl
  | .temporary h _, hn => (h.carved hn rfl).mono (List.sublist_append_left _ _)

theorem FlattensAll.carved {a b : Names} {es : List Expr} {xs : WithPrelude (List Operand)}
    {t : List String} : FlattensAll ctx a es xs b t → Expr.allNodes es ⊆ nodes →
    Carved ctx.settings nodes xs.prelude.code t
  | .nil, _ => Carved.nil
  | .cons h hs, hn => by
    obtain ⟨hn, hns⟩ := List.append_subset.mp hn
    exact (h.carved hn).append (hs.carved hns)

end

theorem FlattensStmt.carved {a b : Names} {stmt : Stmt} {p : Prelude} {t : List String}
    (h : FlattensStmt ctx a stmt p b t) (hn : Expr.allNodes stmt.exprs ⊆ nodes) :
    Carved ctx.settings nodes p.code t := by
  cases h with
  | assign h | eval h => exact h.carved (List.append_subset.mp hn).1 rfl
  | ret h => exact (h.carved (List.append_subset.mp hn).1).plain rfl rfl
  | pass => exact Carved.nil
  | assignField _ hx hy =>
    obtain ⟨hnx, hnr⟩ := List.append_subset.mp hn
    have hargs := (hx.carved hnx).append (hy.carved (List.append_subset.mp hnr).1)
    exact hargs.fixed rfl rfl
  | assignIndex hx hi hy =>
    obtain ⟨hnx, hnr⟩ := List.append_subset.mp hn
    obtain ⟨hni, hnr⟩ := List.append_subset.mp hnr
    have hargs := ((hx.carved hnx).append (hi.carved hni)).append
      (hy.carved (List.append_subset.mp hnr).1)
    exact hargs.element rfl

theorem FlattensOperand.carved_testCode {a b : Names} {cond : Expr} {x : WithPrelude Operand}
    {t : List String} (h : FlattensOperand ctx a cond x b t) (hn : cond.nodes ⊆ nodes)
    (thenLabel elseLabel : String) :
    Carved ctx.settings nodes (testCode x thenLabel elseLabel) t :=
  (h.carved hn).plain rfl rfl

theorem carved_jump (label : String) : Carved settings nodes [.jump label] [] :=
  Carved.nil.plain rfl rfl

/-- Blocks of code that consist of pieces, with all their names among `t`. -/
def AllCarved (settings : Settings) (nodes : List Expr) (codes : List (List Instr))
    (t : List String) : Prop :=
  ∃ pss : List (List Piece), pss.map (·.flatMap (Piece.code settings)) = codes ∧
    (∀ ps ∈ pss, ∀ p ∈ ps, p.Fits settings nodes) ∧
    (pss.flatMap (·.flatMap Piece.names)).Sublist t

namespace AllCarved

variable {codes more : List (List Instr)} {t u : List String}

theorem nil : AllCarved settings nodes [] t := ⟨[], rfl, by simp, List.nil_sublist t⟩

theorem mono (h : AllCarved settings nodes codes t) (ht : t.Sublist u) :
    AllCarved settings nodes codes u := by
  obtain ⟨pss, hcodes, hfits, hnames⟩ := h
  exact ⟨pss, hcodes, hfits, hnames.trans ht⟩

theorem append (h : AllCarved settings nodes codes t) (h' : AllCarved settings nodes more u) :
    AllCarved settings nodes (codes ++ more) (t ++ u) := by
  obtain ⟨pss, rfl, hfits, hnames⟩ := h
  obtain ⟨qss, rfl, hfits', hnames'⟩ := h'
  refine ⟨pss ++ qss, List.map_append, List.forall_mem_append.mpr ⟨hfits, hfits'⟩, ?_⟩
  rw [List.flatMap_append]
  exact hnames.append hnames'

theorem single {code : List Instr} (h : Carved settings nodes code t) :
    AllCarved settings nodes [code] t := by
  obtain ⟨ps, rfl, hfits, hnames⟩ := h
  exact ⟨[ps], rfl, by simpa using hfits, by simpa using hnames⟩

/-- The last block and the first one of what follows become one. -/
theorem join {code code' : List Instr} (h : AllCarved settings nodes (codes ++ [code]) t)
    (h' : AllCarved settings nodes (code' :: more) u) :
    AllCarved settings nodes (codes ++ (code ++ code') :: more) (t ++ u) := by
  obtain ⟨pss, hcodes, hfits, hnames⟩ := h
  obtain ⟨qss, hcodes', hfits', hnames'⟩ := h'
  obtain ⟨pss, last, rfl, rfl, hlast⟩ := List.map_eq_append_iff.mp hcodes
  obtain ⟨ps, rest, rfl, rfl, hrest⟩ := List.map_eq_cons_iff.mp hlast
  obtain rfl := List.map_eq_nil_iff.mp hrest
  obtain ⟨qs, qss, rfl, rfl, rfl⟩ := List.map_eq_cons_iff.mp hcodes'
  refine ⟨pss ++ (ps ++ qs) :: qss, by simp, ?_, ?_⟩
  · simp only [List.forall_mem_append, List.forall_mem_cons] at hfits hfits' ⊢
    exact ⟨hfits.1, ⟨hfits.2.1, hfits'.1⟩, hfits'.2⟩
  · simpa using hnames.append hnames'

end AllCarved

namespace Fragment

/-- The code of the blocks, the one that the fragment continues included. -/
def codes (f : Fragment) : List (List Instr) := f.head :: f.blocks.map (·.code)

theorem codes_toBlocks (label : String) (f : Fragment) :
    (f.toBlocks label).map (·.code) = f.codes := rfl

theorem allCarved_ofCode {code : List Instr} {t : List String} (h : Carved settings nodes code t) :
    AllCarved settings nodes (ofCode code).codes t :=
  .single h

theorem allCarved_closing {code : List Instr} {t : List String}
    (h : Carved settings nodes code t) (label : String) :
    AllCarved settings nodes (closing code label).codes t := by
  have hall := (AllCarved.single h).append (.single (t := []) .nil)
  rwa [List.append_nil] at hall

theorem allCarved_append {f g : Fragment} {t u : List String}
    (hf : AllCarved settings nodes f.codes t) (hg : AllCarved settings nodes g.codes u) :
    AllCarved settings nodes (f ++ g).codes (t ++ u) := by
  rw [← codes_toBlocks "", toBlocks_eq, List.map_append] at hf
  rw [← codes_toBlocks "", toBlocks_append, List.map_append]
  exact hf.join hg

end Fragment

open Fragment (allCarved_ofCode allCarved_closing allCarved_append)

theorem Builds.allCarved {a b : Names} {body : List Stmt} {ds : List Decl} {f : Fragment}
    {t : List String} (h : Builds ctx a body ds f b t) (hn : bodyExprs body ⊆ nodes) :
    AllCarved ctx.settings nodes f.codes t := by
  induction h with
  | nil => exact allCarved_ofCode .nil
  | plain hs _ ih =>
    rw [Source.bodyExprs_plain _ hs.isPlain, List.append_subset] at hn
    exact allCarved_append (allCarved_ofCode (hs.carved hn.1)) (ih hn.2)
  | ifElse _ hx _ _ _ iht ihe ih =>
    simp only [Source.bodyExprs_ifElse, List.append_subset] at hn
    obtain ⟨⟨⟨hcond, hthen⟩, helse⟩, hrest⟩ := hn
    have htest := hx.carved_testCode hcond
    refine AllCarved.mono (allCarved_append (allCarved_append (allCarved_append (allCarved_append
      (allCarved_append (allCarved_closing (htest _ _) _) (iht hthen))
      (allCarved_closing (carved_jump _) _)) (ihe helse)) (allCarved_closing (carved_jump _) _))
      (ih hrest)) ?_
    simp only [List.append_nil, List.append_assoc]
    exact List.sublist_append_right _ _
  | whileLoop _ hx _ _ ihb ih =>
    simp only [Source.bodyExprs_whileLoop, List.append_subset] at hn
    obtain ⟨⟨hcond, hbody⟩, hrest⟩ := hn
    have htest := hx.carved_testCode hcond
    refine AllCarved.mono (allCarved_append (allCarved_append (allCarved_append (allCarved_append
      (allCarved_closing (carved_jump _) _) (allCarved_closing (htest _ _) _)) (ihb hbody))
      (allCarved_closing (carved_jump _) _)) (ih hrest)) ?_
    simp only [List.append_nil, List.nil_append, List.append_assoc]
    exact List.sublist_append_right _ _

theorem Lowers.allCarved {bodies : List (List Stmt)} {blocks : List Block} {t : List String}
    (h : Lowers ctx bodies blocks t) (hn : bodies.flatMap bodyExprs ⊆ nodes) :
    AllCarved ctx.settings nodes (blocks.map (·.code)) t := by
  induction h with
  | nil => exact .nil
  | cons hb _ ih =>
    rw [List.flatMap_cons, List.append_subset] at hn
    rw [List.map_append, Fragment.codes_toBlocks]
    exact ((hb.allCarved hn.1).mono (List.sublist_cons_self _ _)).append (ih hn.2)

end BlockLowering
