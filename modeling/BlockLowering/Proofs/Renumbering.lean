import BlockLowering.Flatten.Program
import BlockLowering.Proofs.FreshNames

/-! Renumbering. Where one supply has given out the numbers of a base up to some number and another up
to some other, the names that come next in the one correspond to the names that come next in the
other. Names of another form correspond to themselves. Flat code is renamed wherever it has
labels or variables; names of functions, builtins and classes are not touched. -/

namespace BlockLowering

open Flat (Operand Rhs Instr Decl Block)

/-- All bases that lowering uses. -/
def Base.all : List String := temporaries ++ labels

/-- One of the bases of lowering followed by decimal digits. -/
def IsGenerated (name : String) : Prop := NumberedFrom Base.all name

instance (name : String) : Decidable (IsGenerated name) :=
  inferInstanceAs (Decidable (NumberedFrom _ name))

theorem Base.plain_of_mem_all : ∀ base ∈ Base.all, PlainBase base := by decide

/-- The number of a name made from the given base. -/
def numberFrom? (base name : String) : Option Nat :=
  let n := Nat.ofDigitChars 10 (name.toList.drop base.toList.length) 0
  if name = base ++ toString n then some n else none

theorem numberFrom?_eq_some {base name : String} {n : Nat} :
    numberFrom? base name = some n ↔ name = base ++ toString n := by
  constructor
  · intro h
    simp only [numberFrom?] at h
    split at h
    · rename_i he
      cases h
      exact he
    · cases h
  · rintro rfl
    have hn : Nat.ofDigitChars 10 ((base ++ toString n).toList.drop base.toList.length) 0 = n := by
      rw [String.toList_append, List.drop_left, Nat.toString_eq_repr, Nat.toList_repr,
        Nat.ofDigitChars_ten_toDigits]
    simp only [numberFrom?, hn, if_true]

namespace Names

/-- The name of `base` that is as far after the last one of `new` as `name` is after the last one
of `old`. -/
def renumberFrom? (old new : Names) (name base : String) : Option String :=
  match numberFrom? base name with
  | some n =>
    if old.count base < n then some (base ++ toString (new.count base + (n - old.count base)))
    else none
  | none => none

/-- Names that `old` has not given out yet, with the numbers they would have in `new`. All other
names are left alone. -/
def renumber (old new : Names) (name : String) : String :=
  (Base.all.findSome? (old.renumberFrom? new name)).getD name

variable {old new : Names}

theorem renumber_numbered {base : String} (hb : base ∈ Base.all) {k : Nat} (hk : 0 < k) :
    old.renumber new (base ++ toString (old.count base + k)) =
      base ++ toString (new.count base + k) := by
  have hself : old.renumberFrom? new (base ++ toString (old.count base + k)) base =
      some (base ++ toString (new.count base + k)) := by
    simp only [renumberFrom?, numberFrom?_eq_some.mpr rfl]
    rw [if_pos (by omega), Nat.add_sub_cancel_left]
  have hother : ∀ {base' name},
      old.renumberFrom? new (base ++ toString (old.count base + k)) base' = some name →
      base' ∈ Base.all → name = base ++ toString (new.count base + k) := by
    intro base' name h hb'
    cases hn : numberFrom? base' (base ++ toString (old.count base + k)) with
    | none => simp only [renumberFrom?, hn, reduceCtorEq] at h
    | some n =>
      obtain ⟨rfl, _⟩ := numbered_inj (Base.plain_of_mem_all base hb)
        (Base.plain_of_mem_all base' hb') (numberFrom?_eq_some.mp hn)
      exact Option.some.inj (h.symm.trans hself)
  have hsome : (Base.all.findSome?
      (old.renumberFrom? new (base ++ toString (old.count base + k)))).isSome :=
    List.findSome?_isSome_iff.mpr ⟨base, hb, by rw [hself]; rfl⟩
  obtain ⟨name, hname⟩ := Option.isSome_iff_exists.mp hsome
  obtain ⟨base', hb', h'⟩ := List.exists_of_findSome?_eq_some hname
  rw [renumber, hname, hother h' hb']
  rfl

theorem renumber_of_not_isGenerated {name : String} (h : ¬ IsGenerated name) :
    old.renumber new name = name := by
  have hnone : Base.all.findSome? (old.renumberFrom? new name) = none := by
    rw [List.findSome?_eq_none_iff]
    intro base hb
    cases hn : numberFrom? base name with
    | none => simp only [renumberFrom?, hn]
    | some n =>
      rw [numberFrom?_eq_some.mp hn] at h
      exact absurd (numberedFrom_numbered hb n) h
  rw [renumber, hnone]
  rfl

/-- Supplies that have gone equally far from `old` and from `new`. -/
def Level (old new a a' : Names) : Prop :=
  ∀ base, ∃ k, a.count base = old.count base + k ∧ a'.count base = new.count base + k

theorem Level.refl (old new : Names) : Level old new old new := fun _ => ⟨0, rfl, rfl⟩

variable {a a' : Names}

theorem Level.advance (h : Level old new a a') (base : String) :
    Level old new (a.advance base) (a'.advance base) := by
  intro other
  obtain ⟨k, hk, hk'⟩ := h other
  by_cases he : other = base
  · subst he
    refine ⟨k + 1, ?_, ?_⟩
    · rw [count_advance_self]
      omega
    · rw [count_advance_self]
      omega
  · exact ⟨k, by rw [count_advance_of_ne a he, hk], by rw [count_advance_of_ne a' he, hk']⟩

theorem Level.fresh (h : Level old new a a') {base : String} (hb : base ∈ Base.all) :
    a'.fresh base = old.renumber new (a.fresh base) := by
  obtain ⟨k, hk, hk'⟩ := h base
  rw [Names.fresh, Names.fresh, next_eq, next_eq, hk, hk', Nat.add_assoc, Nat.add_assoc,
    renumber_numbered hb (Nat.succ_pos k)]

end Names

variable (ρ : String → String)

namespace Flat

def Operand.rename : Operand → Operand
  | .var name => .var (ρ name)
  | v => v

def Rhs.rename : Rhs → Rhs
  | .operand v => .operand (v.rename ρ)
  | .unary op v => .unary op (v.rename ρ)
  | .binary op l r => .binary op (l.rename ρ) (r.rename ρ)
  | .builtin1 name v => .builtin1 name (v.rename ρ)
  | .builtin2 name l r => .builtin2 name (l.rename ρ) (r.rename ρ)
  | .call name args => .call name (args.map (Operand.rename ρ))
  | .load base offset => .load (base.rename ρ) (offset.rename ρ)
  | .alloc size => .alloc (size.rename ρ)

def Instr.rename : Instr → Instr
  | .assign target value => .assign (ρ target) (value.rename ρ)
  | .ret value => .ret (value.rename ρ)
  | .eval value => .eval (value.rename ρ)
  | .store base offset value => .store (base.rename ρ) (offset.rename ρ) (value.rename ρ)
  | .jump label => .jump (ρ label)
  | .branch cond t e => .branch (cond.rename ρ) (ρ t) (ρ e)

def Block.rename (b : Block) : Block := ⟨ρ b.label, b.code.map (Instr.rename ρ)⟩

def Decl.rename (d : Decl) : Decl := { d with name := ρ d.name }

def Function.rename (f : Function) : Function :=
  { f with decls := f.decls.map (Decl.rename ρ), body := f.body.map (Block.rename ρ) }

def Class.rename (c : Class) : Class := { c with methods := c.methods.map (Function.rename ρ) }

def Program.rename (p : Program) : Program :=
  ⟨p.functions.map (Function.rename ρ), p.decls.map (Decl.rename ρ),
    p.classes.map (Class.rename ρ), p.body.map (Block.rename ρ)⟩

end Flat

variable {ρ}

theorem Flat.Operand.rename_of_varName? {v : Operand} (h : v.varName? = Option.none) :
    v.rename ρ = v := by
  cases v with
  | var name => cases h
  | _ => rfl

theorem Flat.Operand.rename_ofLiteral (value : Source.Literal) :
    (Operand.ofLiteral value).rename ρ = .ofLiteral value := by
  cases value <;> rfl

/-- Declarations from the source keep their names. -/
theorem Names.renumber_ofSource (old new : Names) {ds : List Source.Decl}
    (h : ∀ d ∈ ds, ¬ IsGenerated d.name) :
    (ds.map Decl.ofSource).map (Decl.rename (old.renumber new)) = ds.map Decl.ofSource := by
  rw [List.map_map]
  refine List.map_congr_left fun d hd => ?_
  simp only [Function.comp, Decl.rename, Decl.ofSource, renumber_of_not_isGenerated (h d hd)]

variable (ρ)

def Prelude.rename (p : Prelude) : Prelude :=
  ⟨p.decls.map (Decl.rename ρ), p.code.map (Instr.rename ρ)⟩

/-- Renames what runs before, and the value as given. -/
def WithPrelude.rename {α : Type} (f : α → α) (x : WithPrelude α) : WithPrelude α :=
  ⟨x.prelude.rename ρ, f x.value⟩

def Fragment.rename (f : Fragment) : Fragment :=
  ⟨f.head.map (Instr.rename ρ), f.blocks.map (Block.rename ρ)⟩

def Step.rename : Step → Step
  | .named name => .named (ρ name)
  | .opened label => .opened (ρ label)

def Trail.rename (t : Trail) : Trail := ⟨t.steps.map (Step.rename ρ), t.code.rename ρ⟩

def Happening.rename : Happening → Happening
  | .freshName name => .freshName (ρ name)
  | .openBlock label total => .openBlock (ρ label) total
  | h => h

def Event.rename (e : Event) : Event := { e with happening := e.happening.rename ρ }

@[simp] theorem Prelude.rename_empty : (∅ : Prelude).rename ρ = ∅ := rfl

@[simp] theorem Prelude.rename_append (p q : Prelude) :
    (p ++ q).rename ρ = p.rename ρ ++ q.rename ρ := by
  change Prelude.mk _ _ = Prelude.mk _ _
  simp only [Prelude.rename, Prelude.mk.injEq]
  exact ⟨List.map_append, List.map_append⟩

@[simp] theorem Prelude.rename_ofCode (code : List Instr) :
    (Prelude.ofCode code).rename ρ = .ofCode (code.map (Instr.rename ρ)) := rfl

@[simp] theorem Prelude.rename_temporary (name : String) (ty : Source.Ty) (value : Rhs) :
    (Prelude.temporary name ty value).rename ρ = .temporary (ρ name) ty (value.rename ρ) := rfl

theorem map_rename_extendLast (more : List Instr) (blocks : List Block) :
    (extendLast more blocks).map (Block.rename ρ) =
      extendLast (more.map (Instr.rename ρ)) (blocks.map (Block.rename ρ)) := by
  fun_induction extendLast more blocks with
  | case1 => rfl
  | case2 b => simp [extendLast, Block.rename]
  | case3 b c rest ih => simp only [List.map_cons, extendLast, ih]

@[simp] theorem Fragment.rename_append (f g : Fragment) :
    (f ++ g).rename ρ = f.rename ρ ++ g.rename ρ := by
  change (f.append g).rename ρ = (f.rename ρ).append (g.rename ρ)
  obtain ⟨head, blocks⟩ := f
  cases blocks with
  | nil => simp [Fragment.append, Fragment.rename]
  | cons b bs => simp [Fragment.append, Fragment.rename, map_rename_extendLast]

theorem stepEvents_rename (spans : List Span) (opened : Nat) (steps : List Step) :
    stepEvents spans opened (steps.map (Step.rename ρ)) =
      (stepEvents spans opened steps).map (Event.rename ρ) := by
  induction steps generalizing opened with
  | nil => rfl
  | cons step rest ih =>
    cases step with
    | named name => exact congrArg (_ :: ·) (ih opened)
    | opened label => exact congrArg (_ :: ·) (ih (opened + 1))

theorem storeElements_rename (list : Operand) (offset : Nat) (vs : List Operand) :
    (storeElements list offset vs).map (Instr.rename ρ) =
      storeElements (list.rename ρ) offset (vs.map (Operand.rename ρ)) := by
  induction vs generalizing offset with
  | nil => rfl
  | cons v vs ih => exact congrArg (_ :: ·) (ih (offset + 1))

end BlockLowering
