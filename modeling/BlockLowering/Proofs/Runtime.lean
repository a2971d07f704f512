import BlockLowering.Flat.Code
import Mathlib.Logic.Function.Iterate

/-! A machine for flat code. What operators, builtins, calls and memory do is left open: a runtime is
any interpretation of them as functions of values and memory that may trap, but that do not see
the variables of the body that runs. Control is at an instruction of a block, moves to the next
one or to the block a jump names, and ends by a return, a trap, or at the end of the last block. -/

namespace BlockLowering

open Source (UnaryOp BinaryOp)

/-- An interpretation of what flat code leaves open, over values `V` and memories `H`. Where there
is no result, the operation traps. -/
structure Runtime (V H : Type) where
  num : Int → V
  bool : Bool → V
  none : V
  word : UInt32 → V
  unary : UnaryOp → V → H → Option (V × H)
  binary : BinaryOp → V → V → H → Option (V × H)
  builtin1 : String → V → H → Option (V × H)
  builtin2 : String → V → V → H → Option (V × H)
  call : String → List V → H → Option (V × H)
  load : V → V → H → Option V
  store : V → V → V → H → Option H
  alloc : V → H → Option (V × H)
  truth : V → Option Bool

structure State (V H : Type) where
  env : String → V
  heap : H

/-- How a body ends. -/
inductive Ending (V H : Type) where
  | finished (s : State V H)
  | returned (v : V) (s : State V H)
  | trapped

variable {V H : Type}

namespace State

def assign (s : State V H) (name : String) (v : V) (heap : H) : State V H :=
  ⟨Function.update s.env name v, heap⟩

theorem assign_env_of_ne (s : State V H) {name other : String} (h : other ≠ name) (v : V)
    (heap : H) : (s.assign name v heap).env other = s.env other := by
  simp [assign, Function.update_of_ne h]

@[simp] theorem assign_env_self (s : State V H) (name : String) (v : V) (heap : H) :
    (s.assign name v heap).env name = v := by
  simp [assign]

@[simp] theorem assign_heap (s : State V H) (name : String) (v : V) (heap : H) :
    (s.assign name v heap).heap = heap := rfl

end State

namespace Flat

def Operand.value (m : Runtime V H) (env : String → V) : Operand → V
  | num n => m.num n
  | bool b => m.bool b
  | none => m.none
  | word n => m.word n
  | var name => env name

@[simp] theorem Operand.value_var (m : Runtime V H) (env : String → V) (name : String) :
    (var name).value m env = env name := rfl

@[simp] theorem Operand.value_word (m : Runtime V H) (env : String → V) (n : UInt32) :
    (word n).value m env = m.word n := rfl

@[simp] theorem Operand.value_num (m : Runtime V H) (env : String → V) (n : Int) :
    (num n).value m env = m.num n := rfl

def Rhs.value (m : Runtime V H) (s : State V H) : Rhs → Option (V × H)
  | operand v => some (v.value m s.env, s.heap)
  | unary op v => m.unary op (v.value m s.env) s.heap
  | binary op l r => m.binary op (l.value m s.env) (r.value m s.env) s.heap
  | builtin1 name v => m.builtin1 name (v.value m s.env) s.heap
  | builtin2 name l r => m.builtin2 name (l.value m s.env) (r.value m s.env) s.heap
  | call name args => m.call name (args.map (·.value m s.env)) s.heap
  | load base offset => (m.load (base.value m s.env) (offset.value m s.env) s.heap).map (·, s.heap)
  | alloc size => m.alloc (size.value m s.env) s.heap

/-- Where an instruction leaves control. -/
inductive Move (V H : Type) where
  | next (s : State V H)
  | goto (label : String) (s : State V H)
  | stop (e : Ending V H)

def Instr.perform (m : Runtime V H) (s : State V H) : Instr → Move V H
  | assign name value =>
    match value.value m s with
    | some (v, heap) => .next (s.assign name v heap)
    | Option.none => .stop .trapped
  | ret value => .stop (.returned (value.value m s.env) s)
  | eval value =>
    match value.value m s with
    | some (_, heap) => .next { s with heap := heap }
    | Option.none => .stop .trapped
  | store base offset value =>
    match m.store (base.value m s.env) (offset.value m s.env) (value.value m s.env) s.heap with
    | some heap => .next { s with heap := heap }
    | Option.none => .stop .trapped
  | jump label => .goto label s
  | branch cond t e =>
    match m.truth (cond.value m s.env) with
    | some true => .goto t s
    | some false => .goto e s
    | Option.none => .stop .trapped

/-- A running machine is before an instruction of a block, or at the end of the block. A machine
without a place to go on is lost. -/
inductive Config (V H : Type) where
  | running (block index : Nat) (s : State V H)
  | ended (e : Ending V H)
  | lost

/-- Control at the start of the block of the given label. -/
def enter (blocks : List Block) (label : String) (s : State V H) : Config V H :=
  match blocks.findIdx? (·.label = label) with
  | some block => .running block 0 s
  | Option.none => .lost

def step (m : Runtime V H) (blocks : List Block) : Config V H → Config V H
  | .running block index s =>
    match blocks[block]? with
    | Option.none => .lost
    | some b =>
      match b.code[index]? with
      | some i =>
        match i.perform m s with
        | .next t => .running block (index + 1) t
        | .goto label t => enter blocks label t
        | .stop e => .ended e
      | Option.none => if block + 1 = blocks.length then .ended (.finished s) else .lost
  | c => c

/-- A run from the first block ends. -/
def Ends (m : Runtime V H) (blocks : List Block) (s : State V H) (e : Ending V H) : Prop :=
  ∃ n, (step m blocks)^[n] (.running 0 0 s) = .ended e

/-- A run from the first block goes on for ever. -/
def Diverges (m : Runtime V H) (blocks : List Block) (s : State V H) : Prop :=
  ∀ n, ∃ block index t, (step m blocks)^[n] (.running 0 0 s) = .running block index t

end Flat

end BlockLowering
