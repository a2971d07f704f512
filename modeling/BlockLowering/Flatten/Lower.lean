import BlockLowering.Flatten.Fault
import BlockLowering.Names

/-! Steps of lowering. A step draws names from a supply, leaves a trail, and ends with a value or a
fault. A fault ends the run, but the names drawn and the trail left before it remain. A run that
counts past the last number of a base breaks off there. -/

namespace BlockLowering

structure Outcome (ω α : Type) where
  result : Except Fault α
  names : Names
  trail : ω

/-- How a run ends once the numbers are limited. -/
inductive Verdict (α : Type) where
  | value (a : α)
  | fault (f : Fault)
  | overflow
  deriving DecidableEq

/-- Counters never go back, so the names that a run leaves tell whether it has counted too far. -/
def Outcome.verdict {ω α : Type} (o : Outcome ω α) : Verdict α :=
  if o.names.fits then
    match o.result with
    | .ok a => .value a
    | .error f => .fault f
  else .overflow

def Lower (ω α : Type) : Type := Names → Outcome ω α

namespace Lower

variable {ω ω' α β : Type}

def done [EmptyCollection ω] (a : α) : Lower ω α := fun names => ⟨.ok a, names, ∅⟩

def fail [EmptyCollection ω] (f : Fault) : Lower ω α := fun names => ⟨.error f, names, ∅⟩

def andThen [Append ω] (m : Lower ω α) (next : α → Lower ω β) : Lower ω β := fun names =>
  match m names with
  | ⟨.ok a, names, trail⟩ =>
    let o := next a names
    ⟨o.result, o.names, trail ++ o.trail⟩
  | ⟨.error f, names, trail⟩ => ⟨.error f, names, trail⟩

instance [EmptyCollection ω] [Append ω] : Monad (Lower ω) where
  pure := done
  bind := andThen

/-- The same step with its trail seen differently. -/
def mapTrail (f : ω → ω') (m : Lower ω α) : Lower ω' α := fun names =>
  let o := m names
  ⟨o.result, o.names, f o.trail⟩

/-- Leaves `trail` and does nothing else. -/
def leave (trail : ω) : Lower ω Unit := fun names => ⟨.ok (), names, trail⟩

/-- Runs a step for every item, from left to right. -/
def each [EmptyCollection ω] [Append ω] (step : α → Lower ω β) : List α → Lower ω (List β)
  | [] => done []
  | a :: rest => do
    let b ← step a
    let bs ← each step rest
    done (b :: bs)

end Lower

/-- A step that leaves the names it drew. -/
abbrev Draw (α : Type) := Lower (List String) α

/-- The next name of a base. -/
def draw (base : String) : Draw String := fun names =>
  ⟨.ok (names.fresh base), names.advance base, [names.fresh base]⟩

end BlockLowering
