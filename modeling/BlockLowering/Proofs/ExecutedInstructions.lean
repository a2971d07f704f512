import BlockLowering.Proofs.ExpressionMeaning
import BlockLowering.Proofs.MachineRuns

/-! What holds of every instruction when it is executed. Control enters a block at its start only, so
it is enough to look at each block alone, from all states in which it may be entered; and in a
block, code after code keeps what both of them keep. -/

namespace BlockLowering

open Flat (Instr Block Config Move step enter)

variable {V H : Type} {m : Runtime V H} {P : State V H → Instr → Prop}

/-- `P` holds of each instruction and the state before it, when the code runs from `s`. -/
def Throughout (m : Runtime V H) (P : State V H → Instr → Prop) : List Instr → State V H → Prop
  | [], _ => True
  | i :: rest, s => P s i ∧ ∀ t, i.perform m s = .next t → Throughout m P rest t

theorem throughout_append {code more : List Instr} {s : State V H} :
    Throughout m P (code ++ more) s ↔ Throughout m P code s ∧
      ∀ t, runCode m code s = some t → Throughout m P more t := by
  induction code generalizing s with
  | nil => simp [Throughout, runCode]
  | cons i rest ih =>
    simp only [List.cons_append, Throughout, runCode]
    cases hi : i.perform m s with
    | next u => simp [ih, and_assoc]
    | goto label u => simp
    | stop e => simp

/-- `P` holds throughout the code, wherever it is started. -/
def Always (m : Runtime V H) (P : State V H → Instr → Prop) (code : List Instr) : Prop :=
  ∀ s, Throughout m P code s

namespace Always

theorem nil : Always m P [] := fun _ => trivial

theorem append {code more : List Instr} (h : Always m P code) (h' : Always m P more) :
    Always m P (code ++ more) :=
  fun s => throughout_append.mpr ⟨h s, fun t _ => h' t⟩

theorem concat {code : List Instr} {i : Instr} (h : Always m P code)
    (hi : ∀ s t, runCode m code s = some t → P t i) : Always m P (code ++ [i]) :=
  fun s => throughout_append.mpr ⟨h s, fun t ht => ⟨hi s t ht, fun _ _ => trivial⟩⟩

theorem of_forall {code : List Instr} (h : ∀ i ∈ code, ∀ s, P s i) : Always m P code := by
  induction code with
  | nil => exact nil
  | cons i rest ih =>
    rw [List.forall_mem_cons] at h
    exact fun s => ⟨h.1 s, fun t _ => ih h.2 t⟩

end Always

/-- `P` holds throughout every block of the fragment. -/
def Fragment.Always (m : Runtime V H) (P : State V H → Instr → Prop) (f : Fragment) : Prop :=
  BlockLowering.Always m P f.head ∧ ∀ b ∈ f.blocks, BlockLowering.Always m P b.code

namespace Fragment.Always

theorem toBlocks {f : Fragment} (h : f.Always m P) (label : String) :
    ∀ b ∈ f.toBlocks label, BlockLowering.Always m P b.code :=
  Blockwise.toBlocks h label

theorem ofCode {code : List Instr} (h : BlockLowering.Always m P code) :
    (Fragment.ofCode code).Always m P :=
  Blockwise.ofCode h

theorem closing {code : List Instr} (h : BlockLowering.Always m P code) (label : String) :
    (Fragment.closing code label).Always m P :=
  Blockwise.closing h BlockLowering.Always.nil label

theorem append {f g : Fragment} (hf : f.Always m P) (hg : g.Always m P) :
    (f ++ g).Always m P :=
  Blockwise.append hf (fun _ _ h h' => h.append h') hg

end Fragment.Always

/-- `P` will hold in what is left of the block that control is in. -/
def Flat.Config.Keeps (m : Runtime V H) (P : State V H → Instr → Prop) (blocks : List Block) :
    Config V H → Prop
  | .running block index s =>
    ∀ b, blocks[block]? = some b → Throughout m P (b.code.drop index) s
  | _ => True

variable {blocks : List Block}

theorem keeps_enter (h : ∀ b ∈ blocks, Always m P b.code) (label : String) (s : State V H) :
    (enter blocks label s).Keeps m P blocks := by
  unfold enter
  split
  · intro b hb
    rw [List.drop_zero]
    exact h b (List.mem_of_getElem? hb) s
  · trivial

theorem Flat.Config.Keeps.step (h : ∀ b ∈ blocks, Always m P b.code) {c : Config V H}
    (hc : c.Keeps m P blocks) : (step m blocks c).Keeps m P blocks := by
  cases c with
  | ended e => trivial
  | lost => trivial
  | running block index s =>
    simp only [Flat.step]
    cases hb : blocks[block]? with
    | none => trivial
    | some b =>
      cases hi : b.code[index]? with
      | none =>
        simp only [hi]
        split <;> trivial
      | some i =>
        have hrest := hc b hb
        rw [List.drop_eq_getElem?_toList_append, hi, Option.toList_some, List.singleton_append]
          at hrest
        cases hp : i.perform m s with
        | next t =>
          simp only [hi, hp]
          intro b' hb'
          rw [hb] at hb'
          cases hb'
          exact hrest.2 t hp
        | goto label t =>
          simp only [hi, hp]
          exact keeps_enter h label t
        | stop e =>
          simp only [hi, hp]
          trivial

theorem Flat.Config.Keeps.run (h : ∀ b ∈ blocks, Always m P b.code) {c : Config V H}
    (hc : c.Keeps m P blocks) (n : Nat) : ((Flat.step m blocks)^[n] c).Keeps m P blocks := by
  induction n with
  | zero => exact hc
  | succ n ih =>
    rw [Function.iterate_succ_apply']
    exact ih.step h

/-- What holds throughout every block holds of every instruction of a run when it is executed. -/
theorem executed_of_always (h : ∀ b ∈ blocks, Always m P b.code) {s s' : State V H}
    {n block index : Nat} {b : Block} {i : Instr}
    (hn : (step m blocks)^[n] (.running 0 0 s) = .running block index s')
    (hb : blocks[block]? = some b) (hi : b.code[index]? = some i) : P s' i := by
  have hstart : (Config.running 0 0 s).Keeps m P blocks := fun b hb =>
    h b (List.mem_of_getElem? hb) s
  have hrun := hstart.run h n
  rw [hn] at hrun
  have hrest := hrun b hb
  rw [List.drop_eq_getElem?_toList_append, hi, Option.toList_some, List.singleton_append] at hrest
  exact hrest.1

end BlockLowering
