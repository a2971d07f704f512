import BlockLowering.Proofs.Runtime
import BlockLowering.Proofs.ValidCode

/-! Control in a body that keeps the rules. Whatever the runtime makes of operators, calls and
conditions, control stays inside the blocks, leaves a block through the jump at its end only, and
finds the one block that the jump names; so a run ends by a return, by a trap, or at the end of the
last block. -/

namespace BlockLowering

namespace Flat

variable {V H : Type} {m : Runtime V H} {blocks : List Block}

/-- The block at `k`, and no other one, has the label. -/
def Resolves (blocks : List Block) (label : String) (k : Nat) : Prop :=
  ∀ j, (∃ b, blocks[j]? = some b ∧ b.label = label) ↔ j = k

/-- Control is before an instruction of a block, or at the end of the last block. -/
def Config.Inside (blocks : List Block) : Config V H → Prop
  | .running block index _ => ∃ b, blocks[block]? = some b ∧
      (index < b.code.length ∨ index = b.code.length ∧ block + 1 = blocks.length)
  | .ended _ => True
  | .lost => False

/-- The ways for a run to go on: to the next instruction, from the jump at the end of a block to
the start of the block it names, or to an end. -/
inductive Proceeds (m : Runtime V H) (blocks : List Block) : Config V H → Config V H → Prop
  | onward {block index s t b i} : blocks[block]? = some b → b.code[index]? = some i →
      i.targets = [] → i.perform m s = .next t →
      Proceeds m blocks (.running block index s) (.running block (index + 1) t)
  | jump {block index s b i target next} : blocks[block]? = some b → b.code[index]? = some i →
      index + 1 = b.code.length → target ∈ i.targets → i.perform m s = .goto target s →
      Resolves blocks target next →
      Proceeds m blocks (.running block index s) (.running next 0 s)
  | ret {block index s b v} : blocks[block]? = some b → b.code[index]? = some (.ret v) →
      Proceeds m blocks (.running block index s) (.ended (.returned (v.value m s.env) s))
  | trap {block index s b i} : blocks[block]? = some b → b.code[index]? = some i →
      i.perform m s = .stop .trapped →
      Proceeds m blocks (.running block index s) (.ended .trapped)
  | finish {block index s b} : blocks[block]? = some b → index = b.code.length →
      block + 1 = blocks.length →
      Proceeds m blocks (.running block index s) (.ended (.finished s))

theorem Instr.perform_cases (m : Runtime V H) (s : State V H) (i : Instr) :
    (∃ t, i.perform m s = .next t ∧ i.isTransfer = false ∧ i.targets = []) ∨
    (∃ target ∈ i.targets, i.perform m s = .goto target s) ∨
    (∃ v, i = .ret v ∧ i.perform m s = .stop (.returned (v.value m s.env) s)) ∨
    i.perform m s = .stop .trapped := by
  cases i with
  | assign name value =>
    cases hv : value.value m s with
    | none => simp [perform, hv]
    | some r => exact Or.inl ⟨s.assign name r.1 r.2, by simp [perform, hv], rfl, rfl⟩
  | ret value => exact Or.inr (Or.inr (Or.inl ⟨value, rfl, rfl⟩))
  | eval value =>
    cases hv : value.value m s with
    | none => simp [perform, hv]
    | some r => exact Or.inl ⟨{ s with heap := r.2 }, by simp [perform, hv], rfl, rfl⟩
  | store base offset value =>
    cases hv : m.store (base.value m s.env) (offset.value m s.env) (value.value m s.env) s.heap with
    | none => simp [perform, hv]
    | some heap => exact Or.inl ⟨{ s with heap := heap }, by simp [perform, hv], rfl, rfl⟩
  | jump label => exact Or.inr (Or.inl ⟨label, List.mem_singleton_self label, rfl⟩)
  | branch cond t e =>
    cases hv : m.truth (cond.value m s.env) with
    | none => simp [perform, hv]
    | some taken => cases taken <;> simp [perform, hv, targets]

/-- A label of the body leads to one place. -/
theorem enter_resolves (hn : (blocks.map (·.label)).Nodup) {label : String}
    (hl : label ∈ blocks.map (·.label)) (s : State V H) :
    ∃ k, Resolves blocks label k ∧ enter blocks label s = .running k 0 s := by
  obtain ⟨b, hb, rfl⟩ := List.mem_map.mp hl
  obtain ⟨front, back, rfl⟩ := List.append_of_mem hb
  have hother : ∀ c ∈ front ++ back, c.label ≠ b.label := by
    intro c hc he
    rw [List.map_append, List.map_cons] at hn
    have hmem : b.label ∈ front.map (·.label) ++ back.map (·.label) := by
      rw [← List.map_append]
      exact List.mem_map.mpr ⟨c, hc, he⟩
    exact (List.nodup_cons.mp (List.nodup_middle.mp hn)).1 hmem
  refine ⟨front.length, fun j => ⟨?_, ?_⟩, ?_⟩
  · rintro ⟨c, hc, he⟩
    by_contra hj
    rcases Nat.lt_or_gt_of_ne hj with hlt | hgt
    · rw [List.getElem?_append_left hlt] at hc
      exact hother c (List.mem_append_left _ (List.mem_of_getElem? hc)) he
    · rw [List.getElem?_append_right (by omega), List.getElem?_cons] at hc
      rw [if_neg (by omega)] at hc
      exact hother c (List.mem_append_right _ (List.mem_of_getElem? hc)) he
  · rintro rfl
    exact ⟨b, by simp, rfl⟩
  · have hnone : front.findIdx? (·.label = b.label) = none := by
      simpa using fun c hc => hother c (List.mem_append_left _ hc)
    simp [enter, List.findIdx?_append, hnone, List.findIdx?_cons]

/-- The end of a block is reached in the last block only: in the others it is behind a transfer. -/
theorem ValidBody.inside_of_not_transfer (hv : ValidBody blocks) {block index : Nat} {b : Block}
    {s : State V H} (hb : blocks[block]? = some b) (hi : index ≤ b.code.length)
    (hlast : ∀ i, 0 < index → b.code[index - 1]? = some i → i.isTransfer = false) :
    (Config.running block index s).Inside blocks := by
  refine ⟨b, hb, ?_⟩
  by_cases hlt : index < b.code.length
  · exact Or.inl hlt
  · have he : index = b.code.length := by omega
    refine Or.inr ⟨he, ?_⟩
    by_contra hne
    have hblock : block < blocks.length := (List.getElem?_eq_some_iff.mp hb).1
    have hmem : b ∈ blocks.dropLast := by
      apply List.mem_of_getElem? (i := block)
      rw [List.getElem?_dropLast, if_pos (by omega)]
      exact hb
    have hterm := hv.terminated b hmem
    rw [Block.isTerminated, Block.terminator?, Option.isSome_filter] at hterm
    rw [List.getLast?_eq_getElem?] at hterm
    cases hget : b.code[b.code.length - 1]? with
    | none => simp [hget] at hterm
    | some i =>
      have hlt : b.code.length - 1 < b.code.length := (List.getElem?_eq_some_iff.mp hget).1
      have hfalse := hlast i (by omega) (by rw [he]; exact hget)
      simp [hget, hfalse] at hterm

theorem ValidBody.inside_start (hv : ValidBody blocks) {block : Nat} {b : Block} {s : State V H}
    (hb : blocks[block]? = some b) : (Config.running block 0 s).Inside blocks :=
  hv.inside_of_not_transfer hb (Nat.zero_le _) (fun _ h => absurd h (Nat.lt_irrefl 0))

/-- One step from inside a block: it is one of the lawful ones, and leads inside a block again. -/
theorem ValidBody.step_proceeds (hv : ValidBody blocks) (hn : (blocks.map (·.label)).Nodup)
    {block index : Nat} {s : State V H} (hc : (Config.running block index s).Inside blocks) :
    Proceeds m blocks (.running block index s) (step m blocks (.running block index s)) ∧
      (step m blocks (.running block index s)).Inside blocks := by
  obtain ⟨b, hb, hpos⟩ := hc
  rcases hpos with hlt | ⟨he, hlast⟩
  · have hi : b.code[index]? = some b.code[index] := List.getElem?_eq_getElem hlt
    have hmem : b ∈ blocks := List.mem_of_getElem? hb
    rcases Instr.perform_cases m s b.code[index] with
      ⟨t, hp, htrans, htargets⟩ | ⟨target, htarget, hp⟩ | ⟨v, hret, hp⟩ | hp
    · have hstep : step m blocks (.running block index s) = .running block (index + 1) t := by
        simp only [step, hb, hi, hp]
      rw [hstep]
      refine ⟨.onward hb hi htargets hp, hv.inside_of_not_transfer hb hlt fun i _ hget => ?_⟩
      rw [Nat.add_sub_cancel, hi] at hget
      cases hget
      exact htrans
    · have hend : index + 1 = b.code.length := by
        by_contra hne
        have hdrop : b.code[index] ∈ b.code.dropLast := by
          apply List.mem_of_getElem? (i := index)
          rw [List.getElem?_dropLast, if_pos (by omega)]
          exact hi
        rw [hv.jumpsLast b hmem _ hdrop] at htarget
        cases htarget
      have hlabel := hv.targets b hmem _ (List.mem_of_getElem? hi) target htarget
      obtain ⟨next, hres, henter⟩ := enter_resolves hn hlabel s
      have hstep : step m blocks (.running block index s) = .running next 0 s := by
        simp only [step, hb, hi, hp, henter]
      rw [hstep]
      obtain ⟨c, hc, _⟩ := (hres next).mpr rfl
      exact ⟨.jump hb hi hend htarget hp hres, hv.inside_start hc⟩
    · have hstep : step m blocks (.running block index s) =
          .ended (.returned (v.value m s.env) s) := by
        simp only [step, hb, hi, hp]
      rw [hstep]
      rw [hret] at hi
      exact ⟨.ret hb hi, trivial⟩
    · have hstep : step m blocks (.running block index s) = .ended .trapped := by
        simp only [step, hb, hi, hp]
      rw [hstep]
      exact ⟨.trap hb hi hp, trivial⟩
  · have hi : b.code[index]? = none := List.getElem?_eq_none (by omega)
    have hstep : step m blocks (.running block index s) = .ended (.finished s) := by
      simp only [step, hb, hi, hlast, if_true]
    rw [hstep]
    exact ⟨.finish hb he hlast, trivial⟩

/-- Control never gets out of a body that keeps the rules, however long it runs. -/
theorem ValidBody.run_inside (hv : ValidBody blocks) (hn : (blocks.map (·.label)).Nodup)
    (m : Runtime V H) (s : State V H) (n : Nat) :
    ((step m blocks)^[n] (.running 0 0 s)).Inside blocks := by
  induction n with
  | zero =>
    have h0 : 0 < blocks.length := List.length_pos_iff.mpr hv.nonempty
    exact hv.inside_start (List.getElem?_eq_getElem h0)
  | succ n ih =>
    rw [Function.iterate_succ_apply']
    cases hc : (step m blocks)^[n] (.running 0 0 s) with
    | running block index t =>
      rw [hc] at ih
      exact (hv.step_proceeds hn ih).2
    | ended e => trivial
    | lost =>
      rw [hc] at ih
      exact ih.elim

theorem complaints_eq_nil_iff : complaints blocks = [] ↔
    ValidBody blocks ∧ (blocks.map (·.label)).Nodup := by
  rw [complaints, List.map_eq_nil_iff, bodyViolations_eq_nil_iff]

/-- A body without complaints runs safely from its first block, in every runtime and for any number
of steps. Control is always inside a block, and every further step is lawful: on to the next
instruction, through the jump that ends the block to the only block of that label, or to an end by
a return, a trap, or at the end of the last block. -/
theorem validated_body_runs_safely (h : complaints blocks = []) (m : Runtime V H) (s : State V H)
    (n : Nat) :
    ((step m blocks)^[n] (.running 0 0 s)).Inside blocks ∧
    ∀ block index t, (step m blocks)^[n] (.running 0 0 s) = .running block index t →
      Proceeds m blocks (.running block index t) ((step m blocks)^[n + 1] (.running 0 0 s)) := by
  obtain ⟨hv, hn⟩ := complaints_eq_nil_iff.mp h
  have hin := hv.run_inside hn m s n
  refine ⟨hin, fun block index t hc => ?_⟩
  rw [hc] at hin
  rw [Function.iterate_succ_apply', hc]
  exact (hv.step_proceeds hn hin).1

end Flat

/-- A runtime whose memory is a row of coins. Calls take the next one, and trap when there is none;
all else traps. -/
def Runtime.coins : Runtime Bool (List Bool) where
  num _ := false
  bool b := b
  none := false
  word _ := false
  unary _ _ _ := Option.none
  binary _ _ _ _ := Option.none
  builtin1 _ _ _ := Option.none
  builtin2 _ _ _ _ := Option.none
  call
    | _, _, [] => Option.none
    | _, _, coin :: rest => some (coin, rest)
  load _ _ _ := Option.none
  store _ _ _ _ := Option.none
  alloc _ _ := Option.none
  truth := some

namespace Flat

/-- Tosses until a coin shows heads. Behind the return stand a call and a jump that never run. -/
def tossing : List Block :=
  [⟨"start", [.assign "coin" (.call "toss" []), .branch (.var "coin") "heads" "tails"]⟩,
    ⟨"heads", [.ret (.var "coin"), .eval (.call "toss" []), .jump "done"]⟩,
    ⟨"tails", [.jump "start"]⟩,
    ⟨"done", []⟩]

theorem tossing_runs_safely : complaints tossing = [] ∧
    (∃ t, (step .coins tossing)^[6] (.running 0 0 ⟨fun _ => false, [false, true]⟩) =
      .ended (.returned true t)) ∧
    ∀ coins n, ((step .coins tossing)^[n] (.running 0 0 ⟨fun _ => false, coins⟩)).Inside tossing ∧
    ∀ block index t,
      (step .coins tossing)^[n] (.running 0 0 ⟨fun _ => false, coins⟩) = .running block index t →
      Proceeds .coins tossing (.running block index t)
        ((step .coins tossing)^[n + 1] (.running 0 0 ⟨fun _ => false, coins⟩)) := by
  have h : complaints tossing = [] := by decide
  exact ⟨h, ⟨_, rfl⟩, fun coins n => validated_body_runs_safely h .coins ⟨fun _ => false, coins⟩ n⟩

end Flat

end BlockLowering
