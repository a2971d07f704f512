import BlockLowering.Proofs.StatementMeaning
import BlockLowering.Proofs.TemporaryReads

/-! What temporaries hold before they are assigned makes no difference. Two runs of blocks that
assign each temporary before they read it, from states that agree but for temporaries, are at the
same place after any number of steps, and still agree but for them. Inside a block they agree on
more: on the temporaries that the block has assigned so far. -/

namespace BlockLowering

open Flat (Operand Rhs Instr Block Move Config enter step)

variable {V H : Type} {m : Runtime V H} {t u : List String} {s s' : State V H}

/-- Two runs at the same place, in states that agree but for the names of `t`. -/
inductive Flat.Config.Agrees (t : List String) : Config V H → Config V H → Prop
  | running {s s' : State V H} (block index : Nat) : s.Agrees t s' →
      Agrees t (.running block index s) (.running block index s')
  | ended {e e' : Ending V H} : e.Agrees t e' → Agrees t (.ended e) (.ended e')
  | lost : Agrees t .lost .lost

theorem State.Agrees.mono (h : s.Agrees u s') (hs : u ⊆ t) : s.Agrees t s' :=
  ⟨h.heap, h.env.mono hs⟩

theorem Ending.Agrees.mono {e e' : Ending V H} (h : e.Agrees u e') (hs : u ⊆ t) :
    e.Agrees t e' := by
  match e, e', h with
  | .finished _, .finished _, h => exact State.Agrees.mono h hs
  | .returned _ _, .returned _ _, h => exact ⟨h.1, State.Agrees.mono h.2 hs⟩
  | .trapped, .trapped, _ => trivial

theorem Flat.Rhs.value_agrees {r : Rhs} (hr : ∀ v ∈ r.operands, v.Avoids u) (h : s.Agrees u s') :
    r.value m s' = r.value m s := by
  have hv : ∀ v ∈ r.operands, v.value m s'.env = v.value m s.env := fun v hm =>
    (hr v hm).value_eq h.env
  cases r with
  | call name args =>
    have ha : args.map (·.value m s'.env) = args.map (·.value m s.env) := List.map_congr_left hv
    simp only [Rhs.value, ha, h.heap]
  | _ =>
    simp only [Rhs.operands, List.mem_cons, List.not_mem_nil, or_false, forall_eq_or_imp,
      forall_eq] at hv
    simp only [Rhs.value, hv, h.heap]

/-- Instructions move alike. The states may differ in the names of `u` where control goes on, and
in those of `t` where it leaves. -/
inductive Flat.Move.Agrees (u t : List String) : Move V H → Move V H → Prop
  | next {s s' : State V H} : s.Agrees u s' → Agrees u t (.next s) (.next s')
  | goto {s s' : State V H} (label : String) : s.Agrees t s' →
      Agrees u t (.goto label s) (.goto label s')
  | stop {e e' : Ending V H} : e.Agrees t e' → Agrees u t (.stop e) (.stop e')

/-- After an instruction whose operands are the same in two states, so is what it assigned. -/
theorem Flat.Instr.perform_agrees {i : Instr} (hi : ∀ v ∈ i.operands, v.Avoids u)
    (h : s.Agrees u s') :
    Move.Agrees (u.filter (· ∉ i.assigned?)) u (i.perform m s) (i.perform m s') := by
  have hv : ∀ v ∈ i.operands, v.value m s'.env = v.value m s.env := fun v hm =>
    (hi v hm).value_eq h.env
  have hkept : u ⊆ u.filter (· ∉ (none : Option String)) := by simp
  have htrap : ∀ w, Move.Agrees w u (.stop .trapped : Move V H) (.stop .trapped) := fun _ =>
    .stop trivial
  cases i with
  | assign name r =>
    simp only [Instr.perform, Rhs.value_agrees hi h]
    cases r.value m s with
    | none => exact htrap _
    | some p =>
      refine .next ⟨rfl, fun x hx => ?_⟩
      by_cases he : x = name
      · subst he
        simp
      · rw [s.assign_env_of_ne he, s'.assign_env_of_ne he]
        refine h.env x fun hm => hx (List.mem_filter.mpr ⟨hm, decide_eq_true fun hn => he ?_⟩)
        exact (Option.some.inj hn).symm
  | eval r =>
    simp only [Instr.perform, Rhs.value_agrees hi h]
    cases r.value m s with
    | none => exact htrap _
    | some p => exact .next ⟨rfl, h.env.mono hkept⟩
  | store base offset value =>
    simp only [Instr.operands, List.mem_cons, List.not_mem_nil, or_false, forall_eq_or_imp,
      forall_eq] at hv
    simp only [Instr.perform, hv, h.heap]
    cases m.store (base.value m s.env) (offset.value m s.env) (value.value m s.env) s.heap with
    | none => exact htrap _
    | some heap => exact .next ⟨rfl, h.env.mono hkept⟩
  | ret v => exact .stop ⟨hv v List.mem_cons_self, h⟩
  | jump label => exact .goto label h
  | branch cond a b =>
    simp only [Instr.perform, hv cond List.mem_cons_self]
    cases m.truth (cond.value m s.env) with
    | none => exact htrap _
    | some c =>
      cases c with
      | true => exact .goto a h
      | false => exact .goto b h

/-- Two runs at the same place. They differ in temporaries of `t` only, and in none that the rest
of the block reads before it assigns it. -/
inductive Flat.Config.Lockstep (blocks : List Block) (t : List String) :
    Config V H → Config V H → Prop
  | running {s s' : State V H} {block index : Nat} {u known : List String} :
      u ⊆ t → u.Disjoint known → s.Agrees u s' →
      (∀ b, blocks[block]? = some b → Settled known (b.code.drop index)) →
      Lockstep blocks t (.running block index s) (.running block index s')
  | ended {e e' : Ending V H} : e.Agrees t e' → Lockstep blocks t (.ended e) (.ended e')
  | lost : Lockstep blocks t .lost .lost

variable {blocks : List Block} {c c' : Config V H}

theorem Flat.Config.Lockstep.agrees (h : Config.Lockstep blocks t c c') : c.Agrees t c' := by
  cases h with
  | running hu _ hs _ => exact .running _ _ (hs.mono hu)
  | ended h => exact .ended h
  | lost => exact .lost

theorem Flat.Config.Lockstep.start (hb : ∀ b ∈ blocks, Settled [] b.code) (h : s.Agrees t s')
    (block : Nat) : Config.Lockstep blocks t (.running block 0 s) (.running block 0 s') :=
  .running (List.Subset.refl t) (List.disjoint_nil_right t) h
    fun b he => hb b (List.mem_of_getElem? he)

theorem enter_lockstep (hb : ∀ b ∈ blocks, Settled [] b.code) (h : s.Agrees t s')
    (label : String) :
    Config.Lockstep blocks t (enter blocks label s) (enter blocks label s') := by
  unfold enter
  cases blocks.findIdx? (·.label = label) with
  | none => exact .lost
  | some block => exact .start hb h block

theorem step_lockstep (hb : ∀ b ∈ blocks, Settled [] b.code) (ht : ∀ x ∈ t, IsTemporary x)
    (h : Config.Lockstep blocks t c c') :
    Config.Lockstep blocks t (step m blocks c) (step m blocks c') := by
  cases h with
  | ended h => exact .ended h
  | lost => exact .lost
  | @running s s' block index u known hu hd hs hk =>
    cases hblock : blocks[block]? with
    | none =>
      simp only [step, hblock]
      exact .lost
    | some b =>
      have hset := hk b hblock
      cases hcode : b.code[index]? with
      | none =>
        simp only [step, hblock, hcode]
        split
        · exact .ended (hs.mono hu)
        · exact .lost
      | some i =>
        obtain ⟨hlt, hget⟩ := List.getElem?_eq_some_iff.mp hcode
        rw [List.drop_eq_getElem_cons hlt, hget] at hset
        have havoid : ∀ v ∈ i.operands, v.Avoids u := by
          rintro v hv name hn rfl
          exact hd hn (hset.1 name hv (ht name (hu hn)))
        have hm := Instr.perform_agrees (m := m) havoid hs
        simp only [step, hblock, hcode]
        generalize i.perform m s = move, i.perform m s' = move' at hm
        cases hm with
        | next hs' =>
          have hdisj : (u.filter (· ∉ i.assigned?)).Disjoint (i.assigned?.toList ++ known) := by
            intro x hx hx'
            obtain ⟨hxu, hxi⟩ := List.mem_filter.mp hx
            rcases List.mem_append.mp hx' with hi | hi
            · exact of_decide_eq_true hxi (Option.mem_toList.mp hi)
            · exact hd hxu hi
          refine .running (List.Subset.trans (List.filter_subset_self u) hu) hdisj hs' ?_
          intro b' hb'
          obtain rfl : b = b' := Option.some.inj (hblock.symm.trans hb')
          exact hset.2
        | goto label hs' => exact enter_lockstep hb (hs'.mono hu) label
        | stop he => exact .ended (he.mono hu)

/-- Runs do not depend on what the temporaries hold at the start. -/
theorem runs_agree (hb : ∀ b ∈ blocks, Settled [] b.code) (ht : ∀ x ∈ t, IsTemporary x)
    (h : s.Agrees t s') (n : Nat) :
    ((step m blocks)^[n] (.running 0 0 s)).Agrees t ((step m blocks)^[n] (.running 0 0 s')) := by
  suffices hn : Config.Lockstep blocks t ((step m blocks)^[n] (.running 0 0 s))
      ((step m blocks)^[n] (.running 0 0 s')) from hn.agrees
  induction n with
  | zero => exact .start hb h 0
  | succ n ih =>
    rw [Function.iterate_succ_apply', Function.iterate_succ_apply']
    exact step_lockstep hb ht ih

end BlockLowering
