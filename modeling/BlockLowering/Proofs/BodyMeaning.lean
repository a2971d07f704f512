import BlockLowering.Proofs.StatementMeaning

/-! Lowered bodies mean what their sources mean. The machine follows a source run statement by
statement, with the same memory and the same variables but for the temporaries of the body. A run
that needs more rounds than its loops may take keeps the machine busy for at least as many steps,
so a body goes on for ever in the one semantics when it does in the other. -/

namespace BlockLowering

open Source (Expr Stmt)
open Flat (Operand Instr Decl Block Move Config follow enter step Reaches Survives)
open Fragment (ofCode closing Within)

variable {V H : Type} {m : Runtime V H} {ctx : Context}

/-- From `c` the machine does what a source run does: it comes to `exit`, it ends, or, where
the source run takes too many rounds, it is still running after `n` steps. -/
def Simulated (m : Runtime V H) (blocks : List Block) (t : List String) (n : Nat)
    (c : Config V H) (exit : State V H → Config V H) : Option (Ending V H) → Prop
  | some (.finished σ) => ∃ s, σ.Agrees t s ∧ Reaches m blocks c (exit s)
  | some (.returned v σ) => ∃ s, σ.Agrees t s ∧ Reaches m blocks c (.ended (.returned v s))
  | some .trapped => Reaches m blocks c (.ended .trapped)
  | none => Survives m blocks n c

namespace Simulated

variable {blocks : List Block} {t : List String} {n : Nat} {c : Config V H}
  {exit exit' : State V H → Config V H} {r : Option (Ending V H)}

theorem of_reaches {c' : Config V H} (hc : Reaches m blocks c c')
    (h : Simulated m blocks t n c' exit r) : Simulated m blocks t n c exit r := by
  match r, h with
  | some (.finished σ), ⟨s, hs, hr⟩ => exact ⟨s, hs, hc.trans hr⟩
  | some (.returned v σ), ⟨s, hs, hr⟩ => exact ⟨s, hs, hc.trans hr⟩
  | some .trapped, hr => exact hc.trans hr
  | none, hr => exact Survives.of_reaches hc hr

theorem of_step (h : Simulated m blocks t n (step m blocks c) exit r) :
    Simulated m blocks t (n + 1) c exit r := by
  match r, h with
  | some (.finished σ), ⟨s, hs, hr⟩ => exact ⟨s, hs, (Reaches.single c).trans hr⟩
  | some (.returned v σ), ⟨s, hs, hr⟩ => exact ⟨s, hs, (Reaches.single c).trans hr⟩
  | some .trapped, hr => exact (Reaches.single c).trans hr
  | none, hr => exact Survives.of_step hr

theorem mono {n' : Nat} (h : Simulated m blocks t n c exit r) (hn : n' ≤ n) :
    Simulated m blocks t n' c exit r := by
  match r, h with
  | some (.finished σ), h => exact h
  | some (.returned v σ), h => exact h
  | some .trapped, h => exact h
  | none, h => exact Survives.mono h hn

/-- What comes after a part that finishes is run from the exit of that part. -/
theorem andThen (h : Simulated m blocks t n c exit r) {k : State V H → Option (Ending V H)}
    (hk : ∀ σ s, σ.Agrees t s → Simulated m blocks t n (exit s) exit' (k σ)) :
    Simulated m blocks t n c exit'
      (match r with
        | some (.finished σ) => k σ
        | result => result) := by
  match r, h with
  | some (.finished σ), ⟨s, hs, hr⟩ => exact (hk σ s hs).of_reaches hr
  | some (.returned v σ), h => exact h
  | some .trapped, h => exact h
  | none, h => exact h

theorem exit_reaches (h : Simulated m blocks t n c exit r)
    (he : ∀ s, Reaches m blocks (exit s) (exit' s)) : Simulated m blocks t n c exit' r := by
  match r, h with
  | some (.finished σ), ⟨s, hs, hr⟩ => exact ⟨s, hs, hr.trans (he s)⟩
  | some (.returned v σ), h => exact h
  | some .trapped, h => exact h
  | none, h => exact h

theorem of_met {e : Ending V H} {move : Move V H} (hm : e.Met t move)
    (hr : Reaches m blocks c (move.arrive blocks exit)) :
    Simulated m blocks t n c exit (some e) := by
  match e, move, hm with
  | .finished σ, .next s, hs => exact ⟨s, hs, hr⟩
  | .returned v σ, .stop (.returned w s), ⟨hv, hs⟩ =>
    subst hv
    exact ⟨s, hs, hr⟩
  | .trapped, .stop .trapped, _ => exact hr

theorem ends {e : Ending V H} (h : Simulated m blocks t n c exit (some e))
    (he : ∀ s, Reaches m blocks (exit s) (.ended (.finished s))) :
    ∃ e', Reaches m blocks c (.ended e') ∧ e.Agrees t e' := by
  match e, h with
  | .finished σ, ⟨s, hs, hr⟩ => exact ⟨.finished s, hr.trans (he s), hs⟩
  | .returned v σ, ⟨s, hs, hr⟩ => exact ⟨.returned v s, hr, rfl, hs⟩
  | .trapped, hr => exact ⟨.trapped, hr, trivial⟩

end Simulated

variable {label : String} {whole front : Fragment} {t : List String} {σ s : State V H}

theorem FlattensStmt.simulated (hl : ctx.layout.Literal) {a b : Names} {stmt : Stmt} {p : Prelude}
    {u : List String} (h : FlattensStmt ctx a stmt p b u) (hu : u ⊆ t)
    (ht : ∀ name ∈ t, IsTemporary name) (hv : ∀ x ∈ Expr.allVars stmt.exprs, ¬ IsTemporary x)
    (hw : Within whole (ofCode p.code) front) (n : Nat) (hs : σ.Agrees t s) :
    Simulated m (whole.toBlocks label) t n (place label front s)
      (place label (front ++ ofCode p.code)) (some ((stmt.perform m ctx σ).getD .trapped)) :=
  .of_met (h.meaning hl hu ht hv hs) (reaches_follow hw s)

theorem test_reaches (label : String) (hl : ctx.layout.Literal) {a b : Names} {cond : Expr}
    {x : WithPrelude Operand} {u : List String} (hx : FlattensOperand ctx a cond x b u)
    (hu : u ⊆ t) (ht : ∀ name ∈ t, IsTemporary name) (hv : ∀ x ∈ cond.vars, ¬ IsTemporary x)
    {thenLabel elseLabel next : String}
    (hw : Within whole (closing (testCode x thenLabel elseLabel) next) front)
    (hs : σ.Agrees t s) :
    match cond.test m ctx σ with
    | some (b, heap) => ∃ s', State.Agrees t ⟨σ.env, heap⟩ s' ∧
      Reaches m (whole.toBlocks label) (place label front s)
        (enter (whole.toBlocks label) (if b then thenLabel else elseLabel) s')
    | none => Reaches m (whole.toBlocks label) (place label front s) (.ended .trapped) := by
  have hcode : Within whole (ofCode (testCode x thenLabel elseLabel)) front := by
    rw [← Fragment.ofCode_append_openBlock] at hw
    exact hw.split.1
  have hr : Reaches m (whole.toBlocks label) (place label front s) _ := reaches_follow hcode s
  have hm := hx.meaning (m := m) hl (hs.holds ht hv)
  rw [testCode, follow_last hx.declares.plain] at hr
  rw [Expr.test, ← hs.heap, ← hm]
  cases hrun : runCode m x.prelude.code s with
  | none =>
    rw [hrun] at hr
    exact hr
  | some s' =>
    have henv := hs.env.trans ((hx.declares.sameOff hrun).mono hu)
    simp only [hrun, Option.map_some, Option.getD_some, Instr.perform] at hr
    simp only [Option.map_some, Option.bind_eq_bind, Option.bind_some]
    cases hb : m.truth (x.value.value m s'.env) with
    | none =>
      simp only [hb] at hr
      exact hr
    | some b =>
      simp only [hb] at hr
      refine ⟨s', ⟨rfl, henv⟩, ?_⟩
      cases b <;> exact hr

theorem jump_reaches {target next : String} (hw : Within whole (closing [.jump target] next) front)
    (s : State V H) :
    step m (whole.toBlocks label) (place label front s) =
      enter (whole.toBlocks label) target s :=
  step_place hw rfl s

section

variable (hl : ctx.layout.Literal) (ht : ∀ name ∈ t, IsTemporary name)
  (hn : ((whole.toBlocks label).map (·.label)).Nodup)

include hl ht hn

theorem loop_simulated {a b : Names} {cond : Expr} {x : WithPrelude Operand} {u : List String}
    (hx : FlattensOperand ctx a cond x b u) (hu : u ⊆ t) (hv : ∀ x ∈ cond.vars, ¬ IsTemporary x)
    {first second third : String} {f : Fragment}
    (hopen : ∀ s : State V H, enter (whole.toBlocks label) first s = place label front s)
    (hw : Within whole (closing (testCode x second third) second ++ f ++
      closing [.jump first] third) front)
    {rounds : Nat} {body : State V H → Option (Ending V H)}
    (hbody : ∀ σ s, σ.Agrees t s → Simulated m (whole.toBlocks label) t rounds
      (place label (front ++ closing (testCode x second third) second) s)
      (place label (front ++ closing (testCode x second third) second ++ f)) (body σ))
    {k : Nat} (hk : k ≤ rounds) (hs : σ.Agrees t s) :
    Simulated m (whole.toBlocks label) t k (place label front s)
      (place label (front ++ closing (testCode x second third) second ++ f ++
        closing [.jump first] third))
      (Source.loop (cond.test m ctx) body k σ) := by
  obtain ⟨hw', hback⟩ := hw.split
  obtain ⟨htest, _⟩ := hw'.split
  rw [← Fragment.append_assoc] at hback
  induction k generalizing σ s with
  | zero => exact Survives.zero _ _ _
  | succ k ih =>
    have hr := test_reaches (m := m) label hl hx hu ht hv htest hs
    rw [Source.loop]
    cases hc : cond.test m ctx σ with
    | none =>
      rw [hc] at hr
      exact hr
    | some r =>
      obtain ⟨b, heap⟩ := r
      rw [hc] at hr
      obtain ⟨s', hs', hr⟩ := hr
      cases b with
      | false =>
        rw [if_neg (by simp), enter_closing hn hback] at hr
        exact ⟨s', hs', hr⟩
      | true =>
        rw [if_pos rfl, enter_closing hn htest] at hr
        refine Simulated.of_reaches hr (Simulated.andThen ((hbody _ s' hs').mono hk) ?_)
        intro τ s'' hs''
        apply Simulated.of_step
        rw [jump_reaches hback, hopen]
        exact ih (by omega) hs''

theorem branch_simulated {a b : Names} {cond : Expr} {x : WithPrelude Operand} {u : List String}
    (hx : FlattensOperand ctx a cond x b u) (hu : u ⊆ t) (hv : ∀ x ∈ cond.vars, ¬ IsTemporary x)
    {first second third : String} {f g : Fragment}
    (hw : Within whole (closing (testCode x first second) first ++ f ++
      closing [.jump third] second ++ g ++ closing [.jump third] third) front)
    {n : Nat} {thenRun elseRun : State V H → Option (Ending V H)}
    (hthen : ∀ σ s, σ.Agrees t s → Simulated m (whole.toBlocks label) t n
      (place label (front ++ closing (testCode x first second) first) s)
      (place label (front ++ closing (testCode x first second) first ++ f)) (thenRun σ))
    (helse : ∀ σ s, σ.Agrees t s → Simulated m (whole.toBlocks label) t n
      (place label (front ++ closing (testCode x first second) first ++ f ++
        closing [.jump third] second) s)
      (place label (front ++ closing (testCode x first second) first ++ f ++
        closing [.jump third] second ++ g)) (elseRun σ))
    (hs : σ.Agrees t s) :
    Simulated m (whole.toBlocks label) t n (place label front s)
      (place label (front ++ closing (testCode x first second) first ++ f ++
        closing [.jump third] second ++ g ++ closing [.jump third] third))
      (match cond.test m ctx σ with
        | none => some .trapped
        | some (true, heap) => thenRun ⟨σ.env, heap⟩
        | some (false, heap) => elseRun ⟨σ.env, heap⟩) := by
  obtain ⟨hw₄, hend⟩ := hw.split
  obtain ⟨hw₃, _⟩ := hw₄.split
  obtain ⟨hw₂, hmid⟩ := hw₃.split
  obtain ⟨htest, _⟩ := hw₂.split
  simp only [← Fragment.append_assoc] at hend hmid
  have hleave : ∀ {before next} (_ : Within whole (closing [.jump third] next) before)
      (s : State V H), Reaches m (whole.toBlocks label) (place label before s)
        (place label (front ++ closing (testCode x first second) first ++ f ++
          closing [.jump third] second ++ g ++ closing [.jump third] third) s) := by
    intro before next hj s
    have h : Reaches m (whole.toBlocks label) (place label before s) _ := .single _
    rwa [jump_reaches hj, enter_closing hn hend] at h
  have hr := test_reaches (m := m) label hl hx hu ht hv htest hs
  cases hc : cond.test m ctx σ with
  | none =>
    rw [hc] at hr
    exact hr
  | some r =>
    obtain ⟨b, heap⟩ := r
    rw [hc] at hr
    obtain ⟨s', hs', hr⟩ := hr
    cases b with
    | true =>
      rw [if_pos rfl, enter_closing hn htest] at hr
      exact .of_reaches hr ((hthen _ s' hs').exit_reaches (hleave hmid))
    | false =>
      rw [if_neg (by simp), enter_closing hn hmid] at hr
      exact .of_reaches hr ((helse _ s' hs').exit_reaches (hleave hend))

/-- The machine runs a lowered body, wherever it stands, as the body is meant. -/
theorem Builds.simulated {a b : Names} {body : List Stmt} {ds : List Decl} {f : Fragment}
    {u : List String} (h : Builds ctx a body ds f b u) (hu : ds.map (·.name) ⊆ t)
    (hv : ∀ x ∈ Source.bodyReads body, ¬ IsTemporary x) (hw : Within whole f front)
    (rounds : Nat) (hs : σ.Agrees t s) :
    Simulated m (whole.toBlocks label) t rounds (place label front s)
      (place label (front ++ f)) (Source.exec m ctx rounds body σ) := by
  induction h generalizing front σ s with
  | nil =>
    rw [Fragment.append_empty]
    exact ⟨s, hs, .refl _⟩
  | plain hst _ ih =>
    obtain ⟨hfirst, hrest⟩ := hw.split
    rw [Source.bodyReads_plain _ hst.isPlain, List.forall_mem_append] at hv
    rw [List.map_append, hst.decls, List.append_subset] at hu
    rw [Source.exec, Stmt.exec_plain hst.isPlain, ← Fragment.append_assoc]
    exact (hst.simulated hl hu.1 ht hv.1 hfirst rounds hs).andThen
      fun τ s' hs' => ih hu.2 hv.2 hrest hs'
  | ifElse _ hx _ _ _ iht ihe ih =>
    obtain ⟨hstmt, hrest⟩ := hw.split
    have hthen := hstmt.split.1.split.1.split.1.split.2
    have helse := hstmt.split.1.split.2
    rw [Source.bodyReads_ifElse] at hv
    simp only [List.forall_mem_append] at hv
    simp only [List.map_append, hx.declares.decls, List.append_subset] at hu
    simp only [← Fragment.append_assoc] at hrest hthen helse ⊢
    rw [Source.exec, Stmt.exec]
    exact (branch_simulated hl ht hn hx hu.1.1.1 hv.1.1.1 hstmt
      (fun τ s' hs' => iht hu.1.1.2 hv.1.1.2 hthen hs')
      (fun τ s' hs' => ihe hu.1.2 hv.1.2 helse hs') hs).andThen
      fun τ s' hs' => ih hu.2 hv.2 hrest hs'
  | whileLoop _ hx _ _ ihb ih =>
    obtain ⟨hstmt, hrest⟩ := hw.split
    have hbody := hstmt.split.1.split.2
    have hopen := hstmt.split.1.split.1.split.1
    simp only [Fragment.append_assoc] at hstmt
    have hloop := hstmt.split.2
    rw [Source.bodyReads_whileLoop] at hv
    simp only [List.forall_mem_append] at hv
    simp only [List.map_append, hx.declares.decls, List.append_subset] at hu
    simp only [← Fragment.append_assoc] at hrest hbody hloop ⊢
    rw [Source.exec, Stmt.exec]
    have hstart := loop_simulated (m := m) hl ht hn hx hu.1.1 hv.1.1 (enter_closing hn hopen) hloop
      (fun τ s' hs' => ihb hu.1.2 hv.1.2 hbody hs') (Nat.le_refl rounds) hs
    rw [← enter_closing hn hopen, ← jump_reaches hopen] at hstart
    exact (Simulated.of_reaches (.single _) hstart).andThen
      fun τ s' hs' => ih hu.2 hv.2 hrest hs'

end

/-- A body that is lowered and run from its first block does what it means: it ends in the same
way, with the same memory and the same variables but for its temporaries, or it goes on for
ever. -/
theorem body_meaning_preserved {entry : String} (he : PlainBase entry) (hl : ctx.layout.Literal)
    {body : List Stmt} (hv : ∀ x ∈ Source.bodyVars body, ¬ IsTemporary x) {names : Names}
    {decls : List Decl} {blocks : List Block}
    (h : (buildBody ctx entry body names).result = .ok (decls, blocks)) (m : Runtime V H)
    (s : State V H) :
    (∀ e, Source.Ends m ctx body s e →
      ∃ e', Flat.Ends m blocks s e' ∧ e.Agrees (decls.map (·.name)) e') ∧
    (∀ e', Flat.Ends m blocks s e' →
      ∃ e, Source.Ends m ctx body s e ∧ e.Agrees (decls.map (·.name)) e') ∧
    (Source.Diverges m ctx body s ↔ Flat.Diverges m blocks s) := by
  obtain ⟨f, t, hb, rfl, _⟩ := buildBody_builds (Lower.yields_of_result h)
  have hreads : ∀ x ∈ Source.bodyReads body, ¬ IsTemporary x :=
    fun x hx => hv x (List.mem_append_right _ hx)
  have hwithin : Within f f ∅ := ⟨∅, by rw [Fragment.append_empty, Fragment.empty_append]⟩
  have hsim : ∀ rounds, Simulated m (f.toBlocks (names.fresh entry)) (decls.map (·.name)) rounds
      (.running 0 0 s) (place (names.fresh entry) f) (Source.exec m ctx rounds body s) :=
    fun rounds => hb.simulated hl hb.temporaries (hb.labels_nodup he) (List.Subset.refl _) hreads
      hwithin rounds (State.Agrees.refl _ s)
  have hends : ∀ e, Source.Ends m ctx body s e → ∃ e',
      Flat.Ends m (f.toBlocks (names.fresh entry)) s e' ∧ e.Agrees (decls.map (·.name)) e' := by
    rintro e ⟨rounds, hr⟩
    have hrun := hsim rounds
    rw [hr] at hrun
    exact hrun.ends fun s => ⟨1, step_whole s⟩
  have hdiv : Source.Diverges m ctx body s →
      Flat.Diverges m (f.toBlocks (names.fresh entry)) s := by
    intro hd n
    have hrun := hsim n
    rw [hd n] at hrun
    obtain ⟨k, hk, block, index, s', hr⟩ := hrun
    exact Flat.running_of_le hk hr
  have htotal : (∃ e, Source.Ends m ctx body s e) ∨ Source.Diverges m ctx body s := by
    by_cases hd : Source.Diverges m ctx body s
    · exact Or.inr hd
    · obtain ⟨rounds, hr⟩ := not_forall.mp hd
      obtain ⟨e, he⟩ := Option.ne_none_iff_exists'.mp hr
      exact Or.inl ⟨e, rounds, he⟩
  refine ⟨hends, fun e' he' => ?_, hdiv, fun hd => ?_⟩
  · rcases htotal with ⟨e, hs⟩ | hd
    · obtain ⟨e'', he'', ha⟩ := hends e hs
      exact ⟨e, hs, Flat.ended_unique he'' he' ▸ ha⟩
    · exact absurd he' ((hdiv hd).not_ends e')
  · rcases htotal with ⟨e, hs⟩ | hs
    · obtain ⟨e', he', _⟩ := hends e hs
      exact absurd he' (hd.not_ends e')
    · exact hs

/-- A runtime with numbers as the only values and a memory of one word. -/
def Runtime.counter : Runtime Int Int where
  num n := n
  bool b := if b then 1 else 0
  none := 0
  word n := n.toNat
  unary _ v heap := some (-v, heap)
  binary op v w heap := some (if op = .minus then v - w else v + w, heap)
  builtin1 _ v heap := some (v, heap)
  builtin2 _ v _ heap := some (v, heap)
  call _ _ heap := some (0, heap)
  load _ _ heap := some heap
  store _ _ v _ := some v
  alloc _ heap := some (0, heap)
  truth v := some (v ≠ 0)

/-- Counts `n` down through the first element of a list. -/
def Source.countdown : List Stmt :=
  let number : Note := ⟨.number, {}⟩
  let list : Expr := .var ⟨.list .number, {}⟩ "xs"
  [.whileLoop number (.var number "n")
    [.assignIndex number list (.literal number (.num 0))
        (.binary number .minus (.var number "n") (.literal number (.num 1))),
      .assign number "n" (.index number list (.literal number (.num 0)))],
    .ret number (.var number "n")]

theorem countdown_meaning_preserved :
    PlainBase "loop" ∧ (Layout.ofClasses []).Literal ∧
    (∀ x ∈ Source.bodyVars Source.countdown, ¬ IsTemporary x) ∧
    ∃ decls blocks,
      (buildBody ⟨.ofClasses [], {}⟩ "loop" Source.countdown {}).result = .ok (decls, blocks) ∧
      ∃ σ, Source.Ends Runtime.counter ⟨.ofClasses [], {}⟩ Source.countdown ⟨fun _ => 3, 0⟩
          (.returned 0 σ) ∧
        ∃ e', Flat.Ends Runtime.counter blocks ⟨fun _ => 3, 0⟩ e' ∧
          (Ending.returned 0 σ).Agrees (decls.map (·.name)) e' := by
  have hl := Layout.literal_ofClasses []
  have hv : ∀ x ∈ Source.bodyVars Source.countdown, ¬ IsTemporary x := by decide
  refine ⟨by decide, hl, hv, _, _, rfl, _, ⟨4, rfl⟩, ?_⟩
  exact (body_meaning_preserved (by decide) hl hv rfl Runtime.counter ⟨fun _ => 3, 0⟩).1 _ ⟨4, rfl⟩

end BlockLowering
