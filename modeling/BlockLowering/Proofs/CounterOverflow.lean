import BlockLowering.Proofs.FirstFault
import BlockLowering.Session

/-! Lowering with limited numbers. The names that a program draws in front of its first fault can be
counted in its text. If the supply has enough numbers left for them, lowering ends in the first
fault, or in a program if there is none; otherwise it breaks off. -/

namespace BlockLowering

/-- How many names of a base are drawn in front of the first fault. -/
def drawsBefore (base : String) : List WalkStop → Nat
  | [] => 0
  | .need n :: rest => (if n.base = base then 1 else 0) + drawsBefore base rest
  | .fault _ :: _ => 0

namespace Names

/-- Every base has numbers left for the names in front of the first fault. -/
def Suffices (names : Names) (stops : List WalkStop) : Prop :=
  ∀ base, names.count base + drawsBefore base stops ≤ maxNumber

theorem count_follow (names : Names) (stops : List WalkStop) (base : String) :
    (names.follow stops).1.count base = names.count base + drawsBefore base stops := by
  induction stops generalizing names with
  | nil => rfl
  | cons stop rest ih =>
    cases stop with
    | fault f => rfl
    | need n =>
      rw [follow, ih, drawsBefore]
      by_cases he : n.base = base
      · rw [if_pos he, he, count_advance_self]
        omega
      · rw [if_neg he, count_advance_of_ne names (Ne.symm he)]
        omega

end Names

theorem Lower.Walks.fits_iff {ω α : Type} {m : Lower ω α} {stops : List WalkStop}
    (h : m.Walks stops) (names : Names) : (m names).names.fits = true ↔ names.Suffices stops := by
  rw [(h names).1, Names.fits_iff]
  simp only [names.count_follow]
  rfl

/-- A program whose names the supply has numbers for is lowered if it has no faults, and otherwise
lowering ends in the first of them, whatever the settings are and whatever was drawn before. For
any other program lowering breaks off, and a session with it. -/
theorem lowering_ends_in_first_fault (ctx : Context) (p : Source.Program) (names : Names) :
    ((flattenProgram ctx p names).verdict = .overflow ↔ ¬ names.Suffices (p.stops ctx.layout)) ∧
    (∀ body, (Session.serve ⟨ctx, names, body⟩ (.program p)).isSome = true ↔
      names.Suffices (p.stops ctx.layout)) ∧
    ((∃ q, (flattenProgram ctx p names).verdict = .value q) ↔
      names.Suffices (p.stops ctx.layout) ∧ p.faults ctx.layout = []) ∧
    (∀ f, (flattenProgram ctx p names).verdict = .fault f ↔
      names.Suffices (p.stops ctx.layout) ∧ (p.faults ctx.layout).head? = some f) ∧
    ∀ (settings : Settings) (names' : Names), names.Suffices (p.stops ctx.layout) →
      names'.Suffices (p.stops ctx.layout) → ∀ f,
        ((flattenProgram ⟨ctx.layout, settings⟩ p names').verdict = .fault f ↔
          (flattenProgram ctx p names).verdict = .fault f) := by
  have hfits : ∀ settings names',
      (flattenProgram ⟨ctx.layout, settings⟩ p names').names.fits = true ↔
        names'.Suffices (p.stops ctx.layout) :=
    fun settings names' => (walks_flattenProgram p).fits_iff names'
  have hjudged : ∀ settings names',
      Judged (flattenProgram ⟨ctx.layout, settings⟩ p names').result (p.faults ctx.layout).head? :=
    fun settings names' => meets_flattenProgram p names'
  have hfault : ∀ settings names' f,
      (flattenProgram ⟨ctx.layout, settings⟩ p names').verdict = .fault f ↔
        names'.Suffices (p.stops ctx.layout) ∧ (p.faults ctx.layout).head? = some f := by
    intro settings names' f
    rw [Outcome.verdict_eq_iff, Outcome.Ends, hfits, (hjudged settings names').error_iff]
  refine ⟨?_, fun body => ?_, ?_, hfault ctx.settings names, fun settings names' h h' f => ?_⟩
  · rw [Outcome.verdict_eq_iff]
    exact not_congr (hfits ctx.settings names)
  · rw [← hfits ctx.settings names]
    change (if (flattenProgram ctx p names).names.fits = true then some _ else none).isSome = _ ↔ _
    cases (flattenProgram ctx p names).names.fits <;> simp
  · simp only [Outcome.verdict_eq_iff, Outcome.Ends, exists_and_left, ← List.head?_eq_none_iff]
    exact and_congr (hfits ctx.settings names) (hjudged ctx.settings names).ok_iff
  · rw [hfault settings names' f, hfault ctx.settings names f]
    exact and_congr_left fun _ => iff_of_true h' h

/-- Negates a number twice, which takes one temporary, and then does something else. -/
def Source.negation (rest : List Source.Stmt) : Source.Program :=
  let number : Source.Note := ⟨.number, {}⟩
  { body := .assign number "x" (.unary number .neg (.unary number .neg (.literal number (.num 1))))
      :: rest }

/-- The last number of all is enough for the temporary in front of the fault. -/
theorem negation_of_last_number :
    let number : Source.Note := ⟨.number, {}⟩
    let p := Source.negation [.eval number (.field number (.var number "x") "size")]
    let names : Names := .ofCounters [(Base.operand, Names.maxNumber - 1)]
    let f : Fault := .notAnObject .fieldLookup .number {}
    (flattenProgram ⟨{}, {}⟩ p names).verdict = .fault f ∧
      ∀ settings, (flattenProgram ⟨{}, settings⟩ p {}).verdict = .fault f := by
  intro number p names f
  have hwalks := @walks_flattenProgram ⟨{}, {}⟩ p
  have hnames : names.Suffices (p.stops {}) := (hwalks.fits_iff names).mp (by decide +kernel)
  have hnone : Names.Suffices {} (p.stops {}) := (hwalks.fits_iff {}).mp (by decide +kernel)
  obtain ⟨-, -, -, hfault, hsame⟩ := lowering_ends_in_first_fault ⟨{}, {}⟩ p names
  have hf := (hfault f).mpr ⟨hnames, by decide +kernel⟩
  exact ⟨hf, fun settings => (hsame settings {} hnames hnone f).mpr hf⟩

/-- The counters do have a part in the outcome: the last number has been given out, and a program
without faults is not lowered. -/
theorem negation_past_last_number :
    let p := Source.negation []
    let names : Names := .ofCounters [(Base.operand, Names.maxNumber)]
    p.faults {} = [] ∧ (flattenProgram ⟨{}, {}⟩ p names).verdict = .overflow ∧
      ∃ q, (flattenProgram ⟨{}, {}⟩ p {}).verdict = .value q := by
  refine ⟨by decide +kernel, by decide +kernel, ?_⟩
  obtain ⟨q, hq⟩ := ok_of_isOk
    (show (flattenProgram ⟨{}, {}⟩ (Source.negation []) {}).result.isOk = true by decide +kernel)
  exact ⟨q, (Outcome.verdict_eq_iff _ _).mpr ⟨by decide +kernel, hq⟩⟩

end BlockLowering
