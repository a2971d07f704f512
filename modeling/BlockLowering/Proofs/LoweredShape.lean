import BlockLowering.Proofs.LoweredNames
import BlockLowering.Proofs.ValidCode

/-! The shape of lowered bodies. In a fragment that lowering makes, the block that is open at the
end holds no jumps, so that more code can be put after it; the blocks before it end in a transfer
of control, with no jump earlier; and all jumps go to blocks that the fragment itself opens. -/

namespace BlockLowering

open Source (Expr Stmt)
open Flat (Operand Rhs Instr Decl Block JumpsLast ValidBody)
open Fragment (ofCode closing)

/-- Code without jumps. -/
def Straight (code : List Instr) : Prop := ∀ i ∈ code, i.targets = []

/-- Code that ends in a transfer of control and has no jump before it. -/
def Closes (code : List Instr) : Prop :=
  ∃ front last, code = front ++ [last] ∧ Straight front ∧ last.isTransfer = true

theorem Straight.append {code more : List Instr} (h : Straight code) (h' : Straight more) :
    Straight (code ++ more) :=
  List.forall_mem_append.mpr ⟨h, h'⟩

theorem Straight.closes {code more : List Instr} (h : Straight code) (h' : Closes more) :
    Closes (code ++ more) := by
  obtain ⟨front, last, rfl, hs, ht⟩ := h'
  exact ⟨code ++ front, last, by rw [List.append_assoc], h.append hs, ht⟩

theorem Straight.jumpsLast {code : List Instr} (h : Straight code) : JumpsLast code :=
  fun i hi => h i (List.dropLast_subset code hi)

theorem Closes.jumpsLast {code : List Instr} (h : Closes code) : JumpsLast code := by
  obtain ⟨front, last, rfl, hs, _⟩ := h
  rw [JumpsLast, List.dropLast_concat]
  exact hs

theorem Closes.isTerminated {b : Block} (h : Closes b.code) : b.isTerminated = true := by
  obtain ⟨front, last, he, _, ht⟩ := h
  simp [Block.isTerminated, Block.terminator?, he, ht]

/-- A fragment that may stand in a body: only the open block at its end may be continued. -/
def Fragment.Sound (f : Fragment) : Prop :=
  ∀ label, (∀ b ∈ f.closed label, Closes b.code) ∧ Straight (f.openAt label).code

namespace Fragment.Sound

theorem ofCode {code : List Instr} (h : Straight code) : (ofCode code).Sound := by
  intro label
  obtain ⟨hc, ho⟩ := parts_of_nil label (f := Fragment.ofCode code) rfl
  rw [hc, ho]
  exact ⟨by simp, h⟩

theorem closing {code : List Instr} (h : Closes code) (next : String) :
    (closing code next).Sound := by
  intro label
  obtain ⟨hc, ho⟩ := @parts_of_concat label (Fragment.closing code next) [] ⟨next, []⟩ rfl
  rw [hc, ho]
  exact ⟨by simpa [Fragment.closing] using h, by simp [Straight]⟩

theorem append {f g : Fragment} (hf : f.Sound) (hg : g.Sound) : (f ++ g).Sound := by
  intro label
  obtain ⟨hclosed, hopen⟩ := hf label
  obtain ⟨hclosed', hopen'⟩ := hg label
  rcases List.eq_nil_or_concat g.blocks with h | ⟨front, b, h⟩
  · obtain ⟨hc, ho⟩ := parts_of_nil label h
    obtain ⟨hc', ho'⟩ := parts_append_of_nil label f h
    rw [ho] at hopen'
    rw [hc', ho']
    exact ⟨hclosed, hopen.append hopen'⟩
  · rw [List.concat_eq_append] at h
    obtain ⟨hc, ho⟩ := parts_of_concat label h
    obtain ⟨hc', ho'⟩ := parts_append_of_concat label f h
    rw [hc, List.forall_mem_cons] at hclosed'
    rw [ho] at hopen'
    rw [hc', ho']
    simp only [List.forall_mem_append, List.forall_mem_cons]
    exact ⟨⟨hclosed, hopen.closes hclosed'.1, hclosed'.2⟩, hopen'⟩

end Fragment.Sound

theorem targets_of_not_transfer {i : Instr} (h : i.isTransfer = false) : i.targets = [] := by
  cases i with
  | jump label => cases h
  | branch cond a b => cases h
  | _ => rfl

variable {ctx : Context}

theorem Prelude.Declares.straight {p : Prelude} {t : List String} (h : p.Declares t) :
    Straight p.code :=
  fun i hi => targets_of_not_transfer (h.plain i hi)

theorem FlattensStmt.straight {a b : Names} {stmt : Stmt} {p : Prelude} {t : List String}
    (h : FlattensStmt ctx a stmt p b t) : Straight p.code := by
  have hlast : ∀ i : Instr, i.targets = [] → Straight [i] := fun i hi => by simpa [Straight] using hi
  cases h with
  | assign h | eval h => exact h.declares.straight.append (hlast _ rfl)
  | ret h => exact h.declares.straight.append (hlast _ rfl)
  | pass => simp [Straight, EmptyCollection.emptyCollection]
  | assignField _ hx hy =>
    exact (hx.declares.append hy.declares).straight.append (hlast _ rfl)
  | assignIndex hx hi hy =>
    exact ((((hx.declares.append hi.declares).append hy.declares).append
      (.guardedOffset ctx _ _ _ _)).straight).append (hlast _ rfl)

theorem FlattensOperand.closes_testCode {a b : Names} {cond : Expr} {x : WithPrelude Operand}
    {t : List String} (h : FlattensOperand ctx a cond x b t) (thenLabel elseLabel : String) :
    Closes (testCode x thenLabel elseLabel) :=
  ⟨x.prelude.code, _, rfl, h.declares.straight, rfl⟩

theorem FlattensOperand.targets_testCode {a b : Names} {cond : Expr} {x : WithPrelude Operand}
    {t : List String} (h : FlattensOperand ctx a cond x b t) {thenLabel elseLabel target : String}
    {i : Instr} (hi : i ∈ testCode x thenLabel elseLabel) (ht : target ∈ i.targets) :
    target = thenLabel ∨ target = elseLabel := by
  rw [testCode, List.mem_append, List.mem_singleton] at hi
  rcases hi with hi | rfl
  · rw [h.declares.straight i hi] at ht
    cases ht
  · simpa [Instr.targets] using ht

theorem closes_jump (label : String) : Closes [.jump label] :=
  ⟨[], _, rfl, by simp [Straight], rfl⟩

theorem Builds.sound {a b : Names} {body : List Stmt} {ds : List Decl} {f : Fragment}
    {t : List String} (h : Builds ctx a body ds f b t) : f.Sound := by
  induction h with
  | nil => exact Fragment.Sound.ofCode (by simp [Straight])
  | plain hs _ ih => exact (Fragment.Sound.ofCode hs.straight).append ih
  | ifElse _ hx _ _ _ iht ihe ih =>
    exact (((((Fragment.Sound.closing (hx.closes_testCode _ _) _).append iht).append
      (Fragment.Sound.closing (closes_jump _) _)).append ihe).append
      (Fragment.Sound.closing (closes_jump _) _)).append ih
  | whileLoop _ hx _ _ ihb ih =>
    exact ((((Fragment.Sound.closing (closes_jump _) _).append
      (Fragment.Sound.closing (hx.closes_testCode _ _) _)).append ihb).append
      (Fragment.Sound.closing (closes_jump _) _)).append ih

theorem Builds.targets {a b : Names} {body : List Stmt} {ds : List Decl} {f : Fragment}
    {t : List String} (h : Builds ctx a body ds f b t) :
    ∀ i ∈ f.instrs, ∀ target ∈ i.targets, target ∈ f.labels := by
  induction h with
  | nil => simp
  | plain hs _ ih =>
    intro i hi target ht
    simp only [Fragment.instrs_append, Fragment.instrs_ofCode, List.mem_append] at hi
    rcases hi with hi | hi
    · rw [hs.straight i hi] at ht
      cases ht
    · simpa using ih i hi target ht
  | ifElse _ hx _ _ _ iht ihe ih =>
    intro i hi target ht
    simp only [Fragment.instrs_append, Fragment.instrs_closing, List.mem_append,
      List.mem_singleton] at hi
    simp only [Fragment.labels_append, Fragment.labels_closing, List.mem_append,
      List.mem_singleton]
    rcases hi with ((((hi | hi) | rfl) | hi) | rfl) | hi
    · rcases hx.targets_testCode hi ht with rfl | rfl <;> simp
    · simp [iht i hi target ht]
    · simp_all [Instr.targets]
    · simp [ihe i hi target ht]
    · simp_all [Instr.targets]
    · simp [ih i hi target ht]
  | whileLoop _ hx _ _ ihb ih =>
    intro i hi target ht
    simp only [Fragment.instrs_append, Fragment.instrs_closing, List.mem_append,
      List.mem_singleton] at hi
    simp only [Fragment.labels_append, Fragment.labels_closing, List.mem_append,
      List.mem_singleton]
    rcases hi with (((rfl | hi) | hi) | rfl) | hi
    · simp_all [Instr.targets]
    · rcases hx.targets_testCode hi ht with rfl | rfl <;> simp
    · simp [ihb i hi target ht]
    · simp_all [Instr.targets]
    · simp [ih i hi target ht]

theorem Builds.validBody {a b : Names} {body : List Stmt} {ds : List Decl} {f : Fragment}
    {t : List String} (h : Builds ctx a body ds f b t) (label : String) :
    ValidBody (f.toBlocks label) := by
  obtain ⟨hc, ho⟩ := h.sound label
  refine ⟨List.cons_ne_nil _ _, fun b hb => (hc b hb).isTerminated, fun b hb => ?_,
    fun b hb i hi target ht => ?_⟩
  · rw [Fragment.toBlocks_eq, List.mem_append, List.mem_singleton] at hb
    rcases hb with hb | rfl
    · exact (hc b hb).jumpsLast
    · exact ho.jumpsLast
  · have hm : i ∈ f.instrs := by
      rw [← Fragment.instrs_toBlocks label]
      exact List.mem_flatMap.mpr ⟨b, hb, hi⟩
    exact List.mem_cons_of_mem _ (h.targets i hm target ht)

end BlockLowering
