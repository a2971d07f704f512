import BlockLowering.Proofs.NameCapture
import BlockLowering.Proofs.ProgramBodies

/-! Structured control flow. In a lowered body the blocks stand in such an order that every jump
leads to a later block, except that the block at the end of a loop jumps back to the one that tests
the loop's condition. Each arm of a conditional, the body of a loop and what follows it are entered
from one jump; what follows a conditional and the test of a loop are entered from two. -/

namespace BlockLowering

open Source (Expr Stmt Note)
open Flat (Operand Instr Block Decl JumpsLast)
open Fragment (ofCode closing)

namespace Flat

def Instr.isJump (i : Instr) : Bool := !i.targets.isEmpty

/-- The jumps in blocks that are numbered from `k`, each with the number of its block. -/
def jumpsFrom (k : Nat) (blocks : List Block) : List (Nat × Instr) :=
  (blocks.zipIdx k).flatMap fun (b, n) => (b.code.filter Instr.isJump).map (n, ·)

/-- The labels of blocks that are numbered from `k`. -/
def labelsFrom (k : Nat) (blocks : List Block) : List (Nat × String) :=
  (blocks.zipIdx k).map fun (b, n) => (n, b.label)

/-- All positions in which jumps name a target. -/
def targetsOf (jumps : List (Nat × Instr)) : List String := jumps.flatMap (·.2.targets)

theorem jumpsFrom_append (k : Nat) (l m : List Block) :
    jumpsFrom k (l ++ m) = jumpsFrom k l ++ jumpsFrom (k + l.length) m := by
  simp only [jumpsFrom, List.zipIdx_append, List.flatMap_append]

theorem jumpsFrom_cons (k : Nat) (b : Block) (rest : List Block) :
    jumpsFrom k (b :: rest) =
      (b.code.filter Instr.isJump).map (k, ·) ++ jumpsFrom (k + 1) rest := by
  simp only [jumpsFrom, List.zipIdx_cons, List.flatMap_cons]

theorem targetsOf_append (l m : List (Nat × Instr)) :
    targetsOf (l ++ m) = targetsOf l ++ targetsOf m :=
  List.flatMap_append

theorem filter_isJump_of_straight {code : List Instr} (h : Straight code) :
    code.filter Instr.isJump = [] := by
  rw [List.filter_eq_nil_iff]
  intro i hi
  simp [Instr.isJump, h i hi]

theorem le_of_mem_jumpsFrom {k : Nat} {blocks : List Block} {jump : Nat × Instr}
    (h : jump ∈ jumpsFrom k blocks) : k ≤ jump.1 := by
  obtain ⟨⟨b, n⟩, hb, hj⟩ := List.mem_flatMap.mp h
  obtain ⟨i, -, rfl⟩ := List.mem_map.mp hj
  exact List.le_snd_of_mem_zipIdx hb

/-- Where jumps only end blocks, no block holds two. -/
theorem jumpsFrom_nodup {blocks : List Block} (h : ∀ b ∈ blocks, JumpsLast b.code) (k : Nat) :
    ((jumpsFrom k blocks).map Prod.fst).Nodup := by
  induction blocks generalizing k with
  | nil => exact List.nodup_nil
  | cons b rest ih =>
    obtain ⟨hb, hrest⟩ := List.forall_mem_cons.mp h
    have hone : (((b.code.filter Instr.isJump).map (k, ·)).map Prod.fst).Nodup := by
      rcases List.eq_nil_or_concat b.code with he | ⟨front, last, he⟩
      · simp [he]
      · rw [he, List.concat_eq_append, JumpsLast, List.dropLast_concat] at hb
        rw [he, List.concat_eq_append, List.filter_append, filter_isJump_of_straight hb]
        by_cases hl : last.isJump = true <;> simp [hl]
    rw [jumpsFrom_cons, List.map_append]
    refine hone.append (ih hrest (k + 1)) fun n hj hr => ?_
    obtain ⟨jump, hjump, rfl⟩ := List.mem_map.mp hj
    obtain ⟨i, -, rfl⟩ := List.mem_map.mp hjump
    obtain ⟨jump', hjump', he⟩ := List.mem_map.mp hr
    have hle := le_of_mem_jumpsFrom hjump'
    omega

theorem labelsFrom_nodup (blocks : List Block) (k : Nat) :
    ((labelsFrom k blocks).map Prod.fst).Nodup := by
  have hnumbers : (labelsFrom k blocks).map Prod.fst = List.range' k blocks.length := by
    rw [labelsFrom, List.map_map, ← List.zipIdx_map_snd k blocks]
    rfl
  rw [hnumbers]
  exact List.nodup_range'

end Flat

open Flat (jumpsFrom labelsFrom targetsOf)

namespace Fragment

/-- The jumps of a fragment that continues block `k`. -/
def jumps (f : Fragment) (k : Nat) : List (Nat × Instr) := jumpsFrom k (f.toBlocks "")

/-- The blocks that it opens. -/
def openings (f : Fragment) (k : Nat) : List (Nat × String) := labelsFrom (k + 1) f.blocks

theorem jumps_append (f g : Fragment) (k : Nat) :
    (f ++ g).jumps k = f.jumps k ++ g.jumps (k + f.blocks.length) := by
  rw [jumps, jumps, jumps, toBlocks_append, toBlocks_eq "" f]
  simp only [Flat.jumpsFrom_append, Flat.jumpsFrom_cons, closed_length, List.filter_append,
    List.map_append, toBlocks, List.append_assoc]
  rfl

theorem openings_eq (f : Fragment) (k : Nat) :
    f.openings k = (f.labels.zipIdx (k + 1)).map Prod.swap := by
  rw [openings, labelsFrom, labels, List.zipIdx_map, List.map_map]
  rfl

theorem openings_append (f g : Fragment) (k : Nat) :
    (f ++ g).openings k = f.openings k ++ g.openings (k + f.blocks.length) := by
  have hlength : f.labels.length = f.blocks.length := List.length_map _
  rw [openings_eq, openings_eq, openings_eq, labels_append, List.zipIdx_append, List.map_append,
    hlength, Nat.add_right_comm]

theorem jumps_ofCode {code : List Instr} (h : Straight code) (k : Nat) :
    (ofCode code).jumps k = [] := by
  simp [jumps, toBlocks, ofCode, jumpsFrom, Flat.filter_isJump_of_straight h]

theorem openings_ofCode (code : List Instr) (k : Nat) : (ofCode code).openings k = [] := rfl

theorem jumps_closing {front : List Instr} (h : Straight front) {last : Instr}
    (hl : last.isJump = true) (label : String) (k : Nat) :
    (closing (front ++ [last]) label).jumps k = [(k, last)] := by
  simp [jumps, toBlocks, closing, jumpsFrom, Flat.filter_isJump_of_straight h, hl]

theorem openings_closing (code : List Instr) (label : String) (k : Nat) :
    (closing code label).openings k = [(k + 1, label)] := rfl

theorem jumps_toBlocks (label : String) (f : Fragment) (k : Nat) :
    jumpsFrom k (f.toBlocks label) = f.jumps k := rfl

theorem labels_toBlocks (label : String) (f : Fragment) :
    labelsFrom 0 (f.toBlocks label) = (0, label) :: f.openings 0 := rfl

end Fragment

/-- A loop of a body: the block that tests its condition, the one that jumps back to it, and the
labels of the test, of the body and of what follows. -/
structure Loop where
  start : Nat
  close : Nat
  cond : Operand
  startLabel : String
  bodyLabel : String
  endLabel : String

namespace Loop

def opening (loop : Loop) : Nat × String := (loop.start, loop.startLabel)

def test (loop : Loop) : Nat × Instr :=
  (loop.start, .branch loop.cond loop.bodyLabel loop.endLabel)

/-- The jump back. -/
def closing (loop : Loop) : Nat × Instr := (loop.close, .jump loop.startLabel)

/-- The loop is among the jumps and labels of a body. Its body starts right after the test, and
what follows the loop right after the jump back. -/
structure Stands (jumps : List (Nat × Instr)) (labels : List (Nat × String)) (loop : Loop) :
    Prop where
  test : loop.test ∈ jumps
  closing : loop.closing ∈ jumps
  opening : loop.opening ∈ labels
  inner : (loop.start + 1, loop.bodyLabel) ∈ labels
  after : (loop.close + 1, loop.endLabel) ∈ labels
  back : loop.start < loop.close
  startNamed : NumberedFrom [Base.loopStart] loop.startLabel
  bodyNamed : NumberedFrom [Base.loopBody] loop.bodyLabel
  endNamed : NumberedFrom [Base.loopEnd] loop.endLabel

theorem Stands.mono {jumps jumps' : List (Nat × Instr)} {labels labels' : List (Nat × String)}
    {loop : Loop} (h : loop.Stands jumps labels) (hj : jumps ⊆ jumps') (hl : labels ⊆ labels') :
    loop.Stands jumps' labels' :=
  { h with
    test := hj h.test
    closing := hj h.closing
    opening := hl h.opening
    inner := hl h.inner
    after := hl h.after }

end Loop

/-- All targets of a jump are later blocks, or it closes a loop. -/
def Leads (labels : List (Nat × String)) (loops : List Loop) (jump : Nat × Instr) : Prop :=
  (∀ target ∈ jump.2.targets, ∃ n, jump.1 < n ∧ (n, target) ∈ labels) ∨
    jump ∈ loops.map Loop.closing

theorem Leads.mono {labels labels' : List (Nat × String)} {loops loops' : List Loop}
    {jump : Nat × Instr} (h : Leads labels loops jump) (hl : labels ⊆ labels')
    (hm : loops ⊆ loops') : Leads labels' loops' jump := by
  rcases h with h | h
  · refine Or.inl fun target ht => ?_
    obtain ⟨n, hn, hmem⟩ := h target ht
    exact ⟨n, hn, hl hmem⟩
  · exact Or.inr (List.map_subset _ hm h)

/-- Jumps and labels with loops among them: no jump but those that close the loops goes back, and
no two loops share their test or their jump back. -/
structure Flow (jumps : List (Nat × Instr)) (labels : List (Nat × String)) (loops : List Loop) :
    Prop where
  leads : ∀ jump ∈ jumps, Leads labels loops jump
  stands : ∀ loop ∈ loops, loop.Stands jumps labels
  closes : ∀ n, (loops.map Loop.close).count n ≤ (jumps.map Prod.fst).count n
  starts : ∀ n, (loops.map Loop.start).count n ≤ (labels.map Prod.fst).count n

namespace Flow

variable {jumps jumps' : List (Nat × Instr)} {labels labels' : List (Nat × String)}
  {loops loops' : List Loop}

theorem nil : Flow [] [] [] := ⟨by simp, by simp, by simp, by simp⟩

theorem perm (h : Flow jumps labels loops) (hj : jumps.Perm jumps') (hl : labels.Perm labels') :
    Flow jumps' labels' loops where
  leads jump hm := (h.leads jump (hj.mem_iff.mpr hm)).mono hl.subset (List.Subset.refl _)
  stands loop hm := (h.stands loop hm).mono hj.subset hl.subset
  closes n := (hj.map Prod.fst).count_eq n ▸ h.closes n
  starts n := (hl.map Prod.fst).count_eq n ▸ h.starts n

/-- What is added may refer to all that is there then. -/
theorem extend (h : Flow jumps labels loops)
    (hleads : ∀ jump ∈ jumps', Leads (labels ++ labels') loops' jump)
    (hstands : ∀ loop ∈ loops', loop.Stands (jumps ++ jumps') (labels ++ labels'))
    (hcloses : ∀ n, (loops'.map Loop.close).count n ≤ (jumps'.map Prod.fst).count n)
    (hstarts : ∀ n, (loops'.map Loop.start).count n ≤ (labels'.map Prod.fst).count n) :
    Flow (jumps ++ jumps') (labels ++ labels') (loops ++ loops') where
  leads := by
    refine List.forall_mem_append.mpr ⟨fun jump hj => ?_, fun jump hj => ?_⟩
    · exact (h.leads jump hj).mono (List.subset_append_left _ _) (List.subset_append_left _ _)
    · exact (hleads jump hj).mono (List.Subset.refl _) (List.subset_append_right _ _)
  stands := by
    refine List.forall_mem_append.mpr ⟨fun loop hl => ?_, hstands⟩
    exact (h.stands loop hl).mono (List.subset_append_left _ _) (List.subset_append_left _ _)
  closes n := by
    simp only [List.map_append, List.count_append]
    exact Nat.add_le_add (h.closes n) (hcloses n)
  starts n := by
    simp only [List.map_append, List.count_append]
    exact Nat.add_le_add (h.starts n) (hstarts n)

theorem append (h : Flow jumps labels loops) (h' : Flow jumps' labels' loops') :
    Flow (jumps ++ jumps') (labels ++ labels') (loops ++ loops') := by
  refine h.extend (fun jump hj => ?_) (fun loop hl => ?_) h'.closes h'.starts
  · exact (h'.leads jump hj).mono (List.subset_append_right _ _) (List.Subset.refl _)
  · exact (h'.stands loop hl).mono (List.subset_append_right _ _) (List.subset_append_right _ _)

/-- A conditional: block `k` tests, blocks `m` and `n` end the arms. -/
theorem branch {jumps₁ jumps₂ jumps₃ : List (Nat × Instr)}
    {labels₁ labels₂ labels₃ : List (Nat × String)} {loops₁ loops₂ loops₃ : List Loop}
    (h₁ : Flow jumps₁ labels₁ loops₁) (h₂ : Flow jumps₂ labels₂ loops₂)
    (h₃ : Flow jumps₃ labels₃ loops₃) {k m n : Nat} (hm : k < m) (hn : m < n) (cond : Operand)
    (thenLabel elseLabel endLabel : String) :
    Flow ([(k, .branch cond thenLabel elseLabel)] ++ jumps₁ ++ [(m, .jump endLabel)] ++ jumps₂ ++
        [(n, .jump endLabel)] ++ jumps₃)
      ([(k + 1, thenLabel)] ++ labels₁ ++ [(m + 1, elseLabel)] ++ labels₂ ++ [(n + 1, endLabel)] ++
        labels₃) (loops₁ ++ loops₂ ++ loops₃) := by
  have hparts := (h₁.append h₂).append h₃
  have hjumps : ∀ jump ∈ [(k, Instr.branch cond thenLabel elseLabel), (m, .jump endLabel),
      (n, .jump endLabel)], Leads (labels₁ ++ labels₂ ++ labels₃ ++
        [(k + 1, thenLabel), (m + 1, elseLabel), (n + 1, endLabel)]) [] jump := by
    simp only [List.forall_mem_cons]
    refine ⟨Or.inl ?_, Or.inl ?_, Or.inl ?_, by simp⟩
    · simp only [Instr.targets, List.forall_mem_cons]
      exact ⟨⟨k + 1, Nat.lt_succ_self k, by simp⟩, ⟨m + 1, by omega, by simp⟩, by simp⟩
    · simp only [Instr.targets, List.forall_mem_singleton]
      exact ⟨n + 1, by omega, by simp⟩
    · simp only [Instr.targets, List.forall_mem_singleton]
      exact ⟨n + 1, Nat.lt_succ_self n, by simp⟩
  have hall := hparts.extend hjumps (by simp) (by simp) (by simp)
  rw [List.append_nil] at hall
  refine hall.perm ?_ ?_ <;>
    simp only [List.perm_iff_count, List.count_append, List.count_cons, List.count_nil] <;> omega

/-- A loop: block `k` leads to the test in the next one, block `n` ends the body. -/
theorem loop {jumps₁ jumps₂ : List (Nat × Instr)} {labels₁ labels₂ : List (Nat × String)}
    {loops₁ loops₂ : List Loop} (h₁ : Flow jumps₁ labels₁ loops₁)
    (h₂ : Flow jumps₂ labels₂ loops₂) {k n : Nat} (hn : k + 1 < n) (cond : Operand)
    {startLabel bodyLabel endLabel : String} (hs : NumberedFrom [Base.loopStart] startLabel)
    (hb : NumberedFrom [Base.loopBody] bodyLabel) (he : NumberedFrom [Base.loopEnd] endLabel) :
    Flow ([(k, .jump startLabel)] ++ [(k + 1, .branch cond bodyLabel endLabel)] ++ jumps₁ ++
        [(n, .jump startLabel)] ++ jumps₂)
      ([(k + 1, startLabel)] ++ [(k + 1 + 1, bodyLabel)] ++ labels₁ ++ [(n + 1, endLabel)] ++
        labels₂)
      (loops₁ ++ loops₂ ++ [⟨k + 1, n, cond, startLabel, bodyLabel, endLabel⟩]) := by
  let loop : Loop := ⟨k + 1, n, cond, startLabel, bodyLabel, endLabel⟩
  have hparts := h₁.append h₂
  have hjumps : ∀ jump ∈ [(k, Instr.jump startLabel), loop.test, loop.closing],
      Leads (labels₁ ++ labels₂ ++ [loop.opening, (k + 1 + 1, bodyLabel), (n + 1, endLabel)])
        [loop] jump := by
    simp only [List.forall_mem_cons]
    refine ⟨Or.inl ?_, Or.inl ?_, Or.inr (by simp), by simp⟩
    · simp only [Instr.targets, List.forall_mem_singleton]
      exact ⟨k + 1, Nat.lt_succ_self k, by simp [loop, Loop.opening]⟩
    · simp only [loop, Loop.test, Instr.targets, List.forall_mem_cons]
      exact ⟨⟨k + 1 + 1, Nat.lt_succ_self _, by simp⟩, ⟨n + 1, by omega, by simp⟩, by simp⟩
  have hstands : loop.Stands (jumps₁ ++ jumps₂ ++ [(k, .jump startLabel), loop.test, loop.closing])
      (labels₁ ++ labels₂ ++ [loop.opening, (k + 1 + 1, bodyLabel), (n + 1, endLabel)]) :=
    ⟨by simp, by simp, by simp, by simp [loop], by simp [loop], hn, hs, hb, he⟩
  have hall := hparts.extend hjumps (List.forall_mem_singleton.mpr hstands)
    (fun m => (List.sublist_append_right [k, k + 1] [n]).count_le m)
    (fun m => (List.sublist_append_left [k + 1] _).count_le m)
  refine hall.perm ?_ ?_ <;>
    simp only [List.perm_iff_count, List.count_append, List.count_cons, List.count_nil, loop,
      Loop.test, Loop.closing, Loop.opening] <;> omega

end Flow

variable {ctx : Context}

theorem FlattensOperand.jumps_closing {a b : Names} {cond : Expr} {x : WithPrelude Operand}
    {t : List String} (h : FlattensOperand ctx a cond x b t) (thenLabel elseLabel label : String)
    (k : Nat) : (closing (testCode x thenLabel elseLabel) label).jumps k =
      [(k, .branch x.value thenLabel elseLabel)] :=
  Fragment.jumps_closing h.declares.straight rfl label k

theorem jumps_closing_jump (target label : String) (k : Nat) :
    (closing [.jump target] label).jumps k = [(k, .jump target)] :=
  Fragment.jumps_closing (List.forall_mem_nil _) rfl label k

/-- A body has as many loops as loop statements. -/
theorem Builds.flow {a b : Names} {body : List Stmt} {ds : List Decl} {f : Fragment}
    {t : List String} (h : Builds ctx a body ds f b t) (k : Nat) :
    ∃ loops : List Loop, loops.length = (Stmt.allNodes body).countP Stmt.isWhileLoop ∧
      Flow (f.jumps k) (f.openings k) loops := by
  induction h generalizing k with
  | nil => exact ⟨[], rfl, .nil⟩
  | @plain _ _ _ _ _ stmt _ p _ f hs _ ih =>
    obtain ⟨loops, hlength, hflow⟩ := ih k
    refine ⟨loops, ?_, ?_⟩
    · have hplain : stmt.isWhileLoop = false := by cases hs <;> rfl
      rw [Stmt.allNodes_plain _ hs.isPlain, List.countP_cons_of_neg (by simp [hplain]), hlength]
    · rw [Fragment.jumps_append, Fragment.openings_append, Fragment.jumps_ofCode hs.straight,
        Fragment.openings_ofCode]
      exact hflow
  | @ifElse a _ _ _ _ _ _ _ _ note cond thenBody elseBody rest l x _ _ _ f g h hl hx _ _ _ iht ihe ih =>
    obtain ⟨loops, hlength, hflow⟩ := iht (k + 1)
    obtain ⟨loops', hlength', hflow'⟩ := ihe (k + 1 + f.blocks.length + 1)
    obtain ⟨loops'', hlength'', hflow''⟩ := ih (k + 1 + f.blocks.length + 1 + g.blocks.length + 1)
    refine ⟨loops ++ loops' ++ loops'', ?_, ?_⟩
    · rw [Stmt.allNodes_ifElse, List.countP_cons_of_neg Bool.false_ne_true, List.countP_append,
        List.countP_append, List.length_append, List.length_append, hlength, hlength', hlength'']
    · simp only [Fragment.jumps_append, Fragment.openings_append, hx.jumps_closing,
        jumps_closing_jump, Fragment.openings_closing, Fragment.blocks_append_length,
        Fragment.blocks_closing_length, ← Nat.add_assoc]
      exact hflow.branch hflow' hflow'' (by omega) (by omega) _ _ _ _
  | @whileLoop a _ _ _ _ _ _ note cond body rest l x _ _ f g hl hx _ _ ihb ih =>
    obtain ⟨loops, hlength, hflow⟩ := ihb (k + 1 + 1)
    obtain ⟨loops', hlength', hflow'⟩ := ih (k + 1 + 1 + f.blocks.length + 1)
    obtain rfl := hl
    refine ⟨loops ++ loops' ++ [⟨k + 1, k + 1 + 1 + f.blocks.length, x.value, a.loopLabels.first,
      a.loopLabels.second, a.loopLabels.third⟩], ?_, ?_⟩
    · rw [Stmt.allNodes_whileLoop, List.countP_cons_of_pos rfl, List.countP_append,
        List.length_append, List.length_append, List.length_singleton, hlength, hlength']
    · simp only [Fragment.jumps_append, Fragment.openings_append, hx.jumps_closing,
        jumps_closing_jump, Fragment.openings_closing, Fragment.blocks_append_length,
        Fragment.blocks_closing_length, ← Nat.add_assoc]
      exact hflow.loop hflow' (by omega) _ (numberedFrom_numbered (by decide) _)
        (numberedFrom_numbered (by decide) _) (numberedFrom_numbered (by decide) _)

/-- The bases of the blocks that two jumps lead to. -/
def joinBases : List String := [Base.endBlock, Base.loopStart]

/-- The bases of the blocks that one jump leads to. -/
def armBases : List String := [Base.thenBlock, Base.elseBlock, Base.loopBody, Base.loopEnd]

/-- The number of times that jumps name a label which lowering gives to a block. -/
def arity (label : String) : Nat := if NumberedFrom joinBases label then 2 else 1

theorem arity_of_join {label : String} (h : NumberedFrom joinBases label) : arity label = 2 :=
  if_pos h

theorem arity_of_arm {label : String} (h : NumberedFrom armBases label) : arity label = 1 := by
  refine if_neg fun hjoin => ?_
  obtain ⟨base, harm, hjoin⟩ := h.common (by decide) (by decide) hjoin
  have hdisjoint : ∀ b ∈ armBases, b ∉ joinBases := by decide
  exact hdisjoint base harm hjoin

theorem count_singleton_mul_arity {label : String} {n : Nat} (h : arity label = n) (x : String) :
    [label].count x * arity x = [label].count x * n := by
  by_cases hx : x = label
  · rw [hx, h]
  · have hzero : [label].count x = 0 := List.count_eq_zero.mpr (by simpa using hx)
    rw [hzero, Nat.zero_mul, Nat.zero_mul]

/-- Each label of the body is named as often as it should be, and no other one is named. -/
theorem Builds.count_targets {a b : Names} {body : List Stmt} {ds : List Decl} {f : Fragment}
    {t : List String} (h : Builds ctx a body ds f b t) (k : Nat) (x : String) :
    (targetsOf (f.jumps k)).count x = f.labels.count x * arity x := by
  induction h generalizing k with
  | nil => exact (Nat.zero_mul _).symm
  | plain hs _ ih =>
    rw [Fragment.jumps_append, Fragment.jumps_ofCode hs.straight, Fragment.labels_append,
      Fragment.labels_ofCode]
    exact ih _
  | @ifElse a _ _ _ _ _ _ _ _ _ _ _ _ _ l _ _ _ _ _ _ _ hl hx _ _ _ iht ihe ih =>
    obtain ⟨h₁, h₂, h₃⟩ : arity l.first = 1 ∧ arity l.second = 1 ∧ arity l.third = 2 := by
      subst hl
      exact ⟨arity_of_arm (numberedFrom_numbered (by decide) _),
        arity_of_arm (numberedFrom_numbered (by decide) _),
        arity_of_join (numberedFrom_numbered (by decide) _)⟩
    have hfirst := count_singleton_mul_arity h₁ x
    have hsecond := count_singleton_mul_arity h₂ x
    have hthird := count_singleton_mul_arity h₃ x
    have htest : [l.first, l.second].count x = [l.first].count x + [l.second].count x := by
      rw [← List.singleton_append, List.count_append]
    simp only [Fragment.jumps_append, hx.jumps_closing, jumps_closing_jump, Flat.targetsOf_append,
      List.count_append, Fragment.labels_append, Fragment.labels_closing, Nat.add_mul, iht, ihe, ih]
    simp only [targetsOf, List.flatMap_singleton, Instr.targets]
    omega
  | @whileLoop a _ _ _ _ _ _ _ _ _ _ l _ _ _ _ _ hl hx _ _ ihb ih =>
    obtain ⟨h₁, h₂, h₃⟩ : arity l.first = 2 ∧ arity l.second = 1 ∧ arity l.third = 1 := by
      subst hl
      exact ⟨arity_of_join (numberedFrom_numbered (by decide) _),
        arity_of_arm (numberedFrom_numbered (by decide) _),
        arity_of_arm (numberedFrom_numbered (by decide) _)⟩
    have hfirst := count_singleton_mul_arity h₁ x
    have hsecond := count_singleton_mul_arity h₂ x
    have hthird := count_singleton_mul_arity h₃ x
    have htest : [l.second, l.third].count x = [l.second].count x + [l.third].count x := by
      rw [← List.singleton_append, List.count_append]
    simp only [Fragment.jumps_append, hx.jumps_closing, jumps_closing_jump, Flat.targetsOf_append,
      List.count_append, Fragment.labels_append, Fragment.labels_closing, Nat.add_mul, ihb, ih]
    simp only [targetsOf, List.flatMap_singleton, Instr.targets]
    omega

/-- The blocks of a body with as many loops as `whiles` says. -/
structure Structured (whiles : Nat) (blocks : List Block) : Prop where
  distinct : (blocks.map (·.label)).Nodup
  entry : ∀ b ∈ blocks.head?, b.label ∉ targetsOf (jumpsFrom 0 blocks)
  arms : ∀ b ∈ blocks, NumberedFrom armBases b.label →
    (targetsOf (jumpsFrom 0 blocks)).count b.label = 1
  joins : ∀ b ∈ blocks, NumberedFrom joinBases b.label →
    (targetsOf (jumpsFrom 0 blocks)).count b.label = 2
  loops : ∃ loops : List Loop, loops.length = whiles ∧ (loops.map Loop.start).Nodup ∧
    (loops.map Loop.close).Nodup ∧
    (∀ loop ∈ loops, loop.Stands (jumpsFrom 0 blocks) (labelsFrom 0 blocks) ∧
      (jumpsFrom 0 blocks).count loop.closing = 1) ∧
    ∀ jump ∈ jumpsFrom 0 blocks, Leads (labelsFrom 0 blocks) loops jump

theorem LowersBody.structured {body : List Stmt} {blocks : List Block}
    (h : LowersBody ctx body blocks) :
    Structured ((Stmt.allNodes body).countP Stmt.isWhileLoop) blocks := by
  obtain ⟨entry, a, ds, f, b, t, he, hb, rfl⟩ := h
  have hplain : ∀ e ∈ [Base.programStart, Base.functionStart], PlainBase e := by decide
  have hdistinct := hb.labels_nodup (hplain entry he)
  obtain ⟨hfirst, hlabels⟩ := List.nodup_cons.mp hdistinct
  have hcount : ∀ bases, (∀ e ∈ bases, PlainBase e) → entry ∉ bases →
      ∀ c ∈ f.toBlocks (a.fresh entry), NumberedFrom bases c.label →
      (targetsOf (jumpsFrom 0 (f.toBlocks (a.fresh entry)))).count c.label = arity c.label := by
    intro bases hbases hentry c hc hn
    rcases List.mem_cons.mp hc with rfl | hc
    · have hown : NumberedFrom [entry] (a.fresh entry) := numberedFrom_numbered (by simp) _
      obtain ⟨base, hmem, hbase⟩ := hown.common (by simpa using hplain entry he) hbases hn
      exact absurd (List.mem_singleton.mp hmem ▸ hbase) hentry
    · have hone : f.labels.count c.label = 1 :=
        List.count_eq_one_of_mem hlabels (List.mem_map_of_mem hc)
      rw [Fragment.jumps_toBlocks, hb.count_targets, hone, Nat.one_mul]
  have hjoins : ∀ e ∈ [Base.programStart, Base.functionStart], e ∉ armBases ∧ e ∉ joinBases := by
    decide
  refine ⟨hdistinct, ?_, ?_, ?_, ?_⟩
  · rintro c ⟨⟩
    have hzero : f.labels.count (a.fresh entry) = 0 := List.count_eq_zero.mpr hfirst
    rw [← List.count_eq_zero, Fragment.jumps_toBlocks, hb.count_targets, hzero, Nat.zero_mul]
  · intro c hc hn
    rw [hcount armBases (by decide) (hjoins entry he).1 c hc hn, arity_of_arm hn]
  · intro c hc hn
    rw [hcount joinBases (by decide) (hjoins entry he).2 c hc hn, arity_of_join hn]
  · obtain ⟨loops, hlength, hflow⟩ := hb.flow 0
    have hjumps := Flat.jumpsFrom_nodup (hb.validBody (a.fresh entry)).jumpsLast 0
    have hsub : f.openings 0 ⊆ labelsFrom 0 (f.toBlocks (a.fresh entry)) := by
      rw [Fragment.labels_toBlocks]
      exact List.subset_cons_self _ _
    refine ⟨loops, hlength, ?_, ?_, fun loop hl => ?_, fun jump hj => ?_⟩
    · refine List.nodup_iff_count_le_one.mpr fun n => (hflow.starts n).trans ?_
      exact List.nodup_iff_count_le_one.mp (Flat.labelsFrom_nodup f.blocks 1) n
    · refine List.nodup_iff_count_le_one.mpr fun n => (hflow.closes n).trans ?_
      exact List.nodup_iff_count_le_one.mp hjumps n
    · have hstands := (hflow.stands loop hl).mono (List.Subset.refl _) hsub
      exact ⟨hstands, List.count_eq_one_of_mem (List.Nodup.of_map _ hjumps) hstands.closing⟩
    · exact (hflow.leads jump hj).mono hsub (List.Subset.refl _)

/-- In each body of a lowered program the first block is no target of a jump. Labels of arms, loop
bodies and what follows loops are named once, the other labels twice. All jumps go to later blocks,
except one for each loop of the source, which goes from the last block of the loop back to its test. -/
theorem lowered_flow_structured {p : Source.Program} {q : Flat.Program} {names : Names}
    (h : (flattenProgram ctx p names).result = .ok q) :
    List.Forall₂ (fun body part => Structured ((Stmt.allNodes body).countP Stmt.isWhileLoop) part.2)
      p.bodies q.bodies := by
  have hbodies := flattenProgram_lowersBodies (Lower.yields_of_result h)
  exact hbodies.imp fun body part hb => hb.structured

/-- A conditional with a loop in it, inside a loop, and a function that loops as well. -/
def Source.sift : Source.Program :=
  let bool : Note := ⟨.bool, {}⟩
  let done : Expr := .call bool "done" []
  { functions := [{
      name := "done", params := [], ret := .bool, locals := [], loc := {}
      body := [.whileLoop bool (.literal bool (.bool false)) [.pass bool],
        .ret bool (.literal bool (.bool true))] }]
    body := [.whileLoop bool done
      [.ifElse bool done [.whileLoop bool done [.eval bool done]] [.pass bool]]] }

theorem sift_flow_structured : ∃ q, (flattenProgram ⟨{}, {}⟩ Source.sift {}).result = .ok q ∧
    List.Forall₂ (fun whiles part => Structured whiles part.2) [2, 1] q.bodies := by
  obtain ⟨q, hq⟩ := ok_of_isOk
    (show (flattenProgram ⟨{}, {}⟩ Source.sift {}).result.isOk = true by decide +kernel)
  refine ⟨q, hq, ?_⟩
  have hwhiles : [2, 1] =
      Source.sift.bodies.map fun body => (Stmt.allNodes body).countP Stmt.isWhileLoop := by decide
  rw [hwhiles, List.forall₂_map_left_iff]
  exact lowered_flow_structured hq

end BlockLowering
