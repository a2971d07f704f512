import BlockLowering.Flat.Violation
import Mathlib.Data.List.Nodup

/-! What it means for flat code to keep the rules, said without reference to the places that break
them. A program without violations is one that keeps the rules, and the other way round. -/

namespace BlockLowering.Flat

/-- Jumps stand at the end of the code only. -/
def JumpsLast (code : List Instr) : Prop := ∀ i ∈ code.dropLast, i.targets = []

/-- The rules for one body, its labels apart. -/
structure ValidBody (blocks : List Block) : Prop where
  nonempty : blocks ≠ []
  terminated : ∀ b ∈ blocks.dropLast, b.isTerminated = true
  jumpsLast : ∀ b ∈ blocks, JumpsLast b.code
  targets : ∀ b ∈ blocks, ∀ i ∈ b.code, ∀ target ∈ i.targets, target ∈ blocks.map (·.label)

/-- The rules for a program: its bodies keep theirs, and no two blocks share a label. -/
structure Program.Valid (p : Program) : Prop where
  bodies : ∀ body ∈ p.bodies, ValidBody body.2
  labels : (p.blocks.map (·.label)).Nodup

theorem repeated_eq_nil_iff {seen labels : List String} :
    repeated seen labels = [] ↔ labels.Nodup ∧ ∀ l ∈ labels, l ∉ seen := by
  induction labels generalizing seen with
  | nil => simp [repeated]
  | cons l ls ih =>
    by_cases hl : l ∈ seen
    · simp [repeated, hl]
    · simp only [repeated, hl, if_false, ih, List.nodup_cons, List.mem_cons]
      constructor
      · rintro ⟨hn, hs⟩
        refine ⟨⟨fun hm => hs l hm (Or.inl rfl), hn⟩, fun x hx => ?_⟩
        rcases hx with rfl | hx
        · exact hl
        · exact fun hm => hs x hx (Or.inr hm)
      · rintro ⟨⟨hl', hn⟩, hs⟩
        refine ⟨hn, fun x hx hm => ?_⟩
        rcases hm with rfl | hm
        · exact hl' hx
        · exact hs x (Or.inr hx) hm

theorem jumpsLast_cons {i : Instr} {rest : List Instr} :
    JumpsLast (i :: rest) ↔ (rest ≠ [] → i.targets = []) ∧ JumpsLast rest := by
  cases rest with
  | nil => simp [JumpsLast]
  | cons j rest => simp [JumpsLast]

theorem codeViolations_eq_nil_iff {labels : List String} {label : String} {code : List Instr} :
    codeViolations labels label code = [] ↔
      JumpsLast code ∧ ∀ i ∈ code, ∀ target ∈ i.targets, target ∈ labels := by
  induction code with
  | nil => simp [codeViolations, JumpsLast]
  | cons i rest ih =>
    simp only [codeViolations, List.append_eq_nil_iff, ih, jumpsLast_cons, List.forall_mem_cons,
      List.map_eq_nil_iff, List.filter_eq_nil_iff, ite_eq_right_iff]
    have hearly : (i.targets ≠ [] ∧ rest ≠ [] → [Violation.earlyJump label i] = []) ↔
        (rest ≠ [] → i.targets = []) := by
      constructor
      · intro h hr
        by_contra ht
        cases h ⟨ht, hr⟩
      · rintro h ⟨ht, hr⟩
        exact absurd (h hr) ht
    rw [hearly]
    simp only [decide_not, Bool.not_eq_true', decide_eq_false_iff_not, Decidable.not_not]
    exact ⟨fun ⟨⟨h₁, h₂⟩, h₃, h₄⟩ => ⟨⟨h₁, h₃⟩, h₂, h₄⟩,
      fun ⟨⟨h₁, h₃⟩, h₂, h₄⟩ => ⟨⟨h₁, h₂⟩, h₃, h₄⟩⟩

theorem blockViolations_eq_nil_iff {labels : List String} {blocks : List Block} :
    blockViolations labels blocks = [] ↔ (∀ b ∈ blocks.dropLast, b.isTerminated = true) ∧
      ∀ b ∈ blocks, codeViolations labels b.label b.code = [] := by
  induction blocks with
  | nil => simp [blockViolations]
  | cons b rest ih =>
    cases rest with
    | nil => simp [blockViolations]
    | cons c rest =>
      have hterm : (if c :: rest ≠ [] ∧ (!b.isTerminated) = true then
          [Violation.unterminated b.label] else []) = [] ↔ b.isTerminated = true := by
        cases b.isTerminated <;> simp
      have hdrop : (∀ d ∈ (b :: c :: rest).dropLast, d.isTerminated = true) ↔
          b.isTerminated = true ∧ ∀ d ∈ (c :: rest).dropLast, d.isTerminated = true :=
        List.forall_mem_cons
      have hall : (∀ d ∈ b :: c :: rest, codeViolations labels d.label d.code = []) ↔
          codeViolations labels b.label b.code = [] ∧
            ∀ d ∈ c :: rest, codeViolations labels d.label d.code = [] :=
        List.forall_mem_cons
      rw [blockViolations, List.append_eq_nil_iff, List.append_eq_nil_iff, ih, hterm, hdrop, hall]
      exact ⟨fun ⟨⟨h₁, h₂⟩, h₃, h₄⟩ => ⟨⟨h₁, h₃⟩, h₂, h₄⟩,
        fun ⟨⟨h₁, h₃⟩, h₂, h₄⟩ => ⟨⟨h₁, h₂⟩, h₃, h₄⟩⟩

theorem bodyViolations_eq_nil_iff {blocks : List Block} :
    bodyViolations blocks = [] ↔ ValidBody blocks ∧ (blocks.map (·.label)).Nodup := by
  by_cases hb : blocks = []
  · simp only [bodyViolations, hb, if_true]
    constructor
    · intro h
      cases h
    · exact fun h => absurd rfl h.1.nonempty
  · simp only [bodyViolations, hb, if_false, List.append_eq_nil_iff, List.map_eq_nil_iff,
      repeated_eq_nil_iff, blockViolations_eq_nil_iff, codeViolations_eq_nil_iff]
    constructor
    · rintro ⟨⟨hn, _⟩, ht, hc⟩
      exact ⟨⟨hb, ht, fun b hm => (hc b hm).1, fun b hm => (hc b hm).2⟩, hn⟩
    · rintro ⟨hv, hn⟩
      exact ⟨⟨hn, by simp⟩, hv.terminated, fun b hm => ⟨hv.jumpsLast b hm, hv.targets b hm⟩⟩

theorem programViolations_eq_nil_iff {seen : List String} {bodies : List (String × List Block)} :
    programViolations seen bodies = [] ↔ (∀ body ∈ bodies, ValidBody body.2) ∧
      (bodies.flatMap fun body => body.2.map (·.label)).Nodup ∧
      ∀ l ∈ bodies.flatMap (fun body => body.2.map (·.label)), l ∉ seen := by
  induction bodies generalizing seen with
  | nil => simp [programViolations]
  | cons body rest ih =>
    obtain ⟨name, blocks⟩ := body
    simp only [programViolations, List.append_eq_nil_iff, List.map_eq_nil_iff, ih,
      bodyViolations_eq_nil_iff, repeated_eq_nil_iff, List.forall_mem_cons, List.flatMap_cons,
      List.nodup_append, List.mem_append]
    constructor
    · rintro ⟨⟨⟨hv, hn⟩, _, hs⟩, hrest, hnrest, hsrest⟩
      refine ⟨⟨hv, hrest⟩, ⟨hn, hnrest, fun l hl l' hl' he => ?_⟩, fun l hl => ?_⟩
      · exact hsrest l' hl' (Or.inl (he ▸ hl))
      · rcases hl with hl | hl
        · exact hs l hl
        · exact fun hm => hsrest l hl (Or.inr hm)
    · rintro ⟨⟨hv, hrest⟩, ⟨hn, hnrest, hd⟩, hs⟩
      refine ⟨⟨⟨hv, hn⟩, hn, fun l hl => hs l (Or.inl hl)⟩, hrest, hnrest, fun l hl hm => ?_⟩
      rcases hm with hm | hm
      · exact hd l hm l hl rfl
      · exact hs l (Or.inr hl) hm

theorem Program.labels_bodies (p : Program) :
    (p.bodies.flatMap fun body => body.2.map (·.label)) = p.blocks.map (·.label) := by
  simp [bodies, blocks, List.flatMap_map, List.map_flatMap, List.flatMap_assoc]

theorem Program.valid_iff (p : Program) : p.Valid ↔ p.violations = [] := by
  rw [violations, programViolations_eq_nil_iff, p.labels_bodies]
  exact ⟨fun h => ⟨h.bodies, h.labels, by simp⟩, fun h => ⟨h.1, h.2.1⟩⟩

end BlockLowering.Flat
