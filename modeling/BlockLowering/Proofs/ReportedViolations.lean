import BlockLowering.Proofs.ValidCode

/-! Every fault of a program is reported, once and under the name of its body. The rules are read
place by place here: a body, a label, the end of a block, an instruction, a target. A list of
reports is right if its members can be given different places such that a report stands at a place
exactly where the rule is broken there. Lists of reports that are right for different places can be
put together, and so the walks over code, blocks and bodies are taken apart. -/

namespace BlockLowering.Flat

/-- Where a body can break a rule. A label is looked at twice, once among the labels of its own
body and once among those of the whole program. -/
inductive Spot where
  | body
  | label (n : Nat)
  | ending (n : Nat)
  | instr (n i : Nat)
  | target (n i j : Nat)
  | programLabel (n : Nat)
  deriving DecidableEq

/-- What rule a body breaks in a spot; `earlier` are the labels of the bodies before it. -/
def Breaks (earlier : List String) (blocks : List Block) : Spot → Violation → Prop
  | .body, v => blocks = [] ∧ v = .noBlocks
  | .label n, v => ∃ b, blocks[n]? = some b ∧ b.label ∈ (blocks.take n).map (·.label) ∧
      v = .repeatedLabel b.label
  | .ending n, v => ∃ b, blocks[n]? = some b ∧ n + 1 < blocks.length ∧
      (∀ i, b.code.getLast? = some i → i.isTransfer = false) ∧ v = .unterminated b.label
  | .instr n i, v => ∃ b instr, blocks[n]? = some b ∧ b.code[i]? = some instr ∧
      instr.targets ≠ [] ∧ i + 1 < b.code.length ∧ v = .earlyJump b.label instr
  | .target n i j, v => ∃ b instr target, blocks[n]? = some b ∧ b.code[i]? = some instr ∧
      instr.targets[j]? = some target ∧ target ∉ blocks.map (·.label) ∧
      v = .missingTarget b.label target
  | .programLabel n, v => ∃ b, blocks[n]? = some b ∧
      (b.label ∈ earlier ∨ b.label ∈ (blocks.take n).map (·.label)) ∧ v = .sharedLabel b.label

/-- Body number `k`, which is called `name`, breaks a rule. -/
def Program.Breaks (p : Program) (k : Nat) (spot : Spot) (name : String) (v : Violation) : Prop :=
  ∃ blocks, p.bodies[k]? = some (name, blocks) ∧
    Flat.Breaks ((p.bodies.take k).flatMap fun body => body.2.map (·.label)) blocks spot v

/-- The members of `l`, given places, are what `R` holds of, and no place has two. -/
def Reports {ι α : Type} (R : ι → α → Prop) (l : List α) : Prop :=
  ∃ found : List (ι × α), (found.map (·.1)).Nodup ∧ (∀ x a, (x, a) ∈ found ↔ R x a) ∧
    found.map (·.2) = l

namespace Reports

variable {ι ι' κ α β : Type} {R : κ → α → Prop} {l m : List α}

theorem nil (h : ∀ x a, ¬ R x a) : Reports R [] :=
  ⟨[], List.nodup_nil, by simpa using h, rfl⟩

theorem single {x : κ} {a : α} (h : ∀ y b, R y b ↔ y = x ∧ b = a) : Reports R [a] :=
  ⟨[(x, a)], List.nodup_singleton x, by simp [h], rfl⟩

/-- A report that is made under a condition. -/
theorem optional {c : Prop} [Decidable c] {x : κ} {a : α} (h : ∀ y b, R y b ↔ y = x ∧ c ∧ b = a) :
    Reports R (if c then [a] else []) := by
  by_cases hc : c
  · rw [if_pos hc]
    exact .single (by simpa [hc] using h)
  · rw [if_neg hc]
    exact .nil (by simp [h, hc])

theorem congr {R' : κ → α → Prop} (h : Reports R l) (hR : ∀ x a, R x a ↔ R' x a) :
    Reports R' l := by
  obtain ⟨found, hn, hm, hl⟩ := h
  exact ⟨found, hn, fun x a => (hm x a).trans (hR x a), hl⟩

theorem map (h : Reports R l) (f : α → β) :
    Reports (fun x b => ∃ a, R x a ∧ b = f a) (l.map f) := by
  obtain ⟨found, hn, hm, rfl⟩ := h
  refine ⟨found.map fun y => (y.1, f y.2), ?_, fun x b => ?_, ?_⟩
  · rwa [List.map_map]
  · simp only [List.mem_map, Prod.mk.injEq, Prod.exists, ← hm]
    constructor
    · rintro ⟨y, a, ha, rfl, rfl⟩
      exact ⟨a, ha, rfl⟩
    · rintro ⟨a, ha, rfl⟩
      exact ⟨x, a, ha, rfl, rfl⟩
  · rw [List.map_map, List.map_map]
    rfl

theorem place (h : Reports R l) {f : κ → ι} (hf : f.Injective) :
    Reports (fun z a => ∃ x, z = f x ∧ R x a) l := by
  obtain ⟨found, hn, hm, rfl⟩ := h
  refine ⟨found.map fun x => (f x.1, x.2), ?_, fun z a => ?_, ?_⟩
  · have hnodup := hn.map hf
    rwa [List.map_map] at hnodup ⊢
  · simp only [List.mem_map, Prod.mk.injEq, Prod.exists, ← hm]
    constructor
    · rintro ⟨x, b, hx, rfl, rfl⟩
      exact ⟨x, rfl, hx⟩
    · rintro ⟨x, rfl, hx⟩
      exact ⟨x, a, hx, rfl, rfl⟩
  · rw [List.map_map]
    rfl

theorem append {R' : κ → α → Prop} (h : Reports R l) (h' : Reports R' m)
    (hd : ∀ x a b, R x a → ¬ R' x b) : Reports (fun x a => R x a ∨ R' x a) (l ++ m) := by
  obtain ⟨found, hn, hm, rfl⟩ := h
  obtain ⟨found', hn', hm', rfl⟩ := h'
  refine ⟨found ++ found', ?_, fun x a => ?_, List.map_append⟩
  · rw [List.map_append]
    refine hn.append hn' fun x hx hx' => ?_
    obtain ⟨⟨_, a⟩, ha, rfl⟩ := List.mem_map.mp hx
    obtain ⟨⟨x, b⟩, hb, rfl⟩ := List.mem_map.mp hx'
    exact hd x a b ((hm x a).mp ha) ((hm' x b).mp hb)
  · rw [List.mem_append, hm, hm']

theorem join {R₁ : ι → α → Prop} {R₂ : ι' → α → Prop} {f : ι → κ} {g : ι' → κ}
    (h₁ : Reports R₁ l) (h₂ : Reports R₂ m) (hf : f.Injective) (hg : g.Injective)
    (hfg : ∀ x y, f x ≠ g y)
    (hR : ∀ z a, R z a ↔ (∃ x, z = f x ∧ R₁ x a) ∨ ∃ y, z = g y ∧ R₂ y a) :
    Reports R (l ++ m) := by
  have hall := (h₁.place hf).append (h₂.place hg) ?_
  · exact hall.congr fun z a => (hR z a).symm
  · rintro _ a b ⟨x, rfl, -⟩ ⟨y, he, -⟩
    exact hfg x y he

/-- Reports on the first item of a list, then those on the others. -/
theorem cons {R₁ : ι → α → Prop} {R₂ : Nat × ι → α → Prop} {R : Nat × ι → α → Prop}
    (h₁ : Reports R₁ l) (h₂ : Reports R₂ m) (hzero : ∀ x a, R (0, x) a ↔ R₁ x a)
    (hsucc : ∀ n x a, R (n + 1, x) a ↔ R₂ (n, x) a) : Reports R (l ++ m) := by
  refine h₁.join h₂ (f := fun x => (0, x)) (g := fun y => (y.1 + 1, y.2)) ?_ ?_ ?_ ?_
  · intro x y he
    exact (Prod.mk.inj he).2
  · rintro ⟨n, x⟩ ⟨n', y⟩ he
    obtain ⟨hn, rfl⟩ := Prod.mk.inj he
    obtain rfl : n = n' := by omega
    rfl
  · intro x y he
    cases (Prod.mk.inj he).1
  · rintro ⟨n, x⟩ a
    cases n with
    | zero => simp [hzero]
    | succ n => simp [hsucc]

end Reports

theorem reports_filter (ts : List String) (P : String → Prop) [DecidablePred P] :
    Reports (fun (j : Nat) t => ts[j]? = some t ∧ P t) (ts.filter P) := by
  induction ts with
  | nil => exact .nil (by simp)
  | cons t ts ih =>
    have hsplit : (t :: ts).filter P = (if P t then [t] else []) ++ ts.filter P := by
      by_cases ht : P t <;> simp [ht]
    have hfirst : Reports (fun (_ : Unit) a => P t ∧ a = t) (if P t then [t] else []) :=
      .optional (x := ()) (by simp)
    rw [hsplit]
    refine hfirst.join ih (f := fun _ => 0) (g := (· + 1)) (fun _ _ _ => rfl)
      (fun _ _ => Nat.succ.inj) (by simp) fun j a => ?_
    cases j with
    | zero =>
      rw [List.getElem?_cons_zero, Option.some.injEq]
      constructor
      · rintro ⟨rfl, ht⟩
        exact Or.inl ⟨(), rfl, ht, rfl⟩
      · rintro (⟨-, -, ht, rfl⟩ | ⟨y, hy, -⟩)
        · exact ⟨rfl, ht⟩
        · omega
    | succ j => simp

/-- The first label, then the others once it has been seen. -/
theorem reports_label (seen : List String) (l : String) {seen' ls rest : List String}
    (hs : ∀ a, a ∈ seen' ↔ a = l ∨ a ∈ seen)
    (h : Reports (fun (n : Nat) a => ls[n]? = some a ∧ (a ∈ seen' ∨ a ∈ ls.take n)) rest) :
    Reports (fun (n : Nat) a => (l :: ls)[n]? = some a ∧ (a ∈ seen ∨ a ∈ (l :: ls).take n))
      ((if l ∈ seen then [l] else []) ++ rest) := by
  have hfirst : Reports (fun (_ : Unit) a => l ∈ seen ∧ a = l) (if l ∈ seen then [l] else []) :=
    .optional (x := ()) (by simp)
  refine hfirst.join h (f := fun _ => 0) (g := (· + 1)) (fun _ _ _ => rfl)
    (fun _ _ => Nat.succ.inj) (by simp) fun n a => ?_
  cases n with
  | zero =>
    rw [List.getElem?_cons_zero, Option.some.injEq, List.take_zero]
    constructor
    · rintro ⟨rfl, hl | hl⟩
      · exact Or.inl ⟨(), rfl, hl, rfl⟩
      · cases hl
    · rintro (⟨-, -, hl, rfl⟩ | ⟨y, hy, -⟩)
      · exact ⟨rfl, Or.inl hl⟩
      · omega
  | succ n =>
    simp only [List.getElem?_cons_succ, List.take_succ_cons, List.mem_cons, hs]
    constructor
    · rintro ⟨ha, hm⟩
      refine Or.inr ⟨n, rfl, ha, ?_⟩
      tauto
    · rintro (⟨-, hn, -⟩ | ⟨y, hy, ha, hm⟩)
      · omega
      · obtain rfl : n = y := by omega
        refine ⟨ha, ?_⟩
        tauto

theorem reports_repeated (seen labels : List String) :
    Reports (fun (n : Nat) l => labels[n]? = some l ∧ (l ∈ seen ∨ l ∈ labels.take n))
      (repeated seen labels) := by
  induction labels generalizing seen with
  | nil => exact .nil (by simp)
  | cons l ls ih =>
    by_cases hl : l ∈ seen
    · have hall := reports_label seen l (fun a => ?_) (ih seen)
      · simpa [repeated, hl] using hall
      · constructor
        · exact Or.inr
        · rintro (rfl | ha)
          · exact hl
          · exact ha
    · have hall := reports_label seen l (fun a => List.mem_cons) (ih (l :: seen))
      simpa [repeated, hl] using hall

/-- Reports on the items of a list, each with those that come after it. -/
theorem reports_items {ι α β : Type} {R : β → List β → ι → α → Prop} {f : List β → List α}
    {g : β → List β → List α} (hnil : f [] = []) (hcons : ∀ b rest, f (b :: rest) = g b rest ++ f rest)
    (h : ∀ b rest, Reports (R b rest) (g b rest)) (items : List β) :
    Reports (fun (x : Nat × ι) a => ∃ b, items[x.1]? = some b ∧ R b (items.drop (x.1 + 1)) x.2 a)
      (f items) := by
  induction items with
  | nil =>
    rw [hnil]
    exact .nil (by simp)
  | cons b rest ih =>
    rw [hcons]
    exact (h b rest).cons ih (by simp) (by simp)

/-- What an instruction breaks: by itself, or by one of its targets. -/
def InstrBreaks (labels : List String) (label : String) (i : Instr) (rest : List Instr) :
    Option Nat → Violation → Prop
  | none, v => i.targets ≠ [] ∧ rest ≠ [] ∧ v = .earlyJump label i
  | some j, v => ∃ target, i.targets[j]? = some target ∧ target ∉ labels ∧
      v = .missingTarget label target

theorem reports_instr (labels : List String) (label : String) (i : Instr) (rest : List Instr) :
    Reports (InstrBreaks labels label i rest)
      ((if i.targets ≠ [] ∧ rest ≠ [] then [.earlyJump label i] else []) ++
        (i.targets.filter (· ∉ labels)).map (.missingTarget label)) := by
  have hearly : Reports
      (fun (_ : Unit) v => i.targets ≠ [] ∧ rest ≠ [] ∧ v = .earlyJump label i)
      (if i.targets ≠ [] ∧ rest ≠ [] then [Violation.earlyJump label i] else []) :=
    .optional (x := ()) (by simp [and_assoc])
  have hmissing := (reports_filter i.targets (· ∉ labels)).map (Violation.missingTarget label)
  refine hearly.join hmissing (f := fun _ => none) (g := some) (fun _ _ _ => rfl)
    (fun _ _ => Option.some.inj) (by simp) fun x v => ?_
  cases x with
  | none => simp [InstrBreaks]
  | some j => simp [InstrBreaks, and_assoc]

theorem reports_code (labels : List String) (label : String) (code : List Instr) :
    Reports (fun (x : Nat × Option Nat) v => ∃ i, code[x.1]? = some i ∧
        InstrBreaks labels label i (code.drop (x.1 + 1)) x.2 v)
      (codeViolations labels label code) :=
  reports_items rfl (fun _ _ => rfl) (reports_instr labels label) code

/-- What a block breaks: at its end, or by its code. -/
def BlockBreaks (labels : List String) (b : Block) (rest : List Block) :
    Option (Nat × Option Nat) → Violation → Prop
  | none, v => rest ≠ [] ∧ (!b.isTerminated) = true ∧ v = .unterminated b.label
  | some x, v => ∃ i, b.code[x.1]? = some i ∧
      InstrBreaks labels b.label i (b.code.drop (x.1 + 1)) x.2 v

theorem reports_block (labels : List String) (b : Block) (rest : List Block) :
    Reports (BlockBreaks labels b rest)
      ((if rest ≠ [] ∧ !b.isTerminated then [.unterminated b.label] else []) ++
        codeViolations labels b.label b.code) := by
  have hending : Reports
      (fun (_ : Unit) v => rest ≠ [] ∧ (!b.isTerminated) = true ∧ v = .unterminated b.label)
      (if rest ≠ [] ∧ !b.isTerminated then [Violation.unterminated b.label] else []) :=
    .optional (x := ()) (by simp [and_assoc])
  refine hending.join (reports_code labels b.label b.code) (f := fun _ => none) (g := some)
    (fun _ _ _ => rfl) (fun _ _ => Option.some.inj) (by simp) fun x v => ?_
  cases x <;> simp [BlockBreaks]

theorem reports_blocks (labels : List String) (blocks : List Block) :
    Reports (fun (x : Nat × Option (Nat × Option Nat)) v => ∃ b, blocks[x.1]? = some b ∧
        BlockBreaks labels b (blocks.drop (x.1 + 1)) x.2 v)
      (blockViolations labels blocks) :=
  reports_items rfl (fun _ _ => rfl) (reports_block labels) blocks

/-- The spot of what a block breaks. -/
def Spot.ofBlock : Nat × Option (Nat × Option Nat) → Spot
  | (n, none) => .ending n
  | (n, some (i, none)) => .instr n i
  | (n, some (i, some j)) => .target n i j

theorem Spot.ofBlock_injective : Spot.ofBlock.Injective := by
  rintro ⟨n, _ | ⟨i, _ | j⟩⟩ ⟨n', _ | ⟨i', _ | j'⟩⟩ h <;> cases h <;> rfl

theorem isTerminated_eq_false_iff (b : Block) :
    (!b.isTerminated) = true ↔ ∀ i, b.code.getLast? = some i → i.isTransfer = false := by
  cases hl : b.code.getLast? with
  | none => simp [Block.isTerminated, Block.terminator?, hl]
  | some i =>
    cases ht : i.isTransfer <;> simp [Block.isTerminated, Block.terminator?, hl, ht]

theorem reports_labels (c : String → Violation) (seen : List String) (blocks : List Block) :
    Reports (fun (n : Nat) v => ∃ b, blocks[n]? = some b ∧
        (b.label ∈ seen ∨ b.label ∈ (blocks.take n).map (·.label)) ∧ v = c b.label)
      ((repeated seen (blocks.map (·.label))).map c) := by
  refine ((reports_repeated seen (blocks.map (·.label))).map c).congr fun n v => ?_
  simp only [List.getElem?_map, Option.map_eq_some_iff, ← List.map_take]
  constructor
  · rintro ⟨_, ⟨⟨b, hb, rfl⟩, hm⟩, hv⟩
    exact ⟨b, hb, hm, hv⟩
  · rintro ⟨b, hb, hm, hv⟩
    exact ⟨b.label, ⟨⟨b, hb, rfl⟩, hm⟩, hv⟩

theorem reports_body (earlier : List String) (blocks : List Block) :
    Reports (Breaks earlier blocks)
      (bodyViolations blocks ++ (repeated earlier (blocks.map (·.label))).map .sharedLabel) := by
  by_cases hb : blocks = []
  · subst hb
    refine .single (x := .body) fun spot v => ?_
    cases spot <;> simp [Breaks]
  · have hlabels := (reports_labels .repeatedLabel [] blocks).place (f := Spot.label)
      fun _ _ h => Spot.label.inj h
    have hblocks := (reports_blocks (blocks.map (·.label)) blocks).place Spot.ofBlock_injective
    have hshared := (reports_labels .sharedLabel earlier blocks).place (f := Spot.programLabel)
      fun _ _ h => Spot.programLabel.inj h
    have hall := (hlabels.append hblocks ?_).append hshared ?_
    · rw [bodyViolations, if_neg hb]
      refine hall.congr fun spot v => ?_
      cases spot with
      | body => simp [Breaks, Spot.ofBlock, Option.exists, hb]
      | label n => simp [Breaks, Spot.ofBlock, Option.exists]
      | ending n =>
        simp [Breaks, BlockBreaks, Spot.ofBlock, Option.exists, ← isTerminated_eq_false_iff]
      | instr n i =>
        simp [Breaks, BlockBreaks, InstrBreaks, Spot.ofBlock, Option.exists]
      | target n i j =>
        simp [Breaks, BlockBreaks, InstrBreaks, Spot.ofBlock, Option.exists]
      | programLabel n => simp [Breaks, Spot.ofBlock, Option.exists]
    · rintro _ v v' ⟨n, rfl, -⟩ ⟨⟨n', _ | ⟨i, _ | j⟩⟩, h, -⟩ <;> cases h
    · rintro _ v v' (⟨n, rfl, -⟩ | ⟨⟨n', _ | ⟨i, _ | j⟩⟩, rfl, -⟩) ⟨m, h, -⟩ <;> cases h

theorem breaks_congr {earlier earlier' : List String} (h : ∀ l, l ∈ earlier ↔ l ∈ earlier')
    {blocks : List Block} {spot : Spot} {v : Violation} :
    Breaks earlier blocks spot v ↔ Breaks earlier' blocks spot v := by
  cases spot with
  | programLabel n => simp only [Breaks, h]
  | _ => exact Iff.rfl

theorem reports_bodies (seen : List String) (bodies : List (String × List Block)) :
    Reports (fun (x : Nat × Spot) (v : String × Violation) => ∃ blocks,
        bodies[x.1]? = some (v.1, blocks) ∧
        Breaks (seen ++ (bodies.take x.1).flatMap fun body => body.2.map (·.label)) blocks x.2 v.2)
      (programViolations seen bodies) := by
  induction bodies generalizing seen with
  | nil => exact .nil (by simp)
  | cons body rest ih =>
    obtain ⟨name, blocks⟩ := body
    have hfirst := (reports_body seen blocks).map (name, ·)
    have hrest := ih (blocks.map (·.label) ++ seen)
    refine hfirst.cons hrest ?_ ?_
    · rintro spot ⟨name', v⟩
      simp only [List.getElem?_cons_zero, List.take_zero, List.flatMap_nil, List.append_nil,
        Option.some.injEq, Prod.mk.injEq]
      constructor
      · rintro ⟨_, ⟨rfl, rfl⟩, hv⟩
        exact ⟨v, hv, rfl, rfl⟩
      · rintro ⟨v', hv, rfl, rfl⟩
        exact ⟨blocks, ⟨rfl, rfl⟩, hv⟩
    · rintro k spot ⟨name', v⟩
      have hseen : ∀ l, l ∈ seen ++ ((name, blocks) :: rest.take k).flatMap
            (fun body => body.2.map (·.label)) ↔
          l ∈ blocks.map (·.label) ++ seen ++ (rest.take k).flatMap
            (fun body => body.2.map (·.label)) := by
        intro l
        simp only [List.flatMap_cons, List.mem_append]
        tauto
      simp only [List.getElem?_cons_succ, List.take_succ_cons, breaks_congr hseen]

/-- The validator accepts the programs that keep the rules. Of any other program it reports all
faults, each of them once and under the name of its body, and nothing else. -/
theorem violations_reported_once (p : Program) :
    (p.complaints = [] ↔ p.Valid) ∧
    ∃ found : List ((Nat × Spot) × String × Violation),
      (found.map (·.1)).Nodup ∧
      (∀ k spot name v, ((k, spot), name, v) ∈ found ↔ p.Breaks k spot name v) ∧
      p.complaints = found.map fun report => report.2.1 ++ ": " ++ report.2.2.message := by
  constructor
  · rw [Program.complaints, List.map_eq_nil_iff, p.valid_iff]
  · obtain ⟨found, hn, hm, hl⟩ := reports_bodies [] p.bodies
    refine ⟨found, hn, fun k spot name v => hm (k, spot) (name, v), ?_⟩
    rw [Program.complaints, Program.violations, ← hl, List.map_map]
    rfl

/-- A label that a body has twice is reported twice. -/
example : Program.complaints ⟨[], [], [], [⟨"a", [.jump "b"]⟩, ⟨"a", []⟩]⟩ =
    ["<top>: Duplicate block label a", "<top>: Block a references non-existent block b",
      "<top>: label a is already used by another body"] := by
  decide

end BlockLowering.Flat
