import BlockLowering.Flatten.Fragment
import Mathlib.Data.List.Basic

/-! Fragments as a monoid. Putting a fragment after another one extends the block that is open at
the end of the first, and leaves the blocks before it as they are. So a place in a body is given
by the fragment that stands before it. -/

namespace BlockLowering

open Flat (Instr Block)

theorem extendLast_concat (more : List Instr) (front : List Block) (b : Block) :
    extendLast more (front ++ [b]) = front ++ [⟨b.label, b.code ++ more⟩] := by
  induction front with
  | nil => rfl
  | cons c rest ih =>
    cases rest with
    | nil => rfl
    | cons d rest => exact congrArg (c :: ·) ih

namespace Fragment

theorem toBlocks_inj (label : String) {f g : Fragment} (h : f.toBlocks label = g.toBlocks label) :
    f = g := by
  obtain ⟨head, blocks⟩ := f
  obtain ⟨head', blocks'⟩ := g
  simpa [toBlocks] using h

/-- The block that is open at the end of a fragment, in a body that starts with `label`. -/
def openAt (label : String) (f : Fragment) : Block :=
  (f.toBlocks label).getLast (List.cons_ne_nil _ _)

/-- The blocks before the open one. -/
def closed (label : String) (f : Fragment) : List Block := (f.toBlocks label).dropLast

theorem toBlocks_eq (label : String) (f : Fragment) :
    f.toBlocks label = f.closed label ++ [f.openAt label] :=
  (List.dropLast_append_getLast (List.cons_ne_nil _ _)).symm

@[simp] theorem closed_length (label : String) (f : Fragment) :
    (f.closed label).length = f.blocks.length := by
  simp [closed, toBlocks]

theorem toBlocks_append (label : String) (f g : Fragment) :
    (f ++ g).toBlocks label = f.closed label ++
      ⟨(f.openAt label).label, (f.openAt label).code ++ g.head⟩ :: g.blocks := by
  have h : (f ++ g).toBlocks label = extendLast g.head (f.toBlocks label) ++ g.blocks := by
    obtain ⟨head, blocks⟩ := f
    cases blocks <;> rfl
  rw [h, toBlocks_eq label f, extendLast_concat, List.append_assoc, List.singleton_append]

theorem closed_openAt_of_eq {label : String} {f : Fragment} {front : List Block} {b : Block}
    (h : f.toBlocks label = front ++ [b]) : f.closed label = front ∧ f.openAt label = b := by
  rw [toBlocks_eq] at h
  obtain ⟨hc, ho⟩ := List.append_inj' h rfl
  exact ⟨hc, List.singleton_injective ho⟩

theorem append_of_nil {f : Fragment} (h : f.blocks = []) (g : Fragment) :
    f ++ g = ⟨f.head ++ g.head, g.blocks⟩ := by
  obtain ⟨head, blocks⟩ := f
  cases h
  rfl

theorem append_of_concat {f : Fragment} {front : List Block} {b : Block}
    (h : f.blocks = front ++ [b]) (g : Fragment) :
    f ++ g = ⟨f.head, front ++ ⟨b.label, b.code ++ g.head⟩ :: g.blocks⟩ := by
  apply toBlocks_inj ""
  have hf : f.toBlocks "" = (⟨"", f.head⟩ :: front) ++ [b] := by simp [toBlocks, h]
  obtain ⟨hc, ho⟩ := closed_openAt_of_eq hf
  rw [toBlocks_append, hc, ho]
  rfl

theorem append_empty (f : Fragment) : f ++ (∅ : Fragment) = f := by
  apply toBlocks_inj ""
  rw [toBlocks_append, toBlocks_eq "" f]
  simp [EmptyCollection.emptyCollection]

theorem empty_append (f : Fragment) : (∅ : Fragment) ++ f = f := rfl

theorem parts_of_nil (label : String) {f : Fragment} (h : f.blocks = []) :
    f.closed label = [] ∧ f.openAt label = ⟨label, f.head⟩ :=
  closed_openAt_of_eq (by rw [toBlocks, h, List.nil_append])

theorem parts_of_concat (label : String) {f : Fragment} {front : List Block} {b : Block}
    (h : f.blocks = front ++ [b]) :
    f.closed label = ⟨label, f.head⟩ :: front ∧ f.openAt label = b :=
  closed_openAt_of_eq (by rw [toBlocks, h, List.cons_append])

theorem parts_append_of_nil (label : String) (f : Fragment) {g : Fragment} (h : g.blocks = []) :
    (f ++ g).closed label = f.closed label ∧
      (f ++ g).openAt label = ⟨(f.openAt label).label, (f.openAt label).code ++ g.head⟩ :=
  closed_openAt_of_eq (by rw [toBlocks_append, h])

theorem parts_append_of_concat (label : String) (f : Fragment) {g : Fragment}
    {front : List Block} {b : Block} (h : g.blocks = front ++ [b]) :
    (f ++ g).closed label = f.closed label ++
        ⟨(f.openAt label).label, (f.openAt label).code ++ g.head⟩ :: front ∧
      (f ++ g).openAt label = b :=
  closed_openAt_of_eq (by rw [toBlocks_append, h, List.append_assoc, List.cons_append])

theorem append_assoc (f g h : Fragment) : f ++ g ++ h = f ++ (g ++ h) := by
  apply toBlocks_inj ""
  rcases List.eq_nil_or_concat g.blocks with hg | ⟨front, b, hg⟩
  · obtain ⟨hc, ho⟩ := parts_append_of_nil "" f hg
    rw [toBlocks_append, hc, ho, toBlocks_append, append_of_nil hg, List.append_assoc]
  · rw [List.concat_eq_append] at hg
    obtain ⟨hc, ho⟩ := parts_append_of_concat "" f hg
    rw [toBlocks_append, hc, ho, toBlocks_append, append_of_concat hg]
    simp

@[simp] theorem blocks_append_length (f g : Fragment) :
    (f ++ g).blocks.length = f.blocks.length + g.blocks.length := by
  have h := congrArg List.length (toBlocks_append "" f g)
  simp only [toBlocks, List.length_cons, List.length_append, closed_length] at h
  omega

theorem getElem?_toBlocks_append (label : String) (f g : Fragment) :
    ((f ++ g).toBlocks label)[f.blocks.length]? =
      some ⟨(f.openAt label).label, (f.openAt label).code ++ g.head⟩ := by
  rw [toBlocks_append, List.getElem?_append_right (by simp)]
  simp

theorem head_append (f g : Fragment) : ∃ more, (f ++ g).head = f.head ++ more := by
  rcases List.eq_nil_or_concat f.blocks with hf | ⟨front, b, hf⟩
  · exact ⟨g.head, by rw [append_of_nil hf]⟩
  · rw [List.concat_eq_append] at hf
    exact ⟨[], by rw [append_of_concat hf, List.append_nil]⟩

theorem openAt_append_ofCode (label : String) (f : Fragment) (code : List Instr) :
    (f ++ ofCode code).openAt label =
      ⟨(f.openAt label).label, (f.openAt label).code ++ code⟩ :=
  (parts_append_of_nil label f rfl).2

/-- The last instructions of a block and the label of the next one. -/
def closing (code : List Instr) (label : String) : Fragment := ⟨code, [⟨label, []⟩]⟩

theorem blocks_closing_length (code : List Instr) (label : String) :
    (closing code label).blocks.length = 1 := rfl

theorem ofCode_append_openBlock (code : List Instr) (label : String) :
    ofCode code ++ openBlock label = closing code label := by
  rw [append_of_nil rfl]
  simp [ofCode, openBlock, closing]

theorem openAt_append_closing (label next : String) (f : Fragment) (code : List Instr) :
    (f ++ closing code next).openAt label = ⟨next, []⟩ :=
  (@parts_append_of_concat label f (closing code next) [] ⟨next, []⟩ rfl).2

theorem ofCode_append_ofCode (code more : List Instr) :
    ofCode code ++ ofCode more = ofCode (code ++ more) := rfl

/-- The labels of the blocks a fragment opens. -/
def labels (f : Fragment) : List String := f.blocks.map (·.label)

@[simp] theorem labels_empty : (∅ : Fragment).labels = [] := rfl

@[simp] theorem labels_ofCode (code : List Instr) : (ofCode code).labels = [] := rfl

@[simp] theorem labels_closing (code : List Instr) (label : String) :
    (closing code label).labels = [label] := rfl

@[simp] theorem labels_append (f g : Fragment) : (f ++ g).labels = f.labels ++ g.labels := by
  have h := congrArg (List.map (·.label)) (toBlocks_append "" f g)
  have hf := congrArg (List.map (·.label)) (toBlocks_eq "" f)
  simp only [List.map_append, List.map_cons, List.map_nil] at h hf
  rw [List.append_cons, ← hf] at h
  simpa [toBlocks, labels] using h

/-- All instructions of a fragment, in order. -/
def instrs (f : Fragment) : List Instr := f.head ++ f.blocks.flatMap (·.code)

theorem instrs_toBlocks (label : String) (f : Fragment) :
    (f.toBlocks label).flatMap (·.code) = f.instrs := rfl

@[simp] theorem instrs_append (f g : Fragment) : (f ++ g).instrs = f.instrs ++ g.instrs := by
  rw [← instrs_toBlocks "", toBlocks_append, ← instrs_toBlocks "" f, toBlocks_eq "" f]
  simp [instrs]

@[simp] theorem instrs_empty : (∅ : Fragment).instrs = [] := rfl

@[simp] theorem instrs_ofCode (code : List Instr) : (ofCode code).instrs = code :=
  List.append_nil code

@[simp] theorem instrs_closing (code : List Instr) (label : String) :
    (closing code label).instrs = code :=
  List.append_nil code

/-- `P` holds of the code of every block, that of the block the fragment continues included. -/
def Blockwise (P : List Instr → Prop) (f : Fragment) : Prop := P f.head ∧ ∀ b ∈ f.blocks, P b.code

namespace Blockwise

variable {P : List Instr → Prop}

theorem toBlocks {f : Fragment} (h : f.Blockwise P) (label : String) :
    ∀ b ∈ f.toBlocks label, P b.code :=
  List.forall_mem_cons.mpr h

theorem ofCode {code : List Instr} (h : P code) : (Fragment.ofCode code).Blockwise P :=
  ⟨h, by simp [Fragment.ofCode]⟩

theorem closing {code : List Instr} (h : P code) (hnil : P []) (label : String) :
    (Fragment.closing code label).Blockwise P :=
  ⟨h, by simpa [Fragment.closing] using hnil⟩

theorem append {f g : Fragment} (hf : f.Blockwise P)
    (hP : ∀ code more, P code → P more → P (code ++ more)) (hg : g.Blockwise P) :
    (f ++ g).Blockwise P := by
  rcases List.eq_nil_or_concat f.blocks with h | ⟨front, b, h⟩
  · rw [append_of_nil h]
    exact ⟨hP _ _ hf.1 hg.1, hg.2⟩
  · rw [List.concat_eq_append] at h
    obtain ⟨hhead, hblocks⟩ := hf
    rw [append_of_concat h]
    rw [h, List.forall_mem_append, List.forall_mem_singleton] at hblocks
    refine ⟨hhead, ?_⟩
    simp only [List.forall_mem_append, List.forall_mem_cons]
    exact ⟨hblocks.1, hP _ _ hblocks.2 hg.1, hg.2⟩

end Blockwise

/-- The fragment `f` stands in `whole` after `front`. -/
def Within (whole f front : Fragment) : Prop := ∃ back, whole = front ++ f ++ back

theorem Within.split {whole f g front : Fragment} (h : Within whole (f ++ g) front) :
    Within whole f front ∧ Within whole g (front ++ f) := by
  obtain ⟨back, rfl⟩ := h
  exact ⟨⟨g ++ back, by simp only [append_assoc]⟩, ⟨back, by simp only [append_assoc]⟩⟩

end Fragment

end BlockLowering
