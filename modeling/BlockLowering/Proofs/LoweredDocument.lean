import BlockLowering.CommandLine.Run
import BlockLowering.Proofs.LoweredDepth
import BlockLowering.Proofs.PrintedText

/-! What lowering writes can be read again. A program that was lowered from a document within the
nesting limit is written as a document within that limit, and is decoded from its text
unchanged. -/

namespace BlockLowering

open CommandLine (Format)
open Source (Ty)

theorem Decoder.run_eq_ok {α : Type} {decode : Decoder α} {doc : Json.Document} {a : α} :
    decode.run doc = .ok a ↔
      decode maxLevels .streaming doc.root = .ok a ∧ doc.trailing = false := by
  rw [Decoder.run, bind_eq_ok]
  cases doc.trailing with
  | true => simp
  | false => simp [pure, Except.pure]

/-- Lowering a program from a document of fewer than 128 levels gives a program whose document has
fewer than 128 levels as well: at most twelve, or those of the first. The text of this document is
read as the tree it was printed from, and decoded as the program itself. -/
theorem lowered_document_reads_back {ctx : Context} {doc : Json.Document} {p : Source.Program}
    {names : Names} {q : Flat.Program} (hd : doc.root.depth < 128)
    (hp : Source.Program.decode.run doc = .ok p)
    (hq : (flattenProgram ctx p names).result = .ok q) :
    q.encode.depth ≤ max 12 doc.root.depth ∧ q.encode.depth < 128 ∧
      Json.read (Format.json.render q) = ⟨q.encode, false⟩ ∧
      Flat.Program.decode.run (Json.read (Format.json.render q)) = .ok q := by
  have hsource := Source.Program.neverDeepens _ _ _ _ (Decoder.run_eq_ok.mp hp).1
  have hflat := flattenProgram_depth (Lower.yields_of_result hq)
  have hdepth : q.encode.depth ≤ max 12 doc.root.depth := by omega
  have hlimit : q.encode.depth < 128 := by omega
  have hread : Json.read (Format.json.render q) = ⟨q.encode, false⟩ :=
    (Flat.Program.roundTrips.plain q).read_pretty
  have hdecode := Flat.Program.roundTrips.decode_encode q Decoder.maxLevels .streaming
    (Nat.le_of_lt_succ hlimit)
  refine ⟨hdepth, hlimit, hread, ?_⟩
  rw [hread]
  exact Decoder.run_eq_ok.mpr ⟨hdecode, rfl⟩

/-- A document of nodes written as lists: a variable is set to a list with an empty list in it. -/
def Json.emptyRow : Json.Document :=
  let note (ty : Ty) : Json := .ofMembers [("ty", ty.encode)]
  let row := .ofList [.ofString "list_literal", note (.list .number), .ofList []]
  let rows := .ofList [.ofString "list_literal", note (.list (.list .number)), .ofList [row]]
  ⟨.ofMembers [("stmts",
    .ofList [.ofList [.ofString "assign", note .none, .ofString "rows", rows]])], false⟩

/-- The program in this document. -/
def Source.emptyRow : Source.Program :=
  { body := [.assign ⟨.none, {}⟩ "rows" (.listLiteral ⟨.list (.list .number), {}⟩
      [.listLiteral ⟨.list .number, {}⟩ []])] }

/-- What it is lowered to. -/
def Flat.emptyRow : Flat.Program where
  functions := []
  decls := [.temporary "newList1" (.list (.list .number)), .temporary "newList2" (.list .number)]
  classes := []
  body := [⟨"$startProg1", [.assign "newList1" (.alloc (.word 2)),
    .assign "newList2" (.alloc (.word 1)), .store (.var "newList2") (.word 0) (.num 0),
    .store (.var "newList1") (.word 0) (.num 1), .store (.var "newList1") (.word 1) (.var "newList2"),
    .assign "rows" (.operand (.var "newList1"))]⟩]

theorem emptyRow_reads_back :
    Json.emptyRow.root.depth = 9 ∧ Source.Program.decode.run Json.emptyRow = .ok Source.emptyRow ∧
    (lower {} Source.emptyRow).result = .ok Flat.emptyRow ∧
    Flat.emptyRow.encode.depth < 128 ∧
    Flat.Program.decode.run (Json.read (Format.json.render Flat.emptyRow)) = .ok Flat.emptyRow := by
  have hd : Json.emptyRow.root.depth = 9 := by decide
  have hp : Source.Program.decode.run Json.emptyRow = .ok Source.emptyRow := rfl
  have hq : (lower {} Source.emptyRow).result = .ok Flat.emptyRow := rfl
  obtain ⟨-, hlimit, -, hback⟩ := lowered_document_reads_back (by omega) hp hq
  exact ⟨hd, hp, hq, hlimit, hback⟩

end BlockLowering
