import BlockLowering.Flat.Listing
import BlockLowering.Proofs.RoundTrips
import Mathlib.Algebra.Ring.Nat

/-! The lines of a listing. A listing is made of rows, and reading its lines gives these rows back
as long as none of them has a line break of its own; the only texts in a row that are not the
listing's own are the names of the program. So every line is one item, and a method is listed as a
function is, two columns further in. -/

namespace BlockLowering

namespace Text

/-- Text that stays on one line. -/
def Unbroken (s : String) : Prop := ∀ c ∈ s.toList, c ≠ '\n' ∧ c ≠ '\r'

instance (s : String) : Decidable (Unbroken s) :=
  List.decidableBAll (fun c => c ≠ '\n' ∧ c ≠ '\r') s.toList

theorem splitLines_append {row : List Char} (h : '\n' ∉ row) (line rest : List Char) :
    splitLines line (row ++ rest) = splitLines (row.reverse ++ line) rest := by
  induction row generalizing line with
  | nil => rfl
  | cons c row ih =>
    rw [List.mem_cons, not_or] at h
    rw [List.cons_append, splitLines, if_neg (Ne.symm h.1), ih h.2, List.reverse_cons,
      List.append_assoc, List.singleton_append]

theorem splitLines_row {s : String} (h : Unbroken s) (rest : List Char) :
    splitLines [] (s.toList ++ '\n' :: rest) = s.toList :: splitLines [] rest := by
  have hfeed : '\n' ∉ s.toList := fun hmem => (h _ hmem).1 rfl
  have hreturn : s.toList.getLast? ≠ some '\r' :=
    fun hlast => (h _ (List.mem_of_getLast? hlast)).2 rfl
  rw [splitLines_append hfeed, splitLines, if_pos rfl, List.append_nil, List.reverse_reverse,
    dropReturn, if_neg hreturn]

theorem lines_unlines {rows : List String} (h : ∀ row ∈ rows, Unbroken row) :
    lines (unlines rows) = rows := by
  induction rows with
  | nil => rfl
  | cons row rows ih =>
    rw [List.forall_mem_cons] at h
    have htext : (unlines (row :: rows)).toList = row.toList ++ '\n' :: (unlines rows).toList := by
      simp [unlines, String.toList_join]
    have hrows := ih h.2
    rw [lines] at hrows ⊢
    rw [htext, splitLines_row h.1, List.map_cons, hrows, String.ofList_toList]

@[simp] theorem unbroken_append {s t : String} : Unbroken (s ++ t) ↔ Unbroken s ∧ Unbroken t := by
  simp only [Unbroken, String.toList_append, List.forall_mem_append]

theorem unbroken_intercalate {separator : String} {parts : List String}
    (hs : Unbroken separator) (hp : ∀ part ∈ parts, Unbroken part) :
    Unbroken (separator.intercalate parts) := by
  induction parts with
  | nil => exact fun c hc => absurd hc List.not_mem_nil
  | cons part rest ih =>
    obtain ⟨hpart, hrest⟩ := List.forall_mem_cons.mp hp
    cases rest with
    | nil => rwa [String.intercalate_singleton]
    | cons next rest =>
      rw [String.intercalate_cons_cons, unbroken_append, unbroken_append]
      exact ⟨⟨hpart, hs⟩, ih hrest⟩

theorem unbroken_natural (n : Nat) : Unbroken (toString n) := by
  intro c hc
  rw [Nat.toString_eq_repr, Nat.toList_repr] at hc
  have hdigit := toDigits_isDigit n c hc
  exact ⟨ne_of_isDigit hdigit rfl, ne_of_isDigit hdigit rfl⟩

theorem unbroken_integer (n : Int) : Unbroken (toString n) := by
  cases n with
  | ofNat m => exact unbroken_natural m
  | negSucc m => exact unbroken_append.mpr ⟨by decide, unbroken_natural (m + 1)⟩

theorem unbroken_boolean (b : Bool) : Unbroken (toString b) := by
  cases b <;> decide

end Text

open Text (Unbroken unbroken_append)

/-- The class that a type speaks of, if there is one. -/
def Source.Ty.names : Ty → List String
  | .object name => [name]
  | .list elem => elem.names
  | _ => []

def Source.Param.names (p : Param) : List String := p.name :: p.ty.names

namespace Flat

def Operand.names (v : Operand) : List String := v.varName?.toList

/-- The builtin or function that is called. -/
def Rhs.callees : Rhs → List String
  | builtin1 name _ | builtin2 name _ _ | call name _ => [name]
  | _ => []

def Rhs.names (e : Rhs) : List String := e.callees ++ e.operands.flatMap Operand.names

def Instr.names : Instr → List String
  | assign target value => target :: value.names
  | ret value => value.names
  | eval value => value.names
  | store base offset value => [base, offset, value].flatMap Operand.names
  | jump label => [label]
  | branch cond t e => cond.names ++ [t, e]

def Block.names (b : Block) : List String := b.label :: b.code.flatMap Instr.names

def Decl.names (d : Decl) : List String := d.name :: d.ty.names ++ d.value.names

def Function.names (f : Function) : List String :=
  f.name :: f.params.flatMap Source.Param.names ++ f.ret.names ++ f.decls.flatMap Decl.names ++
    f.body.flatMap Block.names

def Class.names (c : Class) : List String :=
  c.name :: c.fields.flatMap Decl.names ++ c.methods.flatMap Function.names

/-- All names in a program: of variables, functions, classes, fields, labels, builtins and class
types. -/
def Program.names (p : Program) : List String :=
  p.classes.flatMap Class.names ++ p.functions.flatMap Function.names ++
    p.decls.flatMap Decl.names ++ p.body.flatMap Block.names

theorem Program.names_of_function {p : Program} {f : Function} {name : String}
    (hf : f ∈ p.functions ++ p.classes.flatMap (·.methods)) (h : name ∈ f.names) :
    name ∈ p.names := by
  simp only [Program.names, Class.names, List.mem_append, List.mem_cons, List.mem_flatMap] at hf ⊢
  rcases hf with hf | ⟨c, hc, hf⟩
  · exact .inl (.inl (.inr ⟨f, hf, h⟩))
  · exact .inl (.inl (.inl ⟨c, hc, .inr ⟨f, hf, h⟩⟩))

theorem unbroken_ty {ty : Source.Ty} (h : ∀ name ∈ ty.names, Unbroken name) : Unbroken ty.text := by
  induction ty with
  | number | bool | none => decide
  | object name => exact h name List.mem_cons_self
  | list elem ih => simpa +decide [Source.Ty.text] using ih h

theorem unbroken_operand {v : Operand} (h : ∀ name ∈ v.names, Unbroken name) :
    Unbroken v.text := by
  cases v with
  | num n => exact Text.unbroken_integer n
  | bool b => exact Text.unbroken_boolean b
  | none => decide
  | word n => exact unbroken_append.mpr ⟨by decide, Text.unbroken_natural n.toNat⟩
  | var name => exact h name List.mem_cons_self

theorem unbroken_unary (op : Source.UnaryOp) : Unbroken op.text := by
  cases op <;> decide

theorem unbroken_binary (op : Source.BinaryOp) : Unbroken op.text := by
  cases op <;> decide

theorem unbroken_rhs {e : Rhs} (h : ∀ name ∈ e.names, Unbroken name) : Unbroken e.text := by
  have hop : ∀ v ∈ e.operands, Unbroken v.text := fun v hv => unbroken_operand fun name hname =>
    h name (List.mem_append_right _ (List.mem_flatMap_of_mem hv hname))
  have hcallee : ∀ name ∈ e.callees, Unbroken name := fun name hname =>
    h name (List.mem_append_left _ hname)
  cases e with
  | unary op v => simpa [Rhs.text, Rhs.operands, unbroken_unary] using hop
  | binary op l r => simpa +decide [Rhs.text, Rhs.operands, unbroken_binary] using hop
  | call name args =>
    have hargs : Unbroken (", ".intercalate (args.map Operand.text)) :=
      Text.unbroken_intercalate (by decide) (List.forall_mem_map.mpr hop)
    simpa +decide [Rhs.text, hargs] using hcallee name List.mem_cons_self
  | operand v | alloc v | load base offset => simpa +decide [Rhs.text, Rhs.operands] using hop
  | builtin1 name v | builtin2 name l r =>
    have hname := hcallee name List.mem_cons_self
    simpa +decide [Rhs.text, Rhs.operands, hname] using hop

theorem unbroken_instr {i : Instr} (h : ∀ name ∈ i.names, Unbroken name) : Unbroken i.text := by
  cases i with
  | assign target value =>
    obtain ⟨htarget, hvalue⟩ := List.forall_mem_cons.mp h
    simpa +decide [Instr.text, htarget] using unbroken_rhs hvalue
  | ret value => simpa +decide [Instr.text] using unbroken_operand h
  | eval value => exact unbroken_rhs h
  | store base offset value =>
    have hop : ∀ v ∈ [base, offset, value], Unbroken v.text := fun v hv =>
      unbroken_operand fun name hname => h name (List.mem_flatMap_of_mem hv hname)
    simpa +decide [Instr.text, and_assoc] using hop
  | jump label => simpa +decide [Instr.text] using h label List.mem_cons_self
  | branch cond t e =>
    obtain ⟨hcond, htargets⟩ := List.forall_mem_append.mp h
    simpa +decide [Instr.text, unbroken_operand hcond] using htargets

theorem unbroken_decl {d : Decl} (h : ∀ name ∈ d.names, Unbroken name) : Unbroken d.row := by
  simp only [Decl.names, List.forall_mem_cons, List.forall_mem_append, List.cons_append] at h
  obtain ⟨hname, hty, hvalue⟩ := h
  simp +decide [Decl.row, hname, unbroken_ty hty, unbroken_operand hvalue]

theorem unbroken_block {b : Block} (h : ∀ name ∈ b.names, Unbroken name) :
    ∀ row ∈ b.rows, Unbroken row := by
  obtain ⟨hlabel, hcode⟩ := List.forall_mem_cons.mp h
  refine List.forall_mem_cons.mpr ⟨unbroken_append.mpr ⟨hlabel, by decide⟩, ?_⟩
  refine List.forall_mem_map.mpr fun i hi => unbroken_append.mpr ⟨by decide, unbroken_instr ?_⟩
  exact fun name hname => hcode name (List.mem_flatMap_of_mem hi hname)

theorem unbroken_header {f : Function} (h : ∀ name ∈ f.names, Unbroken name) :
    Unbroken f.header := by
  simp only [Function.names, List.cons_append, List.forall_mem_cons, List.forall_mem_append,
    List.forall_mem_flatMap] at h
  obtain ⟨hname, ⟨⟨hparams, hret⟩, -⟩, -⟩ := h
  have hlist : Unbroken
      (", ".intercalate (f.params.map fun p => p.name ++ ": " ++ p.ty.text)) := by
    refine Text.unbroken_intercalate (by decide) (List.forall_mem_map.mpr fun p hp => ?_)
    obtain ⟨hp, hty⟩ := List.forall_mem_cons.mp (hparams p hp)
    simp +decide [hp, unbroken_ty hty]
  simp +decide [Function.header, hname, hlist, unbroken_ty hret]

theorem unbroken_function {f : Function} (h : ∀ name ∈ f.names, Unbroken name) :
    ∀ row ∈ f.rows, Unbroken row := by
  have hheader := unbroken_header h
  simp only [Function.names, List.cons_append, List.forall_mem_cons, List.forall_mem_append,
    List.forall_mem_flatMap] at h
  obtain ⟨-, ⟨-, hdecls⟩, hbody⟩ := h
  simp only [Function.rows, List.cons_append, List.forall_mem_cons, List.forall_mem_append,
    List.forall_mem_map, List.forall_mem_flatMap, unbroken_append]
  refine ⟨hheader, ⟨fun d hd => ⟨by decide, unbroken_decl (hdecls d hd)⟩, fun b hb row hrow => ?_⟩,
    by decide, by simp⟩
  exact ⟨by decide, unbroken_block (hbody b hb) row hrow⟩

theorem lines_function {f : Function} (h : ∀ name ∈ f.names, Unbroken name) :
    Text.lines f.listing = f.rows :=
  Text.lines_unlines (unbroken_function h)

theorem unbroken_class {c : Class} (h : ∀ name ∈ c.names, Unbroken name) :
    ∀ row ∈ c.rows, Unbroken row := by
  simp only [Class.names, List.cons_append, List.forall_mem_cons, List.forall_mem_append,
    List.forall_mem_flatMap] at h
  obtain ⟨hname, hfields, hmethods⟩ := h
  simp only [Class.rows, List.cons_append, List.forall_mem_cons, List.forall_mem_append,
    List.forall_mem_map, List.forall_mem_flatMap, unbroken_append]
  refine ⟨⟨⟨by decide, hname⟩, by decide⟩,
    ⟨fun d hd => ⟨by decide, unbroken_decl (hfields d hd)⟩, fun m hm row hrow => ?_⟩,
    by decide, by simp⟩
  rw [lines_function (hmethods m hm)] at hrow
  exact ⟨by decide, unbroken_function (hmethods m hm) row hrow⟩

theorem unbroken_program {p : Program} (h : ∀ name ∈ p.names, Unbroken name) :
    ∀ row ∈ p.rows, Unbroken row := by
  simp only [Program.names, List.forall_mem_append, List.forall_mem_flatMap] at h
  obtain ⟨⟨⟨hclasses, hfunctions⟩, hdecls⟩, hbody⟩ := h
  simp only [Program.rows, List.append_assoc, List.cons_append, List.forall_mem_cons,
    List.forall_mem_append, List.forall_mem_map, List.forall_mem_flatMap, unbroken_append]
  refine ⟨fun c hc => ⟨unbroken_class (hclasses c hc), by decide, by simp⟩,
    fun f hf => ⟨unbroken_function (hfunctions f hf), by decide, by simp⟩, by decide,
    fun d hd => ⟨by decide, unbroken_decl (hdecls d hd)⟩,
    fun b hb => unbroken_block (hbody b hb)⟩

/-- One line for each label and one for each instruction. -/
def bodyLines (body : List Block) : Nat := (body.map fun b => 1 + b.code.length).sum

theorem Block.length_rows (b : Block) : b.rows.length = 1 + b.code.length := by
  simp only [Block.rows, List.length_cons, List.length_map, Nat.add_comm]

theorem Function.length_rows (f : Function) :
    f.rows.length = 2 + f.decls.length + bodyLines f.body := by
  simp only [Function.rows, List.length_append, List.length_cons, List.length_map, List.length_nil,
    List.length_flatMap, Block.length_rows, bodyLines]
  omega

theorem Class.length_rows (c : Class) : c.rows.length =
    2 + c.fields.length + (c.methods.map fun m => (Text.lines m.listing).length).sum := by
  simp only [Class.rows, List.length_append, List.length_cons, List.length_map, List.length_nil,
    List.length_flatMap]
  omega

theorem Program.length_rows (p : Program) : p.rows.length =
    (p.classes.map fun c =>
      3 + c.fields.length + (c.methods.map fun m => (Text.lines m.listing).length).sum).sum +
    (p.functions.map fun f => 3 + f.decls.length + bodyLines f.body).sum +
    1 + p.decls.length + bodyLines p.body := by
  have hclass : ∀ c : Class, c.rows.length + 1 = 3 + c.fields.length +
      (c.methods.map fun m => (Text.lines m.listing).length).sum := by
    intro c
    rw [Class.length_rows]
    omega
  have hfunction : ∀ f : Function, f.rows.length + 1 = 3 + f.decls.length + bodyLines f.body := by
    intro f
    rw [Function.length_rows]
    omega
  simp only [Program.rows, List.length_append, List.length_cons, List.length_map, List.length_nil,
    List.length_flatMap, Nat.zero_add, hclass, hfunction, Block.length_rows]
  simp only [bodyLines]
  omega

/-- The rows of a function, with the columns of its blocks counted from its own margin. -/
theorem Function.rows_eq (f : Function) : f.rows =
    f.header :: f.decls.map (fun d => "  var " ++ d.row) ++
      f.body.flatMap (fun b => ("  " ++ b.label ++ ":") :: b.code.map fun i => "    " ++ i.text) ++
      ["\x7d"] := by
  have hindent : ∀ text : String, "  " ++ ("  " ++ text) = "    " ++ text := fun text => by
    rw [← String.append_assoc]
    rfl
  simp only [Function.rows, Block.rows, List.map_flatMap, List.map_cons, List.map_map,
    Function.comp_def, hindent, String.append_assoc]

/-- If no name has a line break in it, every line of a listing is one item of the program: classes
with their fields and their methods, functions, and then the top level. The lines of a method are
those it has when it is listed alone, two columns further in. -/
theorem listing_one_line_per_item {p : Program} (h : ∀ name ∈ p.names, Unbroken name) :
    Text.lines p.listing =
      p.classes.flatMap (fun c =>
        ("class " ++ c.name ++ " \x7b") :: c.fields.map (fun d => "  field " ++ d.row) ++
          c.methods.flatMap (fun m => (Text.lines m.listing).map ("  " ++ ·)) ++ ["\x7d", ""]) ++
      p.functions.flatMap (fun f => Text.lines f.listing ++ [""]) ++
      "; top level" :: p.decls.map (fun d => "var " ++ d.row) ++
      p.body.flatMap (fun b => (b.label ++ ":") :: b.code.map fun i => "  " ++ i.text) ∧
    (∀ f ∈ p.functions ++ p.classes.flatMap (·.methods),
      Text.lines f.listing =
        f.header :: f.decls.map (fun d => "  var " ++ d.row) ++
          f.body.flatMap (fun b =>
            ("  " ++ b.label ++ ":") :: b.code.map fun i => "    " ++ i.text) ++ ["\x7d"] ∧
      (Text.lines f.listing).length = 2 + f.decls.length + bodyLines f.body) ∧
    (Text.lines p.listing).length =
      (p.classes.map fun c =>
        3 + c.fields.length + (c.methods.map fun m => (Text.lines m.listing).length).sum).sum +
      (p.functions.map fun f => 3 + f.decls.length + bodyLines f.body).sum +
      1 + p.decls.length + bodyLines p.body := by
  have hrows : Text.lines p.listing = p.rows := Text.lines_unlines (unbroken_program h)
  have hlines : ∀ f ∈ p.functions ++ p.classes.flatMap (·.methods),
      Text.lines f.listing = f.rows :=
    fun f hf => lines_function fun name hname => h name (Program.names_of_function hf hname)
  refine ⟨?_, fun f hf => ?_, ?_⟩
  · have hfunctions : p.functions.flatMap (fun f => f.rows ++ [""]) =
        p.functions.flatMap fun f => Text.lines f.listing ++ [""] :=
      List.flatMap_congr fun f hf => by rw [hlines f (List.mem_append_left _ hf)]
    rw [hrows, Program.rows, hfunctions]
    simp only [Class.rows, List.append_assoc, List.cons_append, List.nil_append]
    rfl
  · rw [hlines f hf]
    exact ⟨f.rows_eq, f.length_rows⟩
  · rw [hrows, Program.length_rows]

/-- The method that reads a counter. -/
def counterGet : Function :=
  ⟨"get", [⟨"self", .object "Counter"⟩], .number, [⟨"valname1", .number, .none⟩],
    [⟨"$startFun2",
      [.assign "valname1" (.load (.var "self") (.word 0)), .ret (.var "valname1")]⟩]⟩

def counterProgram : Program where
  classes := [⟨"Counter", [⟨"n", .number, .num 0⟩], [counterGet]⟩]
  functions := [⟨"zero", [], .number, [], [⟨"$startFun1", [.ret (.num 0)]⟩]⟩]
  decls := [⟨"x", .list .number, .none⟩]
  body := [⟨"$startProg1", [.eval (.call "zero" [])]⟩]

theorem listing_one_line_per_item_counter :
    (∀ name ∈ counterProgram.names, Unbroken name) ∧ (Text.lines counterGet.listing).length = 6 ∧
    (Text.lines counterProgram.listing).length = 19 := by
  have h : ∀ name ∈ counterProgram.names, Unbroken name := by decide
  obtain ⟨-, hfunctions, hlength⟩ := listing_one_line_per_item h
  have hget : (Text.lines counterGet.listing).length = 6 :=
    (hfunctions counterGet (List.mem_append_right _ List.mem_cons_self)).2
  refine ⟨h, hget, hlength.trans ?_⟩
  simp only [counterProgram, List.map_cons, List.map_nil, hget]
  rfl

end Flat

end BlockLowering
