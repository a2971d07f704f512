import BlockLowering.Flat.Code
import BlockLowering.Source.Document

/-! Flat programs as JSON documents, in the manner of source documents. Here no field may be left
out. -/

namespace BlockLowering.Flat

open Source (Ty Param UnaryOp BinaryOp)
open Decoder (record struct openTagged)

def Operand.encode : Operand → Json
  | .num n => .ofMembers [("tag", .ofString "num"), ("value", .ofString (toString n))]
  | .bool b => .ofMembers [("tag", .ofString "bool"), ("value", .bool b)]
  | .none => .ofMembers [("tag", .ofString "none")]
  | .word n => .ofMembers [("tag", .ofString "machine_int"), ("value", .ofInt n.toNat)]
  | .var name => .ofMembers [("tag", .ofString "id"), ("name", .ofString name)]

def Rhs.encode : Rhs → Json
  | .operand v => .ofMembers [("tag", .ofString "value"), ("value", v.encode)]
  | .unary op v =>
    .ofMembers [("tag", .ofString "uni_op"), ("op", op.encode), ("expr", v.encode)]
  | .binary op l r =>
    .ofMembers [("tag", .ofString "bin_op"), ("op", op.encode), ("left", l.encode),
      ("right", r.encode)]
  | .builtin1 name v =>
    .ofMembers [("tag", .ofString "builtin1"), ("name", .ofString name), ("arg", v.encode)]
  | .builtin2 name l r =>
    .ofMembers [("tag", .ofString "builtin2"), ("name", .ofString name), ("left", l.encode),
      ("right", r.encode)]
  | .call name args =>
    .ofMembers [("tag", .ofString "call"), ("name", .ofString name),
      ("arguments", .ofList (args.map Operand.encode))]
  | .load base offset =>
    .ofMembers [("tag", .ofString "load"), ("start", base.encode), ("offset", offset.encode)]
  | .alloc size => .ofMembers [("tag", .ofString "alloc"), ("amount", size.encode)]

def Instr.encode : Instr → Json
  | .assign target value =>
    .ofMembers [("tag", .ofString "assign"), ("name", .ofString target), ("value", value.encode)]
  | .ret value => .ofMembers [("tag", .ofString "return"), ("value", value.encode)]
  | .eval value => .ofMembers [("tag", .ofString "expr"), ("expr", value.encode)]
  | .store base offset value =>
    .ofMembers [("tag", .ofString "store"), ("start", base.encode), ("offset", offset.encode),
      ("value", value.encode)]
  | .jump label => .ofMembers [("tag", .ofString "jmp"), ("lbl", .ofString label)]
  | .branch cond t e =>
    .ofMembers [("tag", .ofString "if_jmp"), ("cond", cond.encode), ("thn", .ofString t),
      ("els", .ofString e)]

def Block.encode (b : Block) : Json :=
  .ofMembers [("label", .ofString b.label), ("stmts", .ofList (b.code.map Instr.encode))]

def Decl.encode (d : Decl) : Json :=
  .ofMembers [("name", .ofString d.name), ("ty", d.ty.encode), ("value", d.value.encode)]

def Function.encode (f : Function) : Json :=
  .ofMembers [("name", .ofString f.name), ("parameters", .ofList (f.params.map Param.encode)),
    ("ret", f.ret.encode), ("inits", .ofList (f.decls.map Decl.encode)),
    ("body", .ofList (f.body.map Block.encode))]

def Class.encode (c : Class) : Json :=
  .ofMembers [("name", .ofString c.name), ("fields", .ofList (c.fields.map Decl.encode)),
    ("methods", .ofList (c.methods.map Function.encode))]

def Program.encode (p : Program) : Json :=
  .ofMembers [("funs", .ofList (p.functions.map Function.encode)),
    ("inits", .ofList (p.decls.map Decl.encode)),
    ("classes", .ofList (p.classes.map Class.encode)),
    ("body", .ofList (p.body.map Block.encode))]

def Operand.decode : Decoder Operand := fun levels phase j => do
  let (tag, contents) ←
    openTagged "Value" ["num", "bool", "none", "machine_int", "id"] levels phase j
  let n := levels - 1
  match tag with
  | "num" =>
    struct n ⟨"struct variant Value::Num", ["value"]⟩ contents fun o =>
      Operand.num <$> o.field "value" Decoder.integer
  | "bool" =>
    struct n ⟨"struct variant Value::Bool", ["value"]⟩ contents fun o =>
      Operand.bool <$> o.field "value" Decoder.bool
  | "none" => Decoder.unit .none contents
  | "machine_int" =>
    struct n ⟨"struct variant Value::MachineInt", ["value"]⟩ contents fun o =>
      Operand.word <$> o.field "value" .word
  | _ =>
    struct n ⟨"struct variant Value::Id", ["name"]⟩ contents fun o =>
      Operand.var <$> o.field "name" .text

def Rhs.decode : Decoder Rhs := fun levels phase j => do
  let (tag, contents) ← openTagged "Expr"
    ["value", "uni_op", "bin_op", "builtin1", "builtin2", "call", "load", "alloc"] levels phase j
  let n := levels - 1
  match tag with
  | "value" =>
    struct n ⟨"struct variant Expr::Value", ["value"]⟩ contents fun o =>
      Rhs.operand <$> o.field "value" Operand.decode
  | "uni_op" =>
    struct n ⟨"struct variant Expr::UniOp", ["op", "expr"]⟩ contents fun o =>
      Rhs.unary <$> o.field "op" UnaryOp.decode <*> o.field "expr" Operand.decode
  | "bin_op" =>
    struct n ⟨"struct variant Expr::BinOp", ["op", "left", "right"]⟩ contents fun o =>
      Rhs.binary <$> o.field "op" BinaryOp.decode <*> o.field "left" Operand.decode <*>
        o.field "right" Operand.decode
  | "builtin1" =>
    struct n ⟨"struct variant Expr::Builtin1", ["name", "arg"]⟩ contents fun o =>
      Rhs.builtin1 <$> o.field "name" .text <*> o.field "arg" Operand.decode
  | "builtin2" =>
    struct n ⟨"struct variant Expr::Builtin2", ["name", "left", "right"]⟩ contents fun o =>
      Rhs.builtin2 <$> o.field "name" .text <*> o.field "left" Operand.decode <*>
        o.field "right" Operand.decode
  | "call" =>
    struct n ⟨"struct variant Expr::Call", ["name", "arguments"]⟩ contents fun o =>
      Rhs.call <$> o.field "name" .text <*> o.field "arguments" (.list Operand.decode)
  | "load" =>
    struct n ⟨"struct variant Expr::Load", ["start", "offset"]⟩ contents fun o =>
      Rhs.load <$> o.field "start" Operand.decode <*> o.field "offset" Operand.decode
  | _ =>
    struct n ⟨"struct variant Expr::Alloc", ["amount"]⟩ contents fun o =>
      Rhs.alloc <$> o.field "amount" Operand.decode

def Instr.decode : Decoder Instr := fun levels phase j => do
  let (tag, contents) ←
    openTagged "Stmt" ["assign", "return", "expr", "store", "jmp", "if_jmp"] levels phase j
  let n := levels - 1
  match tag with
  | "assign" =>
    struct n ⟨"struct variant Stmt::Assign", ["name", "value"]⟩ contents fun o =>
      Instr.assign <$> o.field "name" .text <*> o.field "value" Rhs.decode
  | "return" =>
    struct n ⟨"struct variant Stmt::Return", ["value"]⟩ contents fun o =>
      Instr.ret <$> o.field "value" Operand.decode
  | "expr" =>
    struct n ⟨"struct variant Stmt::Expr", ["expr"]⟩ contents fun o =>
      Instr.eval <$> o.field "expr" Rhs.decode
  | "store" =>
    struct n ⟨"struct variant Stmt::Store", ["start", "offset", "value"]⟩ contents fun o =>
      Instr.store <$> o.field "start" Operand.decode <*> o.field "offset" Operand.decode <*>
        o.field "value" Operand.decode
  | "jmp" =>
    struct n ⟨"struct variant Stmt::Jmp", ["lbl"]⟩ contents fun o =>
      Instr.jump <$> o.field "lbl" .text
  | _ =>
    struct n ⟨"struct variant Stmt::IfJmp", ["cond", "thn", "els"]⟩ contents fun o =>
      Instr.branch <$> o.field "cond" Operand.decode <*> o.field "thn" .text <*>
        o.field "els" .text

def Block.decode : Decoder Block :=
  record ⟨"struct BasicBlock", ["label", "stmts"]⟩ fun o =>
    Block.mk <$> o.field "label" .text <*> o.field "stmts" (.list Instr.decode)

def Decl.decode : Decoder Decl :=
  record ⟨"struct VarInit", ["name", "ty", "value"]⟩ fun o =>
    Decl.mk <$> o.field "name" .text <*> o.field "ty" Ty.decode <*> o.field "value" Operand.decode

def Function.decode : Decoder Function :=
  record ⟨"struct FunDef", ["name", "parameters", "ret", "inits", "body"]⟩ fun o =>
    Function.mk <$> o.field "name" .text <*> o.field "parameters" (.list Param.decode) <*>
      o.field "ret" Ty.decode <*> o.field "inits" (.list Decl.decode) <*>
      o.field "body" (.list Block.decode)

def Class.decode : Decoder Class :=
  record ⟨"struct Class", ["name", "fields", "methods"]⟩ fun o =>
    Class.mk <$> o.field "name" .text <*> o.field "fields" (.list Decl.decode) <*>
      o.field "methods" (.list Function.decode)

def Program.decode : Decoder Program :=
  record ⟨"struct Program", ["funs", "inits", "classes", "body"]⟩ fun o =>
    Program.mk <$> o.field "funs" (.list Function.decode) <*>
      o.field "inits" (.list Decl.decode) <*> o.field "classes" (.list Class.decode) <*>
      o.field "body" (.list Block.decode)

end BlockLowering.Flat
