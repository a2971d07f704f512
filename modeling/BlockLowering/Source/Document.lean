import BlockLowering.Json.Decode
import BlockLowering.Source.Syntax

/-! Source programs as JSON documents. Types, literals, expressions and statements are objects with
a `tag`; everything else is an object with a member for every field. Places and most lists may be
left out when they are read.

A tagged node has been read completely before its fields are decoded, so inside it the number of
levels only bounds the recursion. -/

namespace BlockLowering.Source

open Decoder (record struct openTagged)

def Ty.encode : Ty → Json
  | .number => .ofMembers [("tag", .ofString "number")]
  | .bool => .ofMembers [("tag", .ofString "bool")]
  | .none => .ofMembers [("tag", .ofString "none")]
  | .object name => .ofMembers [("tag", .ofString "class"), ("name", .ofString name)]
  | .list elem => .ofMembers [("tag", .ofString "list"), ("elem", elem.encode)]

def Loc.encode (loc : Loc) : Json :=
  .ofMembers [("line", .ofInt loc.line.toNat), ("column", .ofInt loc.column.toNat),
    ("length", .ofInt loc.length.toNat)]

def Note.encode (n : Note) : Json := .ofMembers [("ty", n.ty.encode), ("loc", n.loc.encode)]

def Literal.encode : Literal → Json
  | .num n => .ofMembers [("tag", .ofString "num"), ("value", .ofString (toString n))]
  | .bool b => .ofMembers [("tag", .ofString "bool"), ("value", .bool b)]
  | .none => .ofMembers [("tag", .ofString "none")]

def UnaryOp.key : UnaryOp → String
  | neg => "neg"
  | not => "not"

def UnaryOp.encode (op : UnaryOp) : Json := .ofString op.key

def BinaryOp.key : BinaryOp → String
  | plus => "plus"
  | minus => "minus"
  | mul => "mul"
  | intDiv => "i_div"
  | mod => "mod"
  | eq => "eq"
  | neq => "neq"
  | lte => "lte"
  | gte => "gte"
  | lt => "lt"
  | gt => "gt"
  | is => "is"
  | and => "and"
  | or => "or"

def BinaryOp.encode (op : BinaryOp) : Json := .ofString op.key

mutual

def Expr.encode : Expr → Json
  | .unary a op e =>
    .ofMembers [("tag", .ofString "uni_op"), ("a", a.encode), ("op", op.encode),
      ("expr", e.encode)]
  | .binary a op l r =>
    .ofMembers [("tag", .ofString "bin_op"), ("a", a.encode), ("op", op.encode),
      ("left", l.encode), ("right", r.encode)]
  | .builtin1 a name e =>
    .ofMembers [("tag", .ofString "builtin1"), ("a", a.encode), ("name", .ofString name),
      ("arg", e.encode)]
  | .builtin2 a name l r =>
    .ofMembers [("tag", .ofString "builtin2"), ("a", a.encode), ("name", .ofString name),
      ("left", l.encode), ("right", r.encode)]
  | .call a name args =>
    .ofMembers [("tag", .ofString "call"), ("a", a.encode), ("name", .ofString name),
      ("arguments", .ofList (Expr.encodeAll args))]
  | .methodCall a obj method args =>
    .ofMembers [("tag", .ofString "method_call"), ("a", a.encode), ("obj", obj.encode),
      ("method", .ofString method), ("arguments", .ofList (Expr.encodeAll args))]
  | .field a obj name =>
    .ofMembers [("tag", .ofString "lookup"), ("a", a.encode), ("obj", obj.encode),
      ("field", .ofString name)]
  | .index a obj i =>
    .ofMembers [("tag", .ofString "index"), ("a", a.encode), ("obj", obj.encode),
      ("index", i.encode)]
  | .construct a name =>
    .ofMembers [("tag", .ofString "construct"), ("a", a.encode), ("name", .ofString name)]
  | .listLiteral a elements =>
    .ofMembers [("tag", .ofString "list_literal"), ("a", a.encode),
      ("elements", .ofList (Expr.encodeAll elements))]
  | .var a name =>
    .ofMembers [("tag", .ofString "id"), ("a", a.encode), ("name", .ofString name)]
  | .literal a value =>
    .ofMembers [("tag", .ofString "literal"), ("a", a.encode), ("value", value.encode)]

def Expr.encodeAll : List Expr → List Json
  | [] => []
  | e :: es => e.encode :: Expr.encodeAll es

end

mutual

def Stmt.encode : Stmt → Json
  | .assign a name value =>
    .ofMembers [("tag", .ofString "assign"), ("a", a.encode), ("name", .ofString name),
      ("value", value.encode)]
  | .ret a value =>
    .ofMembers [("tag", .ofString "return"), ("a", a.encode), ("value", value.encode)]
  | .eval a e => .ofMembers [("tag", .ofString "expr"), ("a", a.encode), ("expr", e.encode)]
  | .pass a => .ofMembers [("tag", .ofString "pass"), ("a", a.encode)]
  | .assignField a obj name value =>
    .ofMembers [("tag", .ofString "field_assign"), ("a", a.encode), ("obj", obj.encode),
      ("field", .ofString name), ("value", value.encode)]
  | .assignIndex a obj i value =>
    .ofMembers [("tag", .ofString "index_assign"), ("a", a.encode), ("obj", obj.encode),
      ("index", i.encode), ("value", value.encode)]
  | .ifElse a cond t e =>
    .ofMembers [("tag", .ofString "if"), ("a", a.encode), ("cond", cond.encode),
      ("thn", .ofList (Stmt.encodeAll t)), ("els", .ofList (Stmt.encodeAll e))]
  | .whileLoop a cond body =>
    .ofMembers [("tag", .ofString "while"), ("a", a.encode), ("cond", cond.encode),
      ("body", .ofList (Stmt.encodeAll body))]

def Stmt.encodeAll : List Stmt → List Json
  | [] => []
  | s :: ss => s.encode :: Stmt.encodeAll ss

end

def Decl.encode (d : Decl) : Json :=
  .ofMembers [("name", .ofString d.name), ("ty", d.ty.encode), ("value", d.value.encode),
    ("loc", d.loc.encode)]

def Param.encode (p : Param) : Json :=
  .ofMembers [("name", .ofString p.name), ("ty", p.ty.encode)]

def Function.encode (f : Function) : Json :=
  .ofMembers [("name", .ofString f.name), ("parameters", .ofList (f.params.map Param.encode)),
    ("ret", f.ret.encode), ("inits", .ofList (f.locals.map Decl.encode)),
    ("body", .ofList (Stmt.encodeAll f.body)), ("loc", f.loc.encode)]

def Class.encode (c : Class) : Json :=
  .ofMembers [("name", .ofString c.name), ("fields", .ofList (c.fields.map Decl.encode)),
    ("methods", .ofList (c.methods.map Function.encode)), ("loc", c.loc.encode)]

def Program.encode (p : Program) : Json :=
  .ofMembers [("funs", .ofList (p.functions.map Function.encode)),
    ("inits", .ofList (p.globals.map Decl.encode)),
    ("classes", .ofList (p.classes.map Class.encode)),
    ("stmts", .ofList (Stmt.encodeAll p.body))]

def Ty.tags : List String := ["number", "bool", "none", "class", "list"]

def Ty.decode : Decoder Ty
  | 0, phase, j => do
    let _ ← openTagged "Type" Ty.tags 0 phase j
    .error (.malformed .tooDeep)
  | n + 1, phase, j => do
    let (tag, contents) ← openTagged "Type" Ty.tags (n + 1) phase j
    match tag with
    | "number" => Decoder.unit .number contents
    | "bool" => Decoder.unit .bool contents
    | "none" => Decoder.unit .none contents
    | "class" =>
      struct n ⟨"struct variant Type::Class", ["name"]⟩ contents fun o =>
        Ty.object <$> o.field "name" .text
    | _ =>
      struct n ⟨"struct variant Type::List", ["elem"]⟩ contents fun o =>
        Ty.list <$> o.field "elem" fun _ => Ty.decode n

def Loc.decode : Decoder Loc :=
  record ⟨"struct SourceLocation", ["line", "column", "length"]⟩ fun o =>
    Loc.mk <$> o.field "line" .word <*> o.field "column" .word <*> o.fieldD "length" .word 0

def Note.decode : Decoder Note :=
  record ⟨"struct Annotation", ["ty", "loc"]⟩ fun o =>
    Note.mk <$> o.field "ty" Ty.decode <*> o.fieldD "loc" Loc.decode {}

def Literal.decode : Decoder Literal := fun levels phase j => do
  let (tag, contents) ← openTagged "Literal" ["num", "bool", "none"] levels phase j
  match tag with
  | "num" =>
    struct (levels - 1) ⟨"struct variant Literal::Num", ["value"]⟩ contents fun o =>
      Literal.num <$> o.field "value" Decoder.integer
  | "bool" =>
    struct (levels - 1) ⟨"struct variant Literal::Bool", ["value"]⟩ contents fun o =>
      Literal.bool <$> o.field "value" Decoder.bool
  | _ => Decoder.unit .none contents

def UnaryOp.all : List UnaryOp := [.neg, .not]

def UnaryOp.decode : Decoder UnaryOp := .choice (UnaryOp.all.map fun op => (op.key, op))

def BinaryOp.all : List BinaryOp :=
  [.plus, .minus, .mul, .intDiv, .mod, .eq, .neq, .lte, .gte, .lt, .gt, .is, .and, .or]

def BinaryOp.decode : Decoder BinaryOp := .choice (BinaryOp.all.map fun op => (op.key, op))

def Expr.tags : List String :=
  ["uni_op", "bin_op", "builtin1", "builtin2", "call", "method_call", "lookup", "index",
    "construct", "list_literal", "id", "literal"]

def Expr.decode : Decoder Expr
  | 0, phase, j => do
    let _ ← openTagged "Expr" Expr.tags 0 phase j
    .error (.malformed .tooDeep)
  | n + 1, phase, j => do
    let (tag, contents) ← openTagged "Expr" Expr.tags (n + 1) phase j
    let expr : Decoder Expr := fun _ => Expr.decode n
    let exprs : Decoder (List Expr) := .list fun _ => Expr.decode n
    match tag with
    | "uni_op" =>
      struct n ⟨"struct variant Expr::UniOp", ["a", "op", "expr"]⟩ contents fun o =>
        Expr.unary <$> o.field "a" Note.decode <*> o.field "op" UnaryOp.decode <*>
          o.field "expr" expr
    | "bin_op" =>
      struct n ⟨"struct variant Expr::BinOp", ["a", "op", "left", "right"]⟩ contents fun o =>
        Expr.binary <$> o.field "a" Note.decode <*> o.field "op" BinaryOp.decode <*>
          o.field "left" expr <*> o.field "right" expr
    | "builtin1" =>
      struct n ⟨"struct variant Expr::Builtin1", ["a", "name", "arg"]⟩ contents fun o =>
        Expr.builtin1 <$> o.field "a" Note.decode <*> o.field "name" .text <*> o.field "arg" expr
    | "builtin2" =>
      struct n ⟨"struct variant Expr::Builtin2", ["a", "name", "left", "right"]⟩ contents fun o =>
        Expr.builtin2 <$> o.field "a" Note.decode <*> o.field "name" .text <*>
          o.field "left" expr <*> o.field "right" expr
    | "call" =>
      struct n ⟨"struct variant Expr::Call", ["a", "name", "arguments"]⟩ contents fun o =>
        Expr.call <$> o.field "a" Note.decode <*> o.field "name" .text <*>
          o.field "arguments" exprs
    | "method_call" =>
      struct n ⟨"struct variant Expr::MethodCall", ["a", "obj", "method", "arguments"]⟩ contents
        fun o => Expr.methodCall <$> o.field "a" Note.decode <*> o.field "obj" expr <*>
          o.field "method" .text <*> o.field "arguments" exprs
    | "lookup" =>
      struct n ⟨"struct variant Expr::Lookup", ["a", "obj", "field"]⟩ contents fun o =>
        Expr.field <$> o.field "a" Note.decode <*> o.field "obj" expr <*> o.field "field" .text
    | "index" =>
      struct n ⟨"struct variant Expr::Index", ["a", "obj", "index"]⟩ contents fun o =>
        Expr.index <$> o.field "a" Note.decode <*> o.field "obj" expr <*> o.field "index" expr
    | "construct" =>
      struct n ⟨"struct variant Expr::Construct", ["a", "name"]⟩ contents fun o =>
        Expr.construct <$> o.field "a" Note.decode <*> o.field "name" .text
    | "list_literal" =>
      struct n ⟨"struct variant Expr::ListLiteral", ["a", "elements"]⟩ contents fun o =>
        Expr.listLiteral <$> o.field "a" Note.decode <*> o.field "elements" exprs
    | "id" =>
      struct n ⟨"struct variant Expr::Id", ["a", "name"]⟩ contents fun o =>
        Expr.var <$> o.field "a" Note.decode <*> o.field "name" .text
    | _ =>
      struct n ⟨"struct variant Expr::Literal", ["a", "value"]⟩ contents fun o =>
        Expr.literal <$> o.field "a" Note.decode <*> o.field "value" Literal.decode

def Stmt.tags : List String :=
  ["assign", "return", "expr", "pass", "field_assign", "index_assign", "if", "while"]

def Stmt.decode : Decoder Stmt
  | 0, phase, j => do
    let _ ← openTagged "Stmt" Stmt.tags 0 phase j
    .error (.malformed .tooDeep)
  | n + 1, phase, j => do
    let (tag, contents) ← openTagged "Stmt" Stmt.tags (n + 1) phase j
    let stmts : Decoder (List Stmt) := .list fun _ => Stmt.decode n
    match tag with
    | "assign" =>
      struct n ⟨"struct variant Stmt::Assign", ["a", "name", "value"]⟩ contents fun o =>
        Stmt.assign <$> o.field "a" Note.decode <*> o.field "name" .text <*>
          o.field "value" Expr.decode
    | "return" =>
      struct n ⟨"struct variant Stmt::Return", ["a", "value"]⟩ contents fun o =>
        Stmt.ret <$> o.field "a" Note.decode <*> o.field "value" Expr.decode
    | "expr" =>
      struct n ⟨"struct variant Stmt::Expr", ["a", "expr"]⟩ contents fun o =>
        Stmt.eval <$> o.field "a" Note.decode <*> o.field "expr" Expr.decode
    | "pass" =>
      struct n ⟨"struct variant Stmt::Pass", ["a"]⟩ contents fun o =>
        Stmt.pass <$> o.field "a" Note.decode
    | "field_assign" =>
      struct n ⟨"struct variant Stmt::FieldAssign", ["a", "obj", "field", "value"]⟩ contents
        fun o => Stmt.assignField <$> o.field "a" Note.decode <*> o.field "obj" Expr.decode <*>
          o.field "field" .text <*> o.field "value" Expr.decode
    | "index_assign" =>
      struct n ⟨"struct variant Stmt::IndexAssign", ["a", "obj", "index", "value"]⟩ contents
        fun o => Stmt.assignIndex <$> o.field "a" Note.decode <*> o.field "obj" Expr.decode <*>
          o.field "index" Expr.decode <*> o.field "value" Expr.decode
    | "if" =>
      struct n ⟨"struct variant Stmt::If", ["a", "cond", "thn", "els"]⟩ contents fun o =>
        Stmt.ifElse <$> o.field "a" Note.decode <*> o.field "cond" Expr.decode <*>
          o.field "thn" stmts <*> o.field "els" stmts
    | _ =>
      struct n ⟨"struct variant Stmt::While", ["a", "cond", "body"]⟩ contents fun o =>
        Stmt.whileLoop <$> o.field "a" Note.decode <*> o.field "cond" Expr.decode <*>
          o.field "body" stmts

def Decl.decode : Decoder Decl :=
  record ⟨"struct VarInit", ["name", "ty", "value", "loc"]⟩ fun o =>
    Decl.mk <$> o.field "name" .text <*> o.field "ty" Ty.decode <*>
      o.field "value" Literal.decode <*> o.fieldD "loc" Loc.decode {}

def Param.decode : Decoder Param :=
  record ⟨"struct Parameter", ["name", "ty"]⟩ fun o =>
    Param.mk <$> o.field "name" .text <*> o.field "ty" Ty.decode

def Function.decode : Decoder Function :=
  record ⟨"struct FunDef", ["name", "parameters", "ret", "inits", "body", "loc"]⟩ fun o =>
    Function.mk <$> o.field "name" .text <*> o.fieldD "parameters" (.list Param.decode) [] <*>
      o.field "ret" Ty.decode <*> o.fieldD "inits" (.list Decl.decode) [] <*>
      o.fieldD "body" (.list Stmt.decode) [] <*> o.fieldD "loc" Loc.decode {}

def Class.decode : Decoder Class :=
  record ⟨"struct Class", ["name", "fields", "methods", "loc"]⟩ fun o =>
    Class.mk <$> o.field "name" .text <*> o.fieldD "fields" (.list Decl.decode) [] <*>
      o.fieldD "methods" (.list Function.decode) [] <*> o.fieldD "loc" Loc.decode {}

def Program.decode : Decoder Program :=
  record ⟨"struct Program", ["funs", "inits", "classes", "stmts"]⟩ fun o =>
    Program.mk <$> o.fieldD "funs" (.list Function.decode) [] <*>
      o.fieldD "inits" (.list Decl.decode) [] <*> o.fieldD "classes" (.list Class.decode) [] <*>
      o.fieldD "stmts" (.list Stmt.decode) []

end BlockLowering.Source
