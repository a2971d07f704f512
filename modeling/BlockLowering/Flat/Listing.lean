import BlockLowering.Flat.Code
import BlockLowering.Text.Lines

/-! Readable listings of flat code. A listing is written row by row; a class lists its methods
as they would be listed alone, two columns further in. -/

namespace BlockLowering.Flat

def Decl.row (d : Decl) : String := d.name ++ ": " ++ d.ty.text ++ " = " ++ d.value.text

def Block.rows (b : Block) : List String :=
  (b.label ++ ":") :: b.code.map fun i => "  " ++ i.text

def Block.listing (b : Block) : String := Text.unlines b.rows

namespace Function

def header (f : Function) : String :=
  "fun " ++ f.name ++ "(" ++ ", ".intercalate (f.params.map fun p => p.name ++ ": " ++ p.ty.text) ++
    ") -> " ++ f.ret.text ++ " \x7b"

def rows (f : Function) : List String :=
  f.header :: f.decls.map (fun d => "  var " ++ d.row) ++
    (f.body.flatMap Block.rows).map ("  " ++ ·) ++ ["\x7d"]

def listing (f : Function) : String := Text.unlines f.rows

end Function

namespace Class

/-- Methods are listed first and then split into lines again, so that a line break inside a name
is indented like any other. -/
def rows (c : Class) : List String :=
  ("class " ++ c.name ++ " \x7b") :: c.fields.map (fun d => "  field " ++ d.row) ++
    c.methods.flatMap (fun m => (Text.lines m.listing).map ("  " ++ ·)) ++ ["\x7d"]

def listing (c : Class) : String := Text.unlines c.rows

end Class

namespace Program

def rows (p : Program) : List String :=
  p.classes.flatMap (fun c => c.rows ++ [""]) ++ p.functions.flatMap (fun f => f.rows ++ [""]) ++
    "; top level" :: p.decls.map (fun d => "var " ++ d.row) ++ p.body.flatMap Block.rows

def listing (p : Program) : String := Text.unlines p.rows

end Program

end BlockLowering.Flat
