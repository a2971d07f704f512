import BlockLowering.CommandLine.Run

/-! The command line on the files of the system. -/

namespace BlockLowering

/-- Some system calls give their error codes negated. -/
def FileFault.ofSystem : IO.Error → FileFault
  | .noFileOrDirectory .. | .noSuchThing .. => .missing
  | .permissionDenied .. => .denied
  | .inappropriateType _ code _ => if code = 20 ∨ code = -20 then .notADirectory else .isDirectory
  | .invalidArgument _ code details =>
    if code = 36 ∨ code = -36 then .nameTooLong else .other details
  | e => .other (toString e)

def systemFiles : Files IO where
  read path := do
    try
      let bytes ← IO.FS.readBinFile path
      match String.fromUTF8? bytes with
      | some text => pure (.ok text)
      | none => pure (.error .notText)
    catch e => pure (.error (.ofSystem e))
  write path text := do
    try
      IO.FS.writeFile path text
      pure (.ok ())
    catch e => pure (.error (.ofSystem e))

end BlockLowering

def main (args : List String) : IO UInt32 := do
  let exit ← BlockLowering.CommandLine.run BlockLowering.systemFiles args
  IO.eprint exit.errors
  IO.print exit.output
  pure exit.code.toUInt32
