import BlockLowering.Table

/-! Reading and writing whole files, by whatever means, and a directory kept in memory as one of
them. -/

namespace BlockLowering

/-- Why a file cannot be read or written. -/
inductive FileFault where
  | missing
  | denied
  | notADirectory
  | isDirectory
  | nameTooLong
  | notText
  | other (message : String)
  deriving Repr, DecidableEq

def FileFault.message : FileFault → String
  | missing => "No such file or directory (os error 2)"
  | denied => "Permission denied (os error 13)"
  | notADirectory => "Not a directory (os error 20)"
  | isDirectory => "Is a directory (os error 21)"
  | nameTooLong => "File name too long (os error 36)"
  | notText => "stream did not contain valid UTF-8"
  | other message => message

/-- Access to files by their paths. -/
structure Files (m : Type → Type) where
  read : String → m (Except FileFault String)
  write : String → String → m (Except FileFault Unit)

/-- A directory with the files in and below it, by their relative paths. There are no empty
directories. -/
structure Disk where
  files : Table String := {}
  deriving Repr, DecidableEq, Inhabited

/-- Where a path leads to, seen from the directory of a disk. -/
inductive Place where
  /-- In the directory or below it. -/
  | within (parts : List String)
  /-- One of the directories above it. -/
  | above
  /-- A name in a directory above it, of which nothing is known. -/
  | beyond
  deriving Repr, DecidableEq

namespace Place

def parent : Place → Place
  | within [] => above
  | within parts => within parts.dropLast
  | above | beyond => above

def child (name : String) : Place → Place
  | within parts => within (parts ++ [name])
  | above | beyond => beyond

/-- One part of a path. -/
def step (here : Place) (part : String) : Place :=
  if part = "." then here else if part = ".." then here.parent else here.child part

end Place

namespace Disk

def nameOf (parts : List String) : String := "/".intercalate parts

def isDirectory (d : Disk) : Place → Bool
  | .within parts =>
    parts.isEmpty || d.files.keys.any fun name => (nameOf parts ++ "/").isPrefixOf name
  | .above => true
  | .beyond => false

def file? (d : Disk) : Place → Option String
  | .within parts => d.files.get? (nameOf parts)
  | .above | .beyond => none

/-- Fails unless there is a directory. -/
def enter (d : Disk) (here : Place) : Except FileFault Unit :=
  if d.isDirectory here then .ok ()
  else if (d.file? here).isSome then .error .notADirectory
  else .error .missing

/-- The greatest length of one name, in bytes. -/
def maxName : Nat := 255

/-- The greatest length of a path, in bytes. -/
def maxPath : Nat := 4095

/-- Follows the parts of a path. Every part but the last has to lead to a directory. -/
def follow (d : Disk) (here : Place) : List String → Except FileFault Place
  | [] => .ok here
  | part :: rest => do
    d.enter here
    if maxName < part.utf8ByteSize then .error .nameTooLong
    else d.follow (here.step part) rest

/-- The names between the slashes of a path. -/
def partsOf (path : String) : List String :=
  let runs := path.toList.splitBy fun a b => (a == '/') == (b == '/')
  (runs.filter fun run => run.head? != some '/').map String.ofList

/-- Where a path starts, and its parts. -/
def split (path : String) : Except FileFault (Place × List String) :=
  if path.isEmpty then .error .missing
  else if maxPath < path.utf8ByteSize then .error .nameTooLong
  else .ok (if path.startsWith "/" then .above else .within [], partsOf path)

def read (d : Disk) (path : String) : Except FileFault String := do
  let (start, parts) ← split path
  let place ← d.follow start parts
  if d.isDirectory place then .error .isDirectory
  else
    match d.file? place with
    | none => .error .missing
    | some text => if path.endsWith "/" then .error .notADirectory else .ok text

/-- Writes a file, which is lost if it lies beyond the disk. A path that ends in a slash is taken
for a directory before its last part is looked at. -/
def write (d : Disk) (path text : String) : Except FileFault Disk := do
  let (start, parts) ← split path
  if path.endsWith "/" then
    d.enter (← d.follow start parts.dropLast)
    .error .isDirectory
  else
    let place ← d.follow start parts
    if d.isDirectory place then .error .isDirectory
    else
      match place with
      | .within parts => .ok ⟨d.files.insert (nameOf parts) text⟩
      | .above | .beyond => .ok d

/-- The files of a disk that is the state of a computation. -/
def access : Files (StateM Disk) where
  read path := do
    let d ← get
    pure (d.read path)
  write path text := do
    let d ← get
    match d.write path text with
    | .ok d => do
      set d
      pure (.ok ())
    | .error f => pure (.error f)

/-- The files that are new or differ from those of an earlier state. -/
def changedSince (d earlier : Disk) : List (String × String) :=
  d.files.entries.filter fun (name, text) => earlier.files.get? name ≠ some text

end Disk

end BlockLowering
