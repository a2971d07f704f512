/-! The arguments of the command line. Options may stand anywhere after the command they belong
to, short ones may be joined to one word, and a value may be attached to its option. An option is
given once at most; only the switch for more log lines is counted. A word that asks for help where
an option may stand ends the reading, whatever comes after it. -/

namespace BlockLowering.CommandLine

inductive Format where
  | listing
  | json
  deriving Repr, DecidableEq

def Format.ofName? : String → Option Format
  | "pretty" => some listing
  | "json" => some json
  | _ => none

inductive Switch where
  | verbose
  | validate
  deriving Repr, DecidableEq

/-- An option with a value. -/
inductive Setting where
  | config
  | format
  | output
  deriving Repr, DecidableEq

/-- What the words after a command have said so far. -/
structure Choices where
  verbosity : Nat := 0
  validate : Bool := false
  config : Option String := none
  format : Option Format := none
  output : Option String := none
  file : Option String := none
  deriving Repr, DecidableEq

namespace Choices

def switch (c : Choices) : Switch → Option Choices
  | .verbose => some { c with verbosity := c.verbosity + 1 }
  | .validate => if c.validate then none else some { c with validate := true }

/-- Fails on a setting that has a value already, and on a value that is not one of its own. -/
def set (c : Choices) (value : String) : Setting → Option Choices
  | .config =>
    if c.config.isSome ∨ value.isEmpty then none else some { c with config := some value }
  | .format => do
    let format ← Format.ofName? value
    if c.format.isSome then none else some { c with format := some format }
  | .output =>
    if c.output.isSome ∨ value.isEmpty then none else some { c with output := some value }

/-- A word that is not an option. -/
def place (c : Choices) (word : String) : Option Choices :=
  if c.file.isSome ∨ word.isEmpty then none else some { c with file := some word }

def placeAll (c : Choices) : List String → Option Choices
  | [] => some c
  | word :: rest => do
    let c ← c.place word
    c.placeAll rest

end Choices

inductive Command where
  | lower
  | layout
  deriving Repr, DecidableEq

namespace Command

def ofName? : String → Option Command
  | "lower" => some lower
  | "layout" => some layout
  | _ => none

def longSwitch? : Command → String → Option Switch
  | _, "verbose" => some .verbose
  | lower, "validate" => some .validate
  | _, _ => none

def longSetting? : Command → String → Option Setting
  | lower, "config" => some .config
  | lower, "format" => some .format
  | lower, "output" => some .output
  | _, _ => none

def shortSwitch? : Command → Char → Option Switch
  | _, 'v' => some .verbose
  | _, _ => none

def shortSetting? : Command → Char → Option Setting
  | lower, 'c' => some .config
  | lower, 'f' => some .format
  | lower, 'o' => some .output
  | _, _ => none

end Command

/-- The choices after a word, and the setting that takes the next word as its value. -/
abbrev Step := Choices × Option Setting

/-- Short options in one word. What follows one with a value is that value. -/
def shortOptions (command : Command) (c : Choices) : List Char → Option Step
  | [] => some (c, none)
  | letter :: rest =>
    match command.shortSwitch? letter with
    | some s => do
      let c ← c.switch s
      shortOptions command c rest
    | none => do
      let setting ← command.shortSetting? letter
      match rest with
      | [] => pure (c, some setting)
      | '=' :: value | value => do
        let c ← c.set (String.ofList value) setting
        pure (c, none)

/-- A long option, without its dashes. -/
def longOption (command : Command) (c : Choices) (word : List Char) : Option Step :=
  let name := String.ofList (word.takeWhile (· != '='))
  match command.longSwitch? name, word.dropWhile (· != '=') with
  | some s, [] => do
    let c ← c.switch s
    pure (c, none)
  | some _, _ :: _ => none
  | none, [] => do
    let setting ← command.longSetting? name
    pure (c, some setting)
  | none, _ :: value => do
    let setting ← command.longSetting? name
    let c ← c.set (String.ofList value) setting
    pure (c, none)

/-- Whether a word stands for options; a dash alone does not. -/
def isOption (word : String) : Bool := word.startsWith "-" && word != "-"

/-- The options in one word. -/
def readOption (command : Command) (c : Choices) (word : String) : Option Step :=
  match word.toList with
  | '-' :: '-' :: word => longOption command c word
  | word => shortOptions command c word.tail

/-- The words after a command, the first of which is the value of the setting that is pending, if
there is one. Two dashes end the options. -/
def readWords (command : Command) (pending : Option Setting) (c : Choices) :
    List String → Option Choices
  | [] => if pending.isSome then none else some c
  | word :: rest =>
    match pending with
    | some setting =>
      if isOption word then none
      else do
        let c ← c.set word setting
        readWords command none c rest
    | none =>
      if word = "--" then c.placeAll rest
      else if isOption word then do
        let (c, pending) ← readOption command c word
        readWords command pending c rest
      else do
        let c ← c.place word
        readWords command none c rest

inductive HelpForm where
  | short
  | long
  deriving Repr, DecidableEq

/-- Joined short options of which one asks for help. -/
def shortHelp (command : Command) : List Char → Bool
  | [] => false
  | 'h' :: _ => true
  | letter :: rest => (command.shortSwitch? letter).isSome && shortHelp command rest

def helpWord? (command : Command) (word : String) : Option HelpForm :=
  if word = "--help" then some .long
  else if isOption word ∧ shortHelp command word.toList.tail then some .short
  else none

/-- The help that the words ask for after those in `front`: the first word to do so counts, and what
stands before it must have been read up to its end. -/
def helpAfter? (command : Command) (front : List String) : List String → Option HelpForm
  | [] => none
  | word :: rest =>
    let ready := "--" ∉ front ∧ (readWords command none {} front).isSome
    match if ready then helpWord? command word else none with
    | some form => some form
    | none => helpAfter? command (front ++ [word]) rest

/-- What a page of the help is about. -/
inductive Topic where
  | program
  | command (command : Command)
  | help
  deriving Repr, DecidableEq

def Topic.ofWords? : List String → Option Topic
  | [] => some .program
  | ["help"] => some .help
  | [word] => (Command.ofName? word).map .command
  | _ => none

structure LowerOptions where
  file : String
  config : Option String
  format : Format
  output : Option String
  validate : Bool
  deriving Repr, DecidableEq

inductive Job where
  | lower (options : LowerOptions)
  | layout (file : String)
  deriving Repr, DecidableEq

inductive Invocation where
  | version
  | help (topic : Topic) (form : HelpForm)
  | run (verbosity : Nat) (job : Job)
  deriving Repr, DecidableEq

/-- The whole invocation. A count of switches after the command wins over one before it. -/
def Choices.invocation (c : Choices) (verbosity : Nat) (command : Command) : Option Invocation := do
  let file ← c.file
  let verbosity := if c.verbosity = 0 then verbosity else c.verbosity
  match command with
  | .layout => pure (.run verbosity (.layout file))
  | .lower =>
    pure (.run verbosity (.lower ⟨file, c.config, c.format.getD .listing, c.output, c.validate⟩))

/-- Short options before the command: more log lines, or help or the version right away. -/
def shortGlobals (verbosity : Nat) : List Char → Option (Nat ⊕ Invocation)
  | [] => some (.inl verbosity)
  | 'v' :: rest => shortGlobals (verbosity + 1) rest
  | 'V' :: _ => some (.inr .version)
  | 'h' :: _ => some (.inr (.help .program .short))
  | _ => none

/-- The meaning of the arguments, or `none` if they have none. -/
def parse (verbosity : Nat) : List String → Option Invocation
  | [] => none
  | word :: rest =>
    match Command.ofName? word with
    | some command =>
      match helpAfter? command [] rest with
      | some form => some (.help (.command command) form)
      | none => do
        let c ← readWords command none {} rest
        c.invocation verbosity command
    | none =>
      if word = "--verbose" then parse (verbosity + 1) rest
      else if word = "--version" then some .version
      else if word = "--help" then some (.help .program .long)
      else if word = "help" then (Topic.ofWords? rest).map (.help · .long)
      else if isOption word then do
        match ← shortGlobals verbosity word.toList.tail with
        | .inl verbosity => parse verbosity rest
        | .inr invocation => pure invocation
      else none

end BlockLowering.CommandLine
