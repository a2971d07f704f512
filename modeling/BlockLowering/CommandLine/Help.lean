import BlockLowering.CommandLine.Arguments

/-! The pages of the help. A page lists what may be given, one entry to a line with the names in a
column. Where options have more to tell, the long form of the page gives each entry a paragraph. -/

namespace BlockLowering.CommandLine

structure HelpEntry where
  name : String
  about : String
  /-- What the short form adds to the line. -/
  note : String := ""
  /-- What the long form adds to the paragraph. -/
  details : List String := []
  deriving Repr, DecidableEq

namespace HelpEntry

def line (width : Nat) (e : HelpEntry) : String :=
  "  " ++ e.name ++ "".pushn ' ' (width - e.name.length) ++ "  " ++ e.about ++ e.note ++ "\n"

def paragraph (e : HelpEntry) : String :=
  "  " ++ e.name ++ "\n" ++
    String.join ((e.about :: e.details).map fun line =>
      if line.isEmpty then "\n" else "          " ++ line ++ "\n")

def lines (entries : List HelpEntry) : String :=
  let width := (entries.map (·.name.length)).foldl max 0
  String.join (entries.map (line width))

def paragraphs (entries : List HelpEntry) : String := "\n".intercalate (entries.map paragraph)

/-- A part of a page, left out if it has no entries. -/
def part (heading : String) (body : List HelpEntry → String) (entries : List HelpEntry) : String :=
  if entries.isEmpty then "" else "\n" ++ heading ++ ":\n" ++ body entries

def verbose : HelpEntry where
  name := "-v, --verbose..."
  about := "Increase log verbosity (-v info, -vv debug, -vvv trace)"

def file : HelpEntry := { name := "<FILE>", about := "Typed program tree (JSON)" }

end HelpEntry

structure HelpPage where
  about : String
  usage : String
  commands : List HelpEntry := []
  arguments : List HelpEntry := []
  /-- The options before the one for help. -/
  options : List HelpEntry := []
  /-- The options after the one for help. -/
  closing : List HelpEntry := []
  deriving Repr, DecidableEq

namespace HelpPage

/-- Only a page with details has a long form. -/
def isDetailed (p : HelpPage) : Bool := p.options.any fun e => !e.details.isEmpty

def helpOption (p : HelpPage) (form : HelpForm) : HelpEntry where
  name := "-h, --help"
  about :=
    if p.isDetailed then
      match form with
      | .short => "Print help (see more with '--help')"
      | .long => "Print help (see a summary with '-h')"
    else "Print help"

def text (p : HelpPage) (form : HelpForm) : String :=
  let body := if p.isDetailed ∧ form = .long then HelpEntry.paragraphs else HelpEntry.lines
  let options := if p.options.isEmpty then [] else p.options ++ p.helpOption form :: p.closing
  p.about ++ "\n\nUsage: cobra " ++ p.usage ++ "\n" ++
    HelpEntry.part "Commands" HelpEntry.lines p.commands ++
    HelpEntry.part "Arguments" body p.arguments ++ HelpEntry.part "Options" body options

def program : HelpPage where
  about := "Cobra compiler lowering stage"
  usage := "[OPTIONS] <COMMAND>"
  commands := [{ name := "lower", about := "Lower a typed program tree to basic-block IR" },
    { name := "layout", about := "Print the class field layouts of a typed program tree" },
    { name := "help", about := "Print this message or the help of the given subcommand(s)" }]
  options := [.verbose]
  closing := [{ name := "-V, --version", about := "Print version" }]

def lower : HelpPage where
  about := "Lower a typed program tree to basic-block IR"
  usage := "lower [OPTIONS] <FILE>"
  arguments := [.file]
  options := [{ name := "-c, --config <CONFIG>", about := "Lowering configuration (TOML)" },
    .verbose,
    { name := "-f, --format <FORMAT>"
      about := "Output format"
      note := " [default: pretty] [possible values: pretty, json]"
      details := ["", "Possible values:", "- pretty: Human-readable listing",
        "- json:   Serialized IR", "", "[default: pretty]"] },
    { name := "-o, --output <OUTPUT>", about := "Write output to a file instead of stdout" },
    { name := "    --validate", about := "Validate the lowered IR" }]

def layout : HelpPage where
  about := "Print the class field layouts of a typed program tree"
  usage := "layout [OPTIONS] <FILE>"
  arguments := [.file]
  options := [.verbose]

def help : HelpPage where
  about := "Print this message or the help of the given subcommand(s)"
  usage := "help [COMMAND]..."
  arguments := [{ name := "[COMMAND]...", about := "Print help for the subcommand(s)" }]

end HelpPage

def Topic.page : Topic → HelpPage
  | program => .program
  | command .lower => .lower
  | command .layout => .layout
  | help => .help

end BlockLowering.CommandLine
