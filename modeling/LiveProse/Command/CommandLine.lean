import LiveProse.Command.Options
import LiveProse.Command.Report
import LiveProse.Script.Reader

/-!
The command line: which arguments ask for what, which files are read for it, and what is printed.
Files are read in any monad, so that the same command runs on a disk and on files in memory.
-/

namespace LiveProse

/-- What a run of the program leaves behind. -/
structure Outcome where
  /-- The exit code. It is one after an error. -/
  code : UInt32 := 0
  output : String := ""
  errors : String := ""
deriving DecidableEq, Repr

namespace CommandLine

/-- The help. -/
def help : List String :=
  ["Quill (incremental Inform 7 lexing and parsing)",
    "",
    "Usage: quill <command> [options]",
    "",
    "Commands:",
    "  lex <file>              Dump tokens with their lexical states",
    "  highlight <file>        Dump highlight runs",
    "  parse <file>            Dump complete matches under the core grammar",
    "  replay <file> <script>  Apply an edit script and print what changed",
    "  help                    Show this help message",
    "  version                 Show version information",
    "",
    "Options:",
    "  --highlights=<level>    Highlight codes to report: all (default), basic",
    "  --stats                 Report derivation statistics",
    "",
    "Edit scripts hold one edit per line:",
    "  +<index> <text>         Insert text before a codepoint",
    "  -<lo> <hi>              Remove codepoints lo..hi",
    "",
    "Environment:",
    "  RUST_LOG, QUILL_LOG     Tracing filter, e.g. quill_parse=debug",
    "  QUILL_LOG_TREE=1        Show nested spans as a tree"]

/-- What is printed for the version. -/
def version : List String := ["Quill 0.1.0-alpha.1"]

/-- The lines, each of them ended by a newline. -/
def printed (lines : List String) : String :=
  String.join (lines.map (· ++ "\n"))

/-- The commands that report on a file. -/
inductive Command where
  | lex
  | highlight
  | parse
  | replay
deriving DecidableEq, Repr

def Command.ofName? (name : Text) : Option Command :=
  if name = "lex".toList then some lex
  else if name = "highlight".toList then some highlight
  else if name = "parse".toList then some parse
  else if name = "replay".toList then some replay
  else none

/-- How a file is read in a monad. -/
abbrev ReadFile (m : Type → Type) := Text → m (Except ReadFault Text)

section

variable {m : Type → Type} [Monad m]

/-- The text of the file that an argument names. -/
def source (readFile : ReadFile m) (options : Options) (index : Nat) (name : String) :
    ExceptT CommandError m Text := do
  let path ← ExceptT.mk (pure (options.get index name.toList))
  ExceptT.mk ((·.mapError (.read path)) <$> readFile path)

/-- The lines that a command prints. A script is read and understood before the file it is for. -/
def report (readFile : ReadFile m) (options : Options) :
    Command → ExceptT CommandError m (List String)
  | .lex => do
    let text ← source readFile options 0 "file"
    ExceptT.mk (pure (Report.lex options.config text))
  | .highlight => do
    let text ← source readFile options 0 "file"
    ExceptT.mk (pure (Report.highlight options.config text))
  | .parse => do
    let text ← source readFile options 0 "file"
    ExceptT.mk (pure (Report.parse options.config text))
  | .replay => do
    let script ← source readFile options 1 "edit script"
    let edits ← ExceptT.mk (pure ((Script.read script).mapError CommandError.script))
    let text ← source readFile options 0 "file"
    ExceptT.mk (pure (Report.replay options.config text edits))

/-- The lines of the command of a name. Options are understood before the name is. -/
def reportNamed (readFile : ReadFile m) (name : Text) (arguments : List Text) :
    ExceptT CommandError m (List String) := do
  let options ← ExceptT.mk (pure (Options.parse arguments))
  match Command.ofName? name with
  | some command => report readFile options command
  | none => throw (.unknownCommand name)

/-- What an error leaves behind. -/
def failed (error : CommandError) : Outcome where
  code := 1
  output := if error.isMiscall then printed help else ""
  errors := printed (("error: " ++ error.message) :: if error.isMiscall then [""] else [])

/-- Runs the program with some arguments, the name of the program left out. -/
def run (readFile : ReadFile m) : List Text → m Outcome
  | [] => pure { output := printed help }
  | name :: arguments =>
    if ["help", "--help", "-h"].contains (String.ofList name) then pure { output := printed help }
    else if ["version", "--version", "-v"].contains (String.ofList name) then
      pure { output := printed version }
    else do
      match ← reportNamed readFile name arguments with
      | .ok lines => return { output := printed lines }
      | .error error => return failed error

end

end CommandLine

end LiveProse
