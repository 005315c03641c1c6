import AgentScript.Compile

/-!
The command line. Arguments make a command, or end the run at once; a command makes an outcome from
the texts of its files. Reading, writing and printing are left to the caller.
-/
namespace AgentScript.CommandLine

inductive Target where
  | stdout
  | file (path : String)

inductive Task where
  | compile (target : Target)
  | check

structure Command where
  task : Task
  /-- A path, or `-` for the standard input. -/
  file : String
  config : Option String
  /-- Reports are written as values, not as lines. -/
  json : Bool

structure Outcome where
  exit : Nat
  stdout : String
  stderr : String
  /-- A path and the text that is written there. -/
  written : Option (String × String)

namespace Outcome

def help (text : String) : Outcome := ⟨0, text, "", none⟩

def refused (message : String) : Outcome := ⟨2, "", "ralc: " ++ message ++ "\n", none⟩

end Outcome

/-! ### Help -/

def lines (ls : List String) : String := String.join (ls.map (· ++ "\n"))

def helpText : String := lines
  ["Compile RAL units to CAOS", "", "Usage: ralc <COMMAND>", "", "Commands:",
    "  compile  Compile a resolved unit (JSON) to CAOS",
    "  check    Check a unit for errors without writing output",
    "  help     Print this message or the help of the given subcommand(s)", "", "Options:",
    "  -h, --help  Print help"]

def compileHelp : String := lines
  ["Compile a resolved unit (JSON) to CAOS", "", "Usage: ralc compile [OPTIONS] <FILE>", "",
    "Arguments:", "  <FILE>  Input unit file (or - for stdin)", "", "Options:",
    "  -c, --config <CONFIG>   Compiler config (TOML)",
    "  -o, --out <OUT>         Output file (defaults to the input with a .cos extension)",
    "      --stdout            Write to stdout instead of file",
    "      --json-diagnostics  Print diagnostics as JSON",
    "  -h, --help              Print help"]

def checkHelp : String := lines
  ["Check a unit for errors without writing output", "", "Usage: ralc check [OPTIONS] <FILE>", "",
    "Arguments:", "  <FILE>  Input unit file (or - for stdin)", "", "Options:",
    "  -c, --config <CONFIG>   Compiler config (TOML)",
    "      --json-diagnostics  Print diagnostics as JSON",
    "  -h, --help              Print help"]

def helpHelp : String := lines
  ["Print this message or the help of the given subcommand(s)", "",
    "Usage: ralc help [COMMAND]...", "", "Arguments:",
    "  [COMMAND]...  Print help for the subcommand(s)"]

/-! ### Arguments -/

/-- One argument. An option with a value may have it attached. -/
inductive Item where
  | positional (text : String)
  | config (value : Option String)
  | out (value : Option String)
  | stdout
  | json
  | help
  | rest
  | unknown

def attached? (head : String) (text : String) : Option String :=
  (afterHead? head.toList text.toList).map String.ofList

def dropEquals (text : String) : String := (attached? "=" text).getD text

/-- Options of the command `compile` alone are known only with `output`. -/
def Item.read (output : Bool) (text : String) : Item :=
  if text = "-" || !text.startsWith "-" then positional text
  else if text = "--" then rest
  else if text = "--json-diagnostics" then json
  else if text = "--help" then help
  else if text = "--config" then config none
  else if output && text = "--stdout" then stdout
  else if output && text = "--out" then out none
  else match attached? "--config=" text with
    | some value => config (some value)
    | none => match attached? "--out=" text with
      | some value => if output then out (some value) else unknown
      | none => short
where
  short : Item :=
    match text.toList with
    | ['-', 'c'] => config none
    | ['-', 'o'] => if output then out none else unknown
    | '-' :: 'c' :: value => config (some (dropEquals (String.ofList value)))
    | '-' :: 'o' :: value =>
      if output then out (some (dropEquals (String.ofList value))) else unknown
    | '-' :: 'h' :: _ => help
    | _ => unknown

structure Options where
  files : List String
  config : Option String
  out : Option String
  stdout : Bool
  json : Bool

inductive Stop where
  | help
  | usage

def isValue (text : String) : Bool := text = "-" || !text.startsWith "-"

/-- The path of the settings may not be empty. -/
def setConfig (o : Options) (value : String) : Except Stop Options :=
  if o.config.isSome || value.isEmpty then .error .usage else .ok { o with config := some value }

def setOut (o : Options) (value : String) : Except Stop Options :=
  if o.out.isSome then .error .usage else .ok { o with out := some value }

def addFile (o : Options) (file : String) : Except Stop Options :=
  if o.files.isEmpty then .ok { o with files := [file] } else .error .usage

/-- Every option may be given once, and there is one file. -/
def readOptions (output : Bool) (o : Options) : List String → Except Stop Options
  | [] => .ok o
  | arg :: args => match Item.read output arg with
    | .positional file => do readOptions output (← addFile o file) args
    | .config (some value) => do readOptions output (← setConfig o value) args
    | .out (some value) => do readOptions output (← setOut o value) args
    | .config none => match args with
      | value :: args =>
        if isValue value then do readOptions output (← setConfig o value) args
        else .error .usage
      | [] => .error .usage
    | .out none => match args with
      | value :: args =>
        if isValue value then do readOptions output (← setOut o value) args
        else .error .usage
      | [] => .error .usage
    | .stdout =>
      if o.stdout then .error .usage else readOptions output { o with stdout := true } args
    | .json => if o.json then .error .usage else readOptions output { o with json := true } args
    | .rest => args.foldlM addFile o
    | .help => .error .help
    | .unknown => .error .usage

def Options.empty : Options := ⟨[], none, none, false, false⟩

/-- The output is named after the input. -/
def defaultPath (file : String) : String :=
  if file = "-" then "output.cos"
  else if file.endsWith ".json" then (file.dropEnd 5).toString ++ ".cos"
  else file ++ ".cos"

def compileCommand (args : List String) : Except Stop Command := do
  let o ← readOptions true .empty args
  match o.files, o.out, o.stdout with
  | [file], none, true => return ⟨.compile .stdout, file, o.config, o.json⟩
  | [file], some path, false => return ⟨.compile (.file path), file, o.config, o.json⟩
  | [file], none, false => return ⟨.compile (.file (defaultPath file)), file, o.config, o.json⟩
  | _, _, _ => .error .usage

def checkCommand (args : List String) : Except Stop Command := do
  let o ← readOptions false .empty args
  match o.files with
  | [file] => return ⟨.check, file, o.config, o.json⟩
  | _ => .error .usage

def ended (help : String) : Stop → Outcome
  | .help => .help help
  | .usage => .refused "unexpected arguments"

/-- Whether an argument asks for help, which a short option does whatever follows it. -/
def asksHelp (arg : String) : Bool := arg = "--help" || (attached? "-h" arg).isSome

/-- The command that arguments make, or how the run ends without one. -/
def parse : List String → Except Outcome Command
  | "compile" :: args => (compileCommand args).mapError (ended compileHelp)
  | "check" :: args => (checkCommand args).mapError (ended checkHelp)
  | ["help", "compile"] => .error (.help compileHelp)
  | ["help", "check"] => .error (.help checkHelp)
  | ["help", "help"] => .error (.help helpHelp)
  | ["help"] => .error (.help helpText)
  | args =>
    if args.head?.any asksHelp then .error (.help helpText)
    else .error (.refused "a command is needed: compile or check")

/-! ### Commands -/

def reportText (json : Bool) (ds : List Diagnostic) : String :=
  if ds.isEmpty then ""
  else if json then (Json.array (ds.map Diagnostic.json)).pretty ++ "\n"
  else lines (ds.map Diagnostic.text)

def Command.finish (c : Command) (output : Output) : Outcome :=
  let report := reportText c.json output.diagnostics
  if !output.isOk then ⟨1, "", report, none⟩
  else match c.task with
    | .check => ⟨0, "", report, none⟩
    | .compile .stdout => ⟨0, output.code, report, none⟩
    | .compile (.file path) => ⟨0, "Wrote: " ++ path ++ "\n", report, some (path, output.code)⟩

/-- The settings that a command names, given the text of the file if it could be read. -/
def Command.settings? (c : Command) (text : Option String) : Except Outcome Config :=
  match c.config, text with
  | none, _ => .ok .standard
  | some path, none => .error (.refused ("failed to read " ++ path))
  | some _, some text => match Config.parse? text with
    | some config => .ok config
    | none => .error (.refused "invalid config")

/-- Runs a command, given the texts of its settings and of its input if they could be read. -/
def Command.run (c : Command) (settings input : Option String) : Outcome :=
  match c.settings? settings, input with
  | .error outcome, _ => outcome
  | .ok _, none => .refused ("failed to read " ++ c.file)
  | .ok config, some text => match Document.parse? text with
    | some d => c.finish (d.compile config)
    | none => .refused "invalid unit"

end AgentScript.CommandLine
