import MiniLisp.Options
import MiniLisp.Settings
import MiniLisp.Shell

set_option autoImplicit false

namespace MiniLisp

namespace CommandLine

/-- The limit of a host that has not been told another one. -/
def hostLimit : Nat := 1000

def usage : String :=
  "usage: nora [-h] [-c COMMAND] [--no-color] [--recursion-limit RECURSION_LIMIT]\n" ++
  "            [--log-level LOG_LEVEL]\n"

def help : String :=
  usage ++ "\n" ++ Shell.banner ++ "\n\noptions:\n" ++
  "  -h, --help            show this help message and exit\n" ++
  "  -c COMMAND, --command COMMAND\n" ++
  "                        evaluate CODE, print the results and exit\n" ++
  "  --no-color            disable colored error output\n" ++
  "  --recursion-limit RECURSION_LIMIT\n" ++
  "                        host recursion limit (default: $NORA_RECURSION_LIMIT\n" ++
  "                        or 10000)\n" ++
  "  --log-level LOG_LEVEL\n" ++
  "                        logging level (default: $NORA_LOG_LEVEL or WARNING)\n"

structure Result where
  exitCode : Nat
  output : String
  errorOutput : String
  deriving DecidableEq, Repr

structure Plan where
  shell : Shell
  logLevel : Nat
  command : Option String
  deriving DecidableEq, Repr

/-- The level that an option names, unless it is empty. -/
def logLevel (o : Options) (settings : Settings) : Nat :=
  match o.logLevel with
  | none | some "" => settings.logLevel
  | some name => Log.levelNamed name.toList

/-- How deep expressions may stand inside each other, in source text and in evaluation.  The host's
own limit can only be raised, by what the options ask for unless that is zero. -/
def depthLimit (host : Nat) (o : Options) (settings : Settings) : Nat :=
  match o.recursionLimit with
  | none | some 0 => max host settings.recursionLimit.toNat
  | some limit => max host limit.toNat

def plan (host : Nat) (arguments : List String) (vars : Variables) (frame : FrameRef) :
    Except Result Plan :=
  match Options.parse arguments with
  | .error .help => .error ⟨0, help, ""⟩
  | .error (.misuse m) => .error ⟨2, "", usage ++ "nora: error: " ++ m.message ++ "\n"⟩
  | .ok o =>
    let settings := Settings.ofVariables vars
    .ok ⟨⟨depthLimit host o settings, frame, settings.prompt, settings.color && !o.noColor⟩,
      logLevel o settings, o.command⟩

def Plan.run (p : Plan) (input : String) (s : Store) : Result :=
  match p.command with
  | some source =>
    let (r, s) := p.shell.run source s
    ⟨if r.1.ok then 0 else 1, r.2, Log.lines p.logLevel s⟩
  | none =>
    let (output, s) := p.shell.session Shell.banner input s
    ⟨0, output, Log.lines p.logLevel s⟩

def run (host : Nat) (arguments : List String) (vars : Variables) (input : String) : Result :=
  let (frame, s) := Store.empty.addGlobal
  match plan host arguments vars frame with
  | .error r => r
  | .ok p => p.run input s

end CommandLine
end MiniLisp
