import MiniLisp.CommandLine

set_option autoImplicit false

open MiniLisp

def readVariables : IO Variables := do
  let names := ["NORA_RECURSION_LIMIT", "NORA_LOG_LEVEL", "NORA_COLOR", "NORA_PROMPT"]
  let pairs ← names.mapM fun name => do return (name, ← IO.getEnv name)
  return fun name => (pairs.lookup name).join

def flushLog (level : Nat) (s : Store) : IO Store := do
  (← IO.getStderr).putStr (Log.lines level s)
  return { s with journal := [] }

partial def talk (p : CommandLine.Plan) (s : Store) : IO Unit := do
  let output ← IO.getStdout
  output.putStr p.shell.prompt
  output.flush
  let line ← (← IO.getStdin).getLine
  if line.isEmpty then output.putStr "\n"
  else
    let (reply, s) := p.shell.respond (.ofList (Shell.withoutLineEnd line.toList)) s
    let s ← flushLog p.logLevel s
    output.putStr reply.output
    if reply = .stop then return
    talk p s

def main (arguments : List String) : IO UInt32 := do
  let (frame, s) := Store.empty.addGlobal
  match CommandLine.plan CommandLine.hostLimit arguments (← readVariables) frame with
  | .error r =>
    (← IO.getStdout).putStr r.output
    (← IO.getStderr).putStr r.errorOutput
    return UInt32.ofNat r.exitCode
  | .ok p =>
    if p.command.isSome then
      let r := p.run "" s
      (← IO.getStdout).putStr r.output
      (← IO.getStderr).putStr r.errorOutput
      return UInt32.ofNat r.exitCode
    else
      (← IO.getStdout).putStr (Shell.introText Shell.banner)
      talk p s
      return 0
