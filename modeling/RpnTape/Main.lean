import RpnTape.Cli.Outcome

/-!
# Main — the command line program
-/

namespace RpnTape

/-- What is said when the command line asks for nothing the program can do. -/
def usage : String :=
  "Usage: stackmath [--format text|mathml|json] (eval|tokens|builtins) [PROGRAM...]\n"

/-- All bytes of a stream from here on. -/
partial def readRest (stream : IO.FS.Stream) (read : ByteArray) : IO ByteArray := do
  let block ← stream.read 65536
  if block.isEmpty then return read else readRest stream (read ++ block)

end RpnTape

open RpnTape in
/-- Reads the arguments, the default format and, if it is asked for, the standard input; prints the
outcome. A usage error ends with 2. -/
def main (arguments : List String) : IO UInt32 := do
  match Request.ofArguments? arguments (← IO.getEnv "STACKMATH_FORMAT") with
  | none =>
    IO.eprint usage
    return 2
  | some request =>
    let input ← if request.readsInput then readRest (← IO.getStdin) .empty else pure .empty
    let outcome := request.outcome input
    IO.print outcome.output
    IO.eprint outcome.errors
    return outcome.exit.toUInt32
