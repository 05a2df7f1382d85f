import StraightForth.Invocation

/-!
# The command line

The program runs or compiles the file that its arguments name, with the disk as its host.
-/

namespace StraightForth

/-- What the system's refusal means. It gives number 21 to a directory in the place of a file,
and 20 to a file in the place of a directory. -/
def AccessFailure.ofError : IO.Error → AccessFailure
  | .noFileOrDirectory .. => .missing
  | .inappropriateType _ 21 _ => .isDirectory
  | .inappropriateType .. => .notDirectory
  | error => .other error.toString

/-- Turn a refusal by the system into a value. -/
def attempt {α : Type} (action : IO α) : IO (Except AccessFailure α) :=
  try return .ok (← action)
  catch error => return .error (.ofError error)

/-- The files on disk. -/
def disk : Host IO where
  read path := attempt (IO.FS.readBinFile path)
  write path content := attempt (IO.FS.writeFile path content)

end StraightForth

open StraightForth in
/-- Do what the arguments ask. -/
def main (arguments : List String) : IO UInt32 := do
  match Invocation.ofArguments? arguments with
  | none =>
      IO.eprintln ("usage: straightforth FILE [--recover] [--fresh] [--log-level LEVEL] " ++
        "[--emit-asm OUT]")
      return 2
  | some invocation =>
      let response ← invocation.perform disk
      IO.print response.transcript.stdout
      IO.eprint response.transcript.stderr
      return response.exitCode
