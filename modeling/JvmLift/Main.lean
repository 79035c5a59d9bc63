import JvmLift.Command

/-!
# The program

Reads the file that the arguments name and prints the answer. Arguments that follow no rule end with code `2`.
-/

open JvmLift

def usage : String :=
  "Usage: jvmlift info FILE\n" ++
  "       jvmlift disasm FILE [-m NAME]\n" ++
  "       jvmlift cfg FILE [-m NAME]\n" ++
  "       jvmlift decompile FILE [-m NAME] [--no-regions] [--no-simplify] [--show-intrinsics]\n"

def main (args : List String) : IO UInt32 := do
  match Invocation.ofArgs? args with
  | none =>
    IO.eprint usage
    return 2
  | some invocation =>
    try
      let text ← IO.FS.readFile invocation.file
      let report := invocation.command.run text
      IO.print report.stdout
      IO.eprint report.stderr
      return UInt32.ofNat report.code
    catch e =>
      IO.eprintln s!"Error: {invocation.file}: {e}"
      return 1
