import NativeExpr.Report

/-!
# The report command

Reads the arguments and the environment, makes the report and prints it.
-/
namespace NativeExpr

/-- The environment variables that options are read from. -/
def optionVariables : List String :=
  ["EXPRJIT_CODE_CAPACITY", "EXPRJIT_MAX_GP_REGS", "EXPRJIT_MAX_FP_REGS",
    "EXPRJIT_FUSE_COMPARES"]

def usage : String :=
  "usage: [-n COUNT] [-i COUNT] [--float] [--conditionals] [--max-gp-regs COUNT] "
    ++ "[--max-fp-regs COUNT] [--no-fuse] [--disasm]"

end NativeExpr

open NativeExpr in
def main (args : List String) : IO UInt32 := do
  match Report.default.ofArgs args with
  | none =>
    IO.eprintln usage
    return 2
  | some report =>
    let found ← optionVariables.mapM fun name => do return (name, ← IO.getEnv name)
    let output := report.make fun name => (found.lookup name).join
    output.lines.forM fun line => IO.println line
    IO.eprint output.complaint
    return output.code.toUInt32
