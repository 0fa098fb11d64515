import NativeExpr.Word

/-!
# Compilation options

How large the code may grow, how many registers of each class may be handed out,
and whether a comparison is fused with the branch that reads it. Options can be
read from environment variables.
-/
namespace NativeExpr

structure Options where
  codeCapacity : Nat
  maxGeneral : Nat
  maxFloat : Nat
  fuseCompares : Bool
  deriving DecidableEq, Repr

namespace Options

/-- Fewest general registers that still serve division and calls. -/
def minGeneral : Nat := 4

def minFloat : Nat := 2

def default : Options := ⟨65536, 13, 15, true⟩

def withCapacity (o : Options) (capacity : Nat) : Options := { o with codeCapacity := capacity }

def withMaxGeneral (o : Options) (count : Nat) : Options :=
  { o with maxGeneral := max count minGeneral }

def withMaxFloat (o : Options) (count : Nat) : Options :=
  { o with maxFloat := max count minFloat }

def withFuseCompares (o : Options) (fuse : Bool) : Options := { o with fuseCompares := fuse }

/-- The characters of the Unicode property White_Space. -/
def isBlank (c : Char) : Bool :=
  let n := c.toNat
  (9 ≤ n && n ≤ 13) || n == 0x20 || n == 0x85 || n == 0xA0 || n == 0x1680
    || (0x2000 ≤ n && n ≤ 0x200A) || n == 0x2028 || n == 0x2029 || n == 0x202F || n == 0x205F
    || n == 0x3000

def trim (cs : List Char) : List Char :=
  ((cs.dropWhile isBlank).reverse.dropWhile isBlank).reverse

/-- The value of a string of decimal digits, none if another character stands among them. -/
def decimal? (cs : List Char) : Option Nat :=
  cs.foldl (fun n c => n.bind fun n =>
    if '0' ≤ c ∧ c ≤ '9' then some (10 * n + (c.toNat - '0'.toNat)) else none) (some 0)

/-- A count: decimal digits, possibly after a plus sign, that denote less than 2^64. -/
def parseCount (cs : List Char) : Option Nat :=
  let digits :=
    match cs with
    | '+' :: rest => rest
    | _ => cs
  if digits.isEmpty then none else (decimal? digits).filter (fitsUnsigned 64)

/-- The count a variable holds, blanks around it ignored. -/
def readCount (env : String → Option String) (name : String) : Option Nat :=
  (env name).bind fun raw => parseCount (trim raw.toList)

def adjust {α : Type} (o : Options) (value : Option α) (change : Options → α → Options) :
    Options :=
  match value with
  | some v => change o v
  | none => o

/-- The default options with the changes that environment variables ask for.
A variable that holds no count is ignored. -/
def ofEnvironment (env : String → Option String) : Options :=
  let o := default.adjust (readCount env "EXPRJIT_CODE_CAPACITY") withCapacity
  let o := o.adjust (readCount env "EXPRJIT_MAX_GP_REGS") withMaxGeneral
  let o := o.adjust (readCount env "EXPRJIT_MAX_FP_REGS") withMaxFloat
  o.adjust (env "EXPRJIT_FUSE_COMPARES") fun o flag =>
    o.withFuseCompares !(["0", "false", "off"].contains flag)

end Options

end NativeExpr
