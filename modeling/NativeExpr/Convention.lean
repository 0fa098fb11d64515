import NativeExpr.Register.Basic

/-!
# The System V calling convention

Where arguments and results are passed, which registers a call keeps, and the
order in which registers are handed out: those that a call may clobber first.
-/
namespace NativeExpr

namespace Reg

abbrev rax : Reg := gp 0
abbrev rcx : Reg := gp 1
abbrev rdx : Reg := gp 2
abbrev rbx : Reg := gp 3
abbrev rsp : Reg := gp 4
abbrev rbp : Reg := gp 5
abbrev rsi : Reg := gp 6
abbrev rdi : Reg := gp 7
abbrev r8 : Reg := gp 8
abbrev r9 : Reg := gp 9
abbrev r10 : Reg := gp 10
abbrev r11 : Reg := gp 11
abbrev r12 : Reg := gp 12
abbrev r13 : Reg := gp 13
abbrev r14 : Reg := gp 14
abbrev r15 : Reg := gp 15
abbrev xmm0 : Reg := xmm 0
abbrev xmm15 : Reg := xmm 15

/-- The general register that is never handed out. -/
abbrev scratch : Reg := r11

/-- The vector register that is never handed out. -/
abbrev floatScratch : Reg := xmm15

end Reg

namespace Convention

def generalArgs : List Reg := [.rdi, .rsi, .rdx, .rcx, .r8, .r9]

def floatArgs : List Reg := (List.range 8).map Reg.xmm

def argRegs : RegClass → List Reg
  | .general => generalArgs
  | .float => floatArgs

def calleeSaved : List Reg := [.rbx, .r12, .r13, .r14, .r15]

/-- General registers that a call may clobber; it may clobber every vector register. -/
def callerSaved : List Reg := [.rax, .rcx, .rdx, .rsi, .rdi, .r8, .r9, .r10, .r11]

def isCallerSaved (r : Reg) : Bool := callerSaved.contains r

def generalOrder : List Reg :=
  [.rax, .rcx, .rdx, .rsi, .rdi, .r8, .r9, .r10, .rbx, .r12, .r13, .r14, .r15]

def floatOrder : List Reg := (List.range 15).map Reg.xmm

def returnReg : RegClass → Reg
  | .general => .rax
  | .float => .xmm0

def alignStack (bytes : Nat) : Nat := (bytes + 15) / 16 * 16

theorem alignStack_mod (bytes : Nat) : alignStack bytes % 16 = 0 := Nat.mul_mod_left ..

theorem le_alignStack (bytes : Nat) : bytes ≤ alignStack bytes := by
  unfold alignStack
  omega

end Convention

/-- Where an argument is passed. -/
inductive ArgLocation
  | register (reg : Reg)
  /-- By byte offset in the stack arguments. -/
  | stack (offset : Nat)
  deriving DecidableEq, Repr

/-- Argument registers given out so far, and bytes of stack arguments. -/
structure ArgCursor where
  used : ByClass Nat
  stackSize : Nat
  deriving DecidableEq, Repr

namespace ArgCursor

def start : ArgCursor := ⟨⟨0, 0⟩, 0⟩

/-- The place of the next argument: a register of its class while one is left,
then the next stack slot. -/
def next (k : ArgCursor) (c : RegClass) : ArgLocation × ArgCursor :=
  match (Convention.argRegs c)[k.used.get c]? with
  | some r => (.register r, { k with used := k.used.set c (k.used.get c + 1) })
  | none => (.stack k.stackSize, { k with stackSize := k.stackSize + 8 })

/-- The places of a list of arguments, each with the stack bytes used after it. -/
def locations (k : ArgCursor) : List RegClass → List (ArgLocation × Nat)
  | [] => []
  | c :: rest =>
    let (location, k') := k.next c
    (location, k'.stackSize) :: k'.locations rest

end ArgCursor

namespace Convention

def argLocations (classes : List RegClass) : List ArgLocation :=
  (ArgCursor.start.locations classes).map Prod.fst

/-- Bytes of stack arguments of a call, before alignment. -/
def argBytes (classes : List RegClass) : Nat :=
  ((ArgCursor.start.locations classes).map Prod.snd).getLastD 0

end Convention

end NativeExpr
