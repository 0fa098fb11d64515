import NativeExpr.Register.Basic

/-!
# Where values live

For every node the table records where its generated value is, how many reads of
it are still to come, and the frame slot set aside for it.
-/
namespace NativeExpr

inductive Storage
  | register (reg : Reg)
  /-- A frame slot, by its offset from the frame pointer. -/
  | stack (offset : Int)
  /-- A constant that instructions carry themselves. -/
  | immediate (value : Word)
  deriving DecidableEq, Repr

structure Assignment where
  storage : Option Storage
  usesLeft : Nat
  spillSlot : Option Int
  deriving DecidableEq, Repr, Inhabited

namespace Assignment

def unused : Assignment := ⟨none, 0, none⟩

def isGenerated (a : Assignment) : Bool := a.storage.isSome

def register? (a : Assignment) : Option Reg :=
  match a.storage with
  | some (.register r) => some r
  | _ => none

def isImmediate (a : Assignment) : Bool :=
  match a.storage with
  | some (.immediate _) => true
  | _ => false

def addUse (a : Assignment) : Assignment := { a with usesLeft := a.usesLeft + 1 }

def removeUse (a : Assignment) : Assignment := { a with usesLeft := a.usesLeft - 1 }

def isDead (a : Assignment) : Bool := a.usesLeft == 0

end Assignment

/-- The assignments of all nodes of one function. -/
abbrev ValueTable := Array Assignment

namespace ValueTable

def new (count : Nat) : ValueTable := Array.replicate count .unused

def entry (t : ValueTable) (index : Nat) : Assignment := t.getD index .unused

def update (t : ValueTable) (index : Nat) (f : Assignment → Assignment) : ValueTable :=
  t.modify index f

def setStorage (t : ValueTable) (index : Nat) (storage : Option Storage) : ValueTable :=
  t.update index fun a => { a with storage }

def setSpillSlot (t : ValueTable) (index : Nat) (slot : Option Int) : ValueTable :=
  t.update index fun a => { a with spillSlot := slot }

def useCounts (t : ValueTable) : Array Nat := t.map Assignment.usesLeft

end ValueTable

end NativeExpr
