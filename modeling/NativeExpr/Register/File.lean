import NativeExpr.Register.Basic

/-!
# The register file

Registers of each class are handed out in a fixed order. When a class has no
free register, a clock walks its order and gives up the next register that is
owned by a value and not locked; whoever asked has to save that value. Snapshots
hold everything that later requests depend on.
-/
namespace NativeExpr

/-- What occupies a register: a value that may be evicted, or a temporary that may not. -/
inductive Owner
  | value (index : Nat)
  | temp
  deriving DecidableEq, Repr

def Owner.value? : Owner → Option Nat
  | .value index => some index
  | .temp => none

inductive RegisterError
  | noneAvailable (regClass : RegClass)
  | notAllocated (reg : Reg)
  | inUse (reg : Reg)
  | notAllocatable (reg : Reg)
  | lockUnderflow (reg : Reg)
  deriving DecidableEq, Repr

def RegisterError.message : RegisterError → String
  | noneAvailable c => "no " ++ c.name ++ " register available"
  | notAllocated r => "register " ++ r.describe ++ " is not allocated"
  | inUse r => "register " ++ r.describe ++ " is already allocated"
  | notAllocatable r => "register " ++ r.describe ++ " is not allocatable"
  | lockUnderflow r => "lock count underflow on " ++ r.describe

/-- Occupancy of the registers: everything that a request for one depends on. -/
structure Occupancy where
  used : RegSet
  fixed : RegSet
  clock : ByClass Nat
  owners : Array (Option Owner)
  /-- Locks on each register. While fewer than 256 are on one a byte holds their number. -/
  locks : Array Nat

structure RegisterFile extends Occupancy where
  order : ByClass (List Reg)
  allocatable : RegSet
  /-- Every register handed out so far. -/
  touched : RegSet
  /-- How many requests were served. -/
  served : Nat

/-- A register that was handed out, and the value evicted from it, if any. -/
structure Allocation where
  reg : Reg
  evicted : Option Nat
  deriving DecidableEq, Repr

namespace RegisterFile

/-- Entries of the owner and lock tables: two banks of sixteen. -/
def tableSize : Nat := 32

/-- All registers free, to be handed out in the given orders. -/
def new (general float : List Reg) : RegisterFile where
  order := ⟨general, float⟩
  allocatable := (RegSet.ofList general).union (RegSet.ofList float)
  used := .empty
  fixed := .empty
  touched := .empty
  clock := ⟨0, 0⟩
  owners := Array.replicate tableSize none
  locks := Array.replicate tableSize 0
  served := 0

def owner (f : RegisterFile) (r : Reg) : Option Owner := f.owners[r.linearIndex]?.join

def isAllocated (f : RegisterFile) (r : Reg) : Bool := f.used.contains r
def isLocked (f : RegisterFile) (r : Reg) : Bool := f.fixed.contains r
def isAllocatable (f : RegisterFile) (r : Reg) : Bool := f.allocatable.contains r

/-- Allocated registers of a class, in allocation order. -/
def allocatedIn (f : RegisterFile) (c : RegClass) : List Reg :=
  (f.order.get c).filter f.used.contains

/-- The candidates that were handed out at some time. -/
def touchedAmong (f : RegisterFile) (candidates : List Reg) : List Reg :=
  candidates.filter f.touched.contains

def assign (f : RegisterFile) (r : Reg) (owner : Owner) : RegisterFile :=
  { f with
    used := f.used.insert r
    touched := f.touched.insert r
    fixed := f.fixed.erase r
    owners := f.owners.setIfInBounds r.linearIndex (some owner)
    locks := f.locks.setIfInBounds r.linearIndex 0
    served := f.served + 1 }

/-- Whether the clock may take a register: a value owns it and no lock is on it. -/
def isEvictable (f : RegisterFile) (r : Reg) : Bool :=
  ((f.owner r).bind Owner.value?).isSome && !f.fixed.contains r

/-- The clock's next victim in at most `steps` steps from `hand`, with the
position after it. Without a victim the hand has gone round. -/
def sweep (f : RegisterFile) (order : List Reg) (hand : Nat) : Nat → Option Reg × Nat
  | 0 => (none, hand)
  | steps + 1 =>
    let next := (hand + 1) % order.length
    match order[hand % order.length]? with
    | some r => if f.isEvictable r then (some r, next) else f.sweep order next steps
    | none => (none, hand)

/-- A register of the class for `owner`: the preferred one if it is a free
register of the class, else the first free one, else the clock's victim. -/
def allocate (c : RegClass) (owner : Owner) (preferred : Option Reg) :
    EStateM RegisterError RegisterFile Allocation := do
  let f ← get
  let order := f.order.get c
  let free (r : Reg) : Bool := !f.used.contains r
  let hinted := preferred.filter fun r => order.contains r && free r
  match hinted <|> order.find? free with
  | some r =>
    set (f.assign r owner)
    return ⟨r, none⟩
  | none =>
    let (victim, hand) := f.sweep order (f.clock.get c) order.length
    let f' := { f with clock := f.clock.set c hand }
    match victim with
    | some r =>
      set (f'.assign r owner)
      return ⟨r, (f.owner r).bind Owner.value?⟩
    | none =>
      set f'
      throw (.noneAvailable c)

/-- Claims one particular free register. -/
def take (r : Reg) (owner : Owner) : EStateM RegisterError RegisterFile Unit := do
  let f ← get
  unless f.allocatable.contains r do throw (.notAllocatable r)
  if f.used.contains r then throw (.inUse r)
  set (f.assign r owner)

def reassign (r : Reg) (owner : Owner) : EStateM RegisterError RegisterFile Unit := do
  let f ← get
  unless f.used.contains r do throw (.notAllocated r)
  set { f with owners := f.owners.setIfInBounds r.linearIndex (some owner) }

def free (r : Reg) : EStateM RegisterError RegisterFile Unit := do
  let f ← get
  unless f.used.contains r do throw (.notAllocated r)
  set { f with
    used := f.used.erase r
    fixed := f.fixed.erase r
    owners := f.owners.setIfInBounds r.linearIndex none
    locks := f.locks.setIfInBounds r.linearIndex 0 }

def lock (r : Reg) : EStateM RegisterError RegisterFile Unit := do
  let f ← get
  unless f.used.contains r do throw (.notAllocated r)
  set { f with
    fixed := f.fixed.insert r
    locks := f.locks.modify r.linearIndex (· + 1) }

/-- Takes one lock away; with the last one the register can be evicted again. -/
def unlock (r : Reg) : EStateM RegisterError RegisterFile Unit := do
  let f ← get
  match f.locks[r.linearIndex]? with
  | some (n + 1) =>
    set { f with
      fixed := if n = 0 then f.fixed.erase r else f.fixed
      locks := f.locks.setIfInBounds r.linearIndex n }
  | _ => throw (.lockUnderflow r)

def snapshot (f : RegisterFile) : Occupancy := f.toOccupancy

/-- Returns to an earlier occupancy; what was handed out stays on record. -/
def restore (f : RegisterFile) (s : Occupancy) : RegisterFile := { f with toOccupancy := s }

end RegisterFile

end NativeExpr
