/-!
# Arena accounting

Nodes are placed in chunks that are filled from the top down. When a chunk has
no room the arena asks for one of twice its size, halving the request for as
long as a limit on the total refuses it. Only sizes matter here: an arena is the
room left in its newest chunk and the total it holds.
-/
namespace NativeExpr

structure Arena where
  limit : Option Nat
  /-- Bytes held in all chunks. -/
  allocated : Nat
  /-- Size of the newest chunk. -/
  chunk : Nat
  /-- Bytes still free at the bottom of the newest chunk. -/
  room : Nat
  deriving DecidableEq, Repr, Inhabited

namespace Arena

def minChunk : Nat := 448

/-- Bytes of every chunk that serve its own upkeep. -/
def chunkOverhead : Nat := 64

def empty (limit : Option Nat) : Arena := ⟨limit, 0, 0, 0⟩

def roundUp (n unit : Nat) : Nat := (n + unit - 1) / unit * unit

def place (a : Arena) (size align : Nat) : Option Arena :=
  let top := a.room / align * align
  if size ≤ top then some { a with room := top - size } else none

/-- Size of the chunk asked for when `base` bytes are wanted: a power of two or
a whole number of pages, with the overhead inside. -/
def chunkSize (base size : Nat) : Nat :=
  let n := max base (roundUp size 16)
  if n < 4096 then (n + chunkOverhead).nextPowerOfTwo - chunkOverhead
  else roundUp (n + chunkOverhead) 4096 - chunkOverhead

/-- Whether the limit leaves room for a chunk of `n` bytes. -/
def admits (a : Arena) (n : Nat) : Bool :=
  match a.limit with
  | none => true
  | some limit => limit < a.allocated || n ≤ limit - a.allocated

/-- A request may go below the smallest chunk only for the first chunk of an
arena whose limit is itself below it. -/
def mayShrink (a : Arena) (base size : Nat) : Bool :=
  match a.limit with
  | none => false
  | some limit => size < limit && size ≤ base && limit < minChunk && a.allocated == 0

/-- Asks for a chunk with room for `size` bytes, starting from `base` bytes and
halving the request whenever the limit refuses it. -/
def grow (a : Arena) (size base : Nat) : Option Arena :=
  if base = 0 then none
  else if max size minChunk ≤ base || a.mayShrink base size then
    let n := chunkSize base size
    if a.admits n then some { a with allocated := a.allocated + n, chunk := n, room := n }
    else a.grow size (base / 2)
  else none
termination_by base

/-- Room for `size` bytes at an alignment, in a new chunk if necessary. -/
def allocate (a : Arena) (size align : Nat) : Option Arena :=
  match a.place size align with
  | some a' => some a'
  | none => (a.grow size (max (2 * a.chunk) (max size minChunk))).bind fun a' => a'.place size align

def allocateNode (a : Arena) : Option Arena := a.allocate 40 8

def allocateOperands (a : Arena) (count : Nat) : Option Arena := a.allocate (4 * count) 4

end Arena

end NativeExpr
