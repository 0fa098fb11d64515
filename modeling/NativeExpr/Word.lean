/-!
# Words, bytes and memory

Machine words, the little-endian byte strings that code and memory are made of,
and byte-addressed memory as a total function.
-/
namespace NativeExpr

abbrev Byte := BitVec 8
abbrev Word := BitVec 64

variable {w : Nat}

/-- The `n` low bytes of `x`, least significant first. -/
def leBytes (x : BitVec w) : Nat → List Byte
  | 0 => []
  | n + 1 => x.setWidth 8 :: leBytes (x >>> 8) n

/-- The number written by a byte string, least significant byte first. -/
def leNat : List Byte → Nat
  | [] => 0
  | b :: bs => b.toNat + 256 * leNat bs

@[simp] theorem length_leBytes (x : BitVec w) (n : Nat) : (leBytes x n).length = n := by
  induction n generalizing x with
  | zero => rfl
  | succ n ih => simp [leBytes, ih]

theorem leNat_leBytes (x : BitVec w) (n : Nat) :
    leNat (leBytes x n) = (x.setWidth (8 * n)).toNat := by
  induction n generalizing x with
  | zero => simp [leBytes, leNat, Nat.mod_one]
  | succ n ih =>
    have split : 2 ^ (8 * (n + 1)) = 256 * 2 ^ (8 * n) := by
      rw [Nat.mul_succ, Nat.pow_add, Nat.mul_comm]
    simp only [leBytes, leNat, ih, BitVec.toNat_setWidth, BitVec.toNat_ushiftRight,
      Nat.shiftRight_eq_div_pow, split]
    exact (Nat.mod_mul (x := x.toNat) (a := 256) (b := 2 ^ (8 * n))).symm

/-- A word that was widened by its sign is found again in the low bits. -/
theorem setWidth_signExtend_cancel {v : Nat} (x : BitVec w) (h : w ≤ v) :
    (x.signExtend v).setWidth w = x := by
  apply BitVec.eq_of_getLsbD_eq
  intro i hi
  rw [BitVec.getLsbD_setWidth, BitVec.getLsbD_signExtend]
  simp only [hi, Nat.lt_of_lt_of_le hi h, decide_true, if_true, Bool.true_and]

/-- A word that was widened with zeros is found again in the low bits. -/
theorem setWidth_setWidth_cancel {v : Nat} (x : BitVec w) (h : w ≤ v) :
    (x.setWidth v).setWidth w = x := by
  rw [BitVec.setWidth_setWidth_of_le _ h, BitVec.setWidth_eq]

/-- Whether a number is the value of an unsigned word of `w` bits. -/
def fitsUnsigned (w n : Nat) : Bool := (BitVec.ofNat w n).toNat == n

/-- Whether a number is the value of a signed word of `w` bits. -/
def fitsSigned (w : Nat) (n : Int) : Bool := (BitVec.ofInt w n).toInt == n

@[simp] theorem fitsUnsigned_toNat (x : BitVec w) : fitsUnsigned w x.toNat = true := by
  simp [fitsUnsigned]

@[simp] theorem fitsSigned_toInt (x : BitVec w) : fitsSigned w x.toInt = true := by
  simp [fitsSigned]

theorem fitsSigned_iff {i : Int} :
    fitsSigned 32 i = true ↔ -2147483648 ≤ i ∧ i ≤ 2147483647 := by
  rw [fitsSigned, beq_iff_eq]
  refine ⟨fun same => ?_, fun ⟨low, high⟩ => ?_⟩
  · rw [← same]
    have low := BitVec.le_toInt (BitVec.ofInt 32 i)
    have high := BitVec.toInt_lt (x := BitVec.ofInt 32 i)
    omega
  · rw [BitVec.toInt_ofInt]
    exact Int.bmod_eq_of_le (by omega) (by omega)

/-- Byte-addressed memory; every address holds a byte. -/
abbrev Memory := Word → Byte

namespace Memory

def zero : Memory := fun _ => 0

/-- The `n` bytes from `address` on; addresses wrap. -/
def bytes (m : Memory) (address : Word) (n : Nat) : List Byte :=
  (List.range n).map fun i => m (address + BitVec.ofNat 64 i)

/-- The little-endian number of `n` bytes at `address`. -/
def load (m : Memory) (address : Word) (n : Nat) : Word :=
  BitVec.ofNat 64 (leNat (m.bytes address n))

def storeBytes (m : Memory) (address : Word) (data : Array Byte) : Memory := fun a =>
  match data[(a - address).toNat]? with
  | some b => b
  | none => m a

/-- Writes the eight bytes of `value` at `address`. -/
def store (m : Memory) (address value : Word) : Memory := fun a =>
  let i := (a - address).toNat
  if i < 8 then (value >>> (8 * i)).setWidth 8 else m a

end Memory

end NativeExpr
