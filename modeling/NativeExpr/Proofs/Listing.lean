import Mathlib.Algebra.Group.Nat.Defs
import NativeExpr.Proofs.Layout
import NativeExpr.X64.Text

/-!
# Code taken apart

Encoded instructions one after the other are taken apart again into the same instructions,
each at the offset it was put at, by every reader that takes their encodings. So a listing of
the code has one line for each instruction, with its address, its bytes and its text.
-/
namespace NativeExpr.X64

open NativeExpr

/-- The encodings of instructions, one after the other. -/
def encodeAll (is : List Instruction) : List Byte := is.flatMap Instruction.encode

/-- Instructions with the places they start at, the first at `start`. -/
def placed (start : Nat) : List Instruction → List (Nat × Instruction)
  | [] => []
  | i :: is => (start, i) :: placed (start + i.encode.length) is

variable {is is' : List Instruction} {i : Instruction} {start place : Nat}

@[simp] theorem encodeAll_cons : encodeAll (i :: is) = i.encode ++ encodeAll is := rfl

@[simp] theorem encodeAll_append : encodeAll (is ++ is') = encodeAll is ++ encodeAll is' :=
  List.flatMap_append

theorem blanks_instrs (is : List Instruction) : blanks (is.map .instr) = encodeAll is := by
  rw [blanks, List.flatMap_map]
  rfl

theorem mem_placed (h : (place, i) ∈ placed start is) :
    ∃ before after, is = before ++ i :: after ∧ place = start + (encodeAll before).length := by
  induction is generalizing start with
  | nil => cases h
  | cons j is ih =>
    rcases List.mem_cons.1 h with here | later
    · cases here
      exact ⟨[], is, rfl, rfl⟩
    · obtain ⟨before, after, same, at_⟩ := ih later
      refine ⟨j :: before, after, by rw [same, List.cons_append], ?_⟩
      rw [at_, encodeAll_cons, List.length_append, Nat.add_assoc]

theorem mem_of_mem_placed (h : (place, i) ∈ placed start is) : i ∈ is := by
  obtain ⟨before, after, rfl, -⟩ := mem_placed h
  exact List.mem_append_right _ (List.mem_cons_self ..)

theorem placed_append : placed start (is ++ is') =
    placed start is ++ placed (start + (encodeAll is).length) is' := by
  induction is generalizing start with
  | nil => rfl
  | cons i is ih =>
    rw [List.cons_append, placed, placed, ih, encodeAll_cons, List.length_append, Nat.add_assoc,
      List.cons_append]

theorem placed_add (base start : Nat) (is : List Instruction) :
    placed (base + start) is = (placed start is).map fun (place, i) => (base + place, i) := by
  induction is generalizing start with
  | nil => rfl
  | cons i is ih => rw [placed, placed, Nat.add_assoc, ih, List.map_cons]

/-- The instructions of a program as seen from another address. -/
theorem placed_eq (base : Nat) (is : List Instruction) :
    placed base is = (placed 0 is).map fun (place, i) => (base + place, i) :=
  placed_add base 0 is

section

variable {α : Type} {read : List Byte → Option (α × List Byte)} {f : Instruction → α}
variable (reads : ∀ i rest, i.refused? = none → read (i.encode ++ rest) = some (f i, rest))
include reads

theorem sweep_from {code : Array Byte} (before : List Byte)
    (hcode : code.toList = before ++ encodeAll is) (valid : ∀ i ∈ is, i.refused? = none)
    {fuel : Nat} (enough : (encodeAll is).length ≤ fuel) :
    sweep read code before.length fuel =
      (placed before.length is).map fun (place, i) => (some (f i), place, i.encode.length) := by
  have size : code.size = before.length + (encodeAll is).length := by
    rw [← Array.length_toList, hcode, List.length_append]
  induction is generalizing before fuel with
  | nil =>
    cases fuel with
    | zero => rfl
    | succ fuel => exact if_pos (Nat.le_of_eq size)
  | cons i is ih =>
    have long := (length_encode i).1
    rw [encodeAll_cons, List.length_append] at size enough
    obtain ⟨fuel, rfl⟩ : ∃ n, fuel = n + 1 := ⟨fuel - 1, by omega⟩
    have here : readAt read code before.length = some (f i, i.encode.length) :=
      readAt_of_append (fun rest => reads i rest (valid i (List.mem_cons_self ..))) hcode
    have next := ih (before ++ i.encode) (by rw [hcode, encodeAll_cons, List.append_assoc])
      (fun j hj => valid j (List.mem_cons_of_mem _ hj))
      (show (encodeAll is).length ≤ fuel by omega) (by rw [size, List.length_append, Nat.add_assoc])
    rw [List.length_append] at next
    rw [sweep, if_neg (by omega), here]
    dsimp only
    rw [Nat.max_eq_left long, next]
    rfl

/-- Code of encoded instructions falls into these instructions for every reader that takes
their encodings. -/
theorem sweep_eq {code : Array Byte} (hcode : code.toList = encodeAll is)
    (valid : ∀ i ∈ is, i.refused? = none) : sweep read code 0 code.size =
      (placed 0 is).map fun (place, i) => (some (f i), place, i.encode.length) :=
  sweep_from reads [] hcode valid (Nat.le_of_eq (by rw [← hcode, Array.length_toList]))

end

theorem instructions_eq {code : Array Byte} (hcode : code.toList = encodeAll is)
    (valid : ∀ i ∈ is, i.refused? = none) :
    instructions code = (placed 0 is).map fun (place, i) => (some i, place, i.encode.length) :=
  sweep_eq (fun _ _ h => decode_encode h) hcode valid

/-- A line of a listing: the address of an instruction, its bytes and its text. -/
def listingLine (start : Nat) (raw : List Byte) (text : String) : String :=
  let digits := String.join (raw.map fun b => Text.paddedHex 2 b.toNat)
  let padding := String.ofList (List.replicate (24 - digits.length) ' ')
  Text.paddedHex 16 start ++ " " ++ digits ++ padding ++ " " ++ text

theorem read_encode (h : i.refused? = none) (rest : List Byte) :
    Text.read (i.encode ++ rest) = some ((fun next => Text.instruction next i), rest) := by
  rw [Text.read, decode_encode h]

/-- A listing has a line for each instruction, and their addresses follow each other from the
address of the code on. -/
theorem listingLines_eq {code : Array Byte} (hcode : code.toList = encodeAll is)
    (valid : ∀ i ∈ is, i.refused? = none) {address : Word}
    (below : address.toNat + code.size < 2 ^ 64) :
    listingLines code address = (placed address.toNat is).map fun (start, i) =>
      listingLine start i.encode
        (Text.instruction (BitVec.ofNat 64 (start + i.encode.length)) i) := by
  have size : code.size = (encodeAll is).length := by rw [← hcode, Array.length_toList]
  have found : sweep Text.read code 0 code.size =
      (placed 0 is).map fun (place, i) =>
        (some fun next => Text.instruction next i, place, i.encode.length) :=
    sweep_eq (fun i rest h => read_encode h rest) hcode valid
  rw [listingLines, Text.pieces, found, placed_eq address.toNat]
  simp only [List.map_map]
  refine List.map_congr_left fun ⟨place, i⟩ h => ?_
  obtain ⟨before, after, same, at_⟩ := mem_placed h
  rw [Nat.zero_add] at at_
  have total : (encodeAll is).length =
      place + (i.encode.length + (encodeAll after).length) := by
    rw [same, encodeAll_append, encodeAll_cons, List.length_append, List.length_append, at_]
  have raw : (code.extract place (place + i.encode.length)).toList = i.encode := by
    rw [Array.toList_extract, List.extract_eq_take_drop, hcode, same, encodeAll_append, at_,
      List.drop_left' rfl, Nat.add_sub_cancel_left, encodeAll_cons, List.take_left' rfl]
  have start : (address + BitVec.ofNat 64 place).toNat = address.toNat + place := by
    rw [BitVec.toNat_add, BitVec.toNat_ofNat]
    omega
  have next : address + BitVec.ofNat 64 (place + i.encode.length) =
      BitVec.ofNat 64 (address.toNat + place + i.encode.length) := by
    rw [Nat.add_assoc, BitVec.ofNat_add address.toNat, BitVec.ofNat_toNat, BitVec.setWidth_eq]
  simp only [Function.comp, listingLine, raw, start, next]

end NativeExpr.X64
