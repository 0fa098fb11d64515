import NativeExpr.Word

/-!
# Registers and register sets

A register is named by its bank and its number in the bank. Bank 0 holds the
general registers, bank 1 the vector registers; requests may name any other
register, and every operation says what it does with those.
-/
namespace NativeExpr

inductive RegClass
  | general
  | float
  deriving DecidableEq, Repr

namespace RegClass

def name : RegClass → String
  | general => "General"
  | float => "Float"

def bank : RegClass → Nat
  | general => 0
  | float => 1

end RegClass

/-- One entry for each register class. -/
structure ByClass (α : Type) where
  general : α
  float : α
  deriving DecidableEq, Repr

namespace ByClass

variable {α : Type}

def get (t : ByClass α) : RegClass → α
  | .general => t.general
  | .float => t.float

def set (t : ByClass α) (c : RegClass) (x : α) : ByClass α :=
  match c with
  | .general => { t with general := x }
  | .float => { t with float := x }

@[simp] theorem get_set (t : ByClass α) (c d : RegClass) (x : α) :
    (t.set c x).get d = if d = c then x else t.get d := by
  cases c <;> cases d <;> rfl

end ByClass

structure Reg where
  bank : Nat
  id : Nat
  deriving DecidableEq, Repr, Inhabited

namespace Reg

/-- General register by hardware number. -/
def gp (id : Nat) : Reg := ⟨0, id⟩

def xmm (id : Nat) : Reg := ⟨1, id⟩

/-- Every bank but the vector bank counts as general. -/
def regClass (r : Reg) : RegClass := if r.bank = 1 then .float else .general

/-- Position in tables that hold sixteen entries a bank. -/
def linearIndex (r : Reg) : Nat := r.bank * 16 + r.id

def describe (r : Reg) : String :=
  "AsmReg \x7b bank: " ++ toString r.bank ++ ", id: " ++ toString r.id ++ " \x7d"

end Reg

/-- A set of registers of the first two banks, sixty-four numbers each. Other
registers are never members. -/
structure RegSet where
  general : BitVec 64
  float : BitVec 64
  deriving DecidableEq, Repr, Inhabited

namespace RegSet

def empty : RegSet := ⟨0, 0⟩

/-- Whether `r` can be a member of any set. -/
def InRange (r : Reg) : Prop := r.bank < 2 ∧ r.id < 64

instance (r : Reg) : Decidable (InRange r) := inferInstanceAs (Decidable (_ ∧ _))

/-- The mask of one bank; the empty mask for a bank outside the set. -/
def mask (s : RegSet) (bank : Nat) : BitVec 64 :=
  match bank with
  | 0 => s.general
  | 1 => s.float
  | _ => 0

def contains (s : RegSet) (r : Reg) : Bool := (s.mask r.bank).getLsbD r.id

def insert (s : RegSet) (r : Reg) : RegSet :=
  match r.bank with
  | 0 => { s with general := s.general ||| BitVec.twoPow 64 r.id }
  | 1 => { s with float := s.float ||| BitVec.twoPow 64 r.id }
  | _ => s

def erase (s : RegSet) (r : Reg) : RegSet :=
  match r.bank with
  | 0 => { s with general := s.general &&& ~~~BitVec.twoPow 64 r.id }
  | 1 => { s with float := s.float &&& ~~~BitVec.twoPow 64 r.id }
  | _ => s

def union (s t : RegSet) : RegSet := ⟨s.general ||| t.general, s.float ||| t.float⟩

def ofList (regs : List Reg) : RegSet := regs.foldl insert empty

def toList (s : RegSet) : List Reg :=
  [0, 1].flatMap fun bank => ((List.range 64).map (Reg.mk bank)).filter s.contains

@[simp] theorem contains_empty (r : Reg) : empty.contains r = false := by
  obtain ⟨bank, id⟩ := r
  match bank with
  | 0 => simp [contains, mask, empty]
  | 1 => simp [contains, mask, empty]
  | _ + 2 => simp [contains, mask]

theorem getLsbD_or_twoPow (m : BitVec 64) (i j : Nat) :
    (m ||| BitVec.twoPow 64 i).getLsbD j = (m.getLsbD j || decide (i < 64 ∧ j = i)) := by
  simp only [BitVec.getLsbD_or, BitVec.getLsbD_twoPow, Bool.decide_and, @eq_comm Nat j i]

theorem getLsbD_and_not_twoPow (m : BitVec 64) (i j : Nat) :
    (m &&& ~~~BitVec.twoPow 64 i).getLsbD j = (m.getLsbD j && decide (j ≠ i)) := by
  rw [BitVec.getLsbD_and, BitVec.getLsbD_not, BitVec.getLsbD_twoPow]
  by_cases hj : j < 64
  · by_cases hi : i = j
    · simp [hj, hi]
    · simp [hj, hi, Ne.symm hi]
  · simp [BitVec.getLsbD_of_ge m j (by omega)]

theorem contains_insert (s : RegSet) (r q : Reg) :
    (s.insert r).contains q = (s.contains q || decide (InRange r ∧ q = r)) := by
  obtain ⟨b, i⟩ := r
  obtain ⟨c, j⟩ := q
  match b with
  | 0 =>
    match c with
    | 0 =>
      refine (getLsbD_or_twoPow s.general i j).trans ?_
      simp [contains, mask, InRange]
    | 1 => simp [insert, contains, mask]
    | c + 2 => simp [contains, mask]
  | 1 =>
    match c with
    | 0 => simp [insert, contains, mask]
    | 1 =>
      refine (getLsbD_or_twoPow s.float i j).trans ?_
      simp [contains, mask, InRange]
    | c + 2 => simp [contains, mask]
  | b + 2 =>
    have outside : ¬ InRange ⟨b + 2, i⟩ := fun h => absurd h.1 (by simp)
    simp [insert, outside]

theorem contains_erase (s : RegSet) (r q : Reg) :
    (s.erase r).contains q = (s.contains q && decide (q ≠ r)) := by
  obtain ⟨b, i⟩ := r
  obtain ⟨c, j⟩ := q
  match b with
  | 0 =>
    match c with
    | 0 =>
      refine (getLsbD_and_not_twoPow s.general i j).trans ?_
      simp [contains, mask]
    | 1 => simp [erase, contains, mask]
    | c + 2 => simp [contains, mask]
  | 1 =>
    match c with
    | 0 => simp [erase, contains, mask]
    | 1 =>
      refine (getLsbD_and_not_twoPow s.float i j).trans ?_
      simp [contains, mask]
    | c + 2 => simp [contains, mask]
  | b + 2 =>
    match c with
    | 0 => simp [erase]
    | 1 => simp [erase]
    | c + 2 => simp [contains, mask]

theorem contains_union (s t : RegSet) (r : Reg) :
    (s.union t).contains r = (s.contains r || t.contains r) := by
  obtain ⟨bank, id⟩ := r
  match bank with
  | 0 => simp [contains, mask, union]
  | 1 => simp [contains, mask, union]
  | _ + 2 => simp [contains, mask]

end RegSet

end NativeExpr
