import NativeExpr.Machine.Foreign
import NativeExpr.Proofs.Registers

/-!
# Registers by name and stack cells

Writing a register by name changes that register and nothing else, and writing
eight bytes of memory changes what is loaded from there and nothing apart from it.
The stack of a function is described by what is apart from what: spill slots from
each other, from what the caller keeps on the stack and from the memory that
expressions read.
-/
namespace NativeExpr

namespace Memory

variable {m m' : Memory} {a b x : Word} {n : Nat}

theorem load_congr (h : ∀ i < n, m (a + BitVec.ofNat 64 i) = m' (a + BitVec.ofNat 64 i)) :
    m.load a n = m'.load a n := by
  have : m.bytes a n = m'.bytes a n := List.map_congr_left fun i hi => h i (List.mem_range.1 hi)
  rw [load, load, this]

theorem store_of_le (h : 8 ≤ (b - a).toNat) : m.store a x b = m b := by
  simp only [store]
  rw [if_neg (by omega)]

theorem store_add {i : Nat} (hi : i < 8) :
    m.store a x (a + BitVec.ofNat 64 i) = (x >>> (8 * i)).setWidth 8 := by
  have : (a + BitVec.ofNat 64 i - a).toNat = i := by
    rw [BitVec.add_comm, BitVec.add_sub_cancel, BitVec.toNat_ofNat, Nat.mod_eq_of_lt (by omega)]
  simp only [store, this, if_pos hi]

theorem load_store : (m.store a x).load a 8 = x := by
  have bytes : (m.store a x).bytes a 8 = leBytes x 8 := by
    have : (m.store a x).bytes a 8 = (List.range 8).map fun i => (x >>> (8 * i)).setWidth 8 :=
      List.map_congr_left fun i hi => store_add (List.mem_range.1 hi)
    rw [this]
    simp [List.range, List.range.loop, leBytes, ← BitVec.shiftRight_add]
  rw [load, bytes, leNat_leBytes]
  simp

end Memory

namespace Reg

def num (r : Reg) : X64.RegNum := BitVec.ofNat 4 r.id

theorem Valid.num_inj {r q : Reg} (hr : r.Valid) (hq : q.Valid) (hc : r.regClass = q.regClass) :
    r.num = q.num ↔ r = q := by
  obtain ⟨b, i⟩ := r
  obtain ⟨c, j⟩ := q
  obtain ⟨hb, hi⟩ := hr
  obtain ⟨hc', hj⟩ := hq
  simp only [regClass, num, mk.injEq] at *
  constructor
  · intro h
    have := congrArg BitVec.toNat h
    simp only [BitVec.toNat_ofNat] at this
    refine ⟨?_, by omega⟩
    split at hc <;> split at hc <;> first | omega | cases hc
  · rintro ⟨-, rfl⟩
    rfl

end Reg

namespace Machine.State

open X64

variable {s : State} {r q : Reg} {x y : Word}

theorem getElem_set_num (v : Vector Word 16) (r q : RegNum) (x : Word) :
    (v.set r.toNat x)[q.toNat] = if q = r then x else v[q.toNat] := by
  rw [Vector.getElem_set]
  by_cases h : q = r
  · rw [if_pos h, if_pos (by rw [h])]
  · rw [if_neg h, if_neg fun e => h (BitVec.eq_of_toNat_eq e.symm)]

theorem reg_setReg (s : State) (r q : RegNum) (x : Word) :
    (s.setReg r x).reg q = if q = r then x else s.reg q :=
  getElem_set_num s.general r q x

theorem xmm_setXmm (s : State) (r q : RegNum) (x : Word) :
    (s.setXmm r x).xmm q = if q = r then x else s.xmm q :=
  getElem_set_num s.vector r q x

theorem named_general (hc : r.regClass = .general) : s.named r = s.reg r.num := by
  rw [named, hc]
  rfl

theorem named_float (hc : r.regClass = .float) : s.named r = s.xmm r.num := by
  rw [named, hc]
  rfl

theorem setNamed_general (hc : r.regClass = .general) : s.setNamed r x = s.setReg r.num x := by
  rw [setNamed, hc]
  rfl

theorem setNamed_float (hc : r.regClass = .float) : s.setNamed r x = s.setXmm r.num x := by
  rw [setNamed, hc]
  rfl

theorem named_setNamed (hr : r.Valid) (hq : q.Valid) :
    (s.setNamed r x).named q = if q = r then x else s.named q := by
  cases hc : r.regClass with
  | general =>
    rw [setNamed_general hc]
    cases hd : q.regClass with
    | general =>
      rw [named_general hd, named_general hd, reg_setReg]
      simp only [hq.num_inj hr (hd.trans hc.symm)]
    | float =>
      rw [named_float hd, named_float hd, if_neg]
      · rfl
      · rintro rfl
        rw [hc] at hd
        cases hd
  | float =>
    rw [setNamed_float hc]
    cases hd : q.regClass with
    | general =>
      rw [named_general hd, named_general hd, if_neg]
      · rfl
      · rintro rfl
        rw [hc] at hd
        cases hd
    | float =>
      rw [named_float hd, named_float hd, xmm_setXmm]
      simp only [hq.num_inj hr (hd.trans hc.symm)]

@[simp] theorem memory_setNamed : (s.setNamed r x).memory = s.memory := by
  unfold setNamed
  split <;> rfl

@[simp] theorem flags_setNamed : (s.setNamed r x).flags = s.flags := by
  unfold setNamed
  split <;> rfl

theorem setFlags_setNamed : (s.setNamed r x).setFlags s.flags = s.setNamed r x := by
  unfold setNamed
  split <;> rfl

@[simp] theorem named_write (a : Word) : (s.write a x).named r = s.named r := rfl

@[simp] theorem named_setFlags (f : Flags) : (s.setFlags f).named r = s.named r := rfl

@[simp] theorem named_setPc (pc : Word) : (s.setPc pc).named r = s.named r := rfl

@[simp] theorem memory_setPc (pc : Word) : (s.setPc pc).memory = s.memory := rfl

theorem setReg_reg (s : State) (r : RegNum) : s.setReg r (s.reg r) = s := by
  simp [setReg, reg, Vector.get]

theorem setXmm_xmm (s : State) (r : RegNum) : s.setXmm r (s.xmm r) = s := by
  simp [setXmm, xmm, Vector.get]

theorem setNamed_named (s : State) (r : Reg) : s.setNamed r (s.named r) = s := by
  cases hc : r.regClass with
  | general => rw [setNamed_general hc, named_general hc, setReg_reg]
  | float => rw [setNamed_float hc, named_float hc, setXmm_xmm]

end Machine.State

/-- The stack of a function while its body runs. -/
structure Stack where
  /-- The stack pointer. -/
  sp : Word
  /-- What the offsets of cells count from. -/
  bp : Word
  spills : Nat
  /-- Offsets of the stack arguments. -/
  incoming : List Int
  /-- Memory that expressions read. -/
  heap : Word → Bool
  /-- Memory that the body leaves as it is. -/
  kept : Word → Prop
  /-- Bytes below the stack pointer that calls may use. -/
  reserve : Nat

namespace Stack

def IsSlot (S : Stack) (offset : Int) : Prop := ∃ j < S.spills, offset = -8 * (j + 1 : Nat)

def cell (S : Stack) (offset : Int) : Word := S.bp + BitVec.ofInt 64 offset

/-- Whether the eight bytes at an address are writable and apart from spill slots. -/
structure Free (S : Stack) (a : Word) : Prop where
  heap : ∀ b, (b - a).toNat < 8 → S.heap b = false
  kept : ∀ b, (b - a).toNat < 8 → ¬ S.kept b

structure Sound (S : Stack) : Prop where
  slot_free : ∀ offset, S.IsSlot offset → S.Free (S.cell offset)
  slots_apart : ∀ offset offset', S.IsSlot offset → S.IsSlot offset' → offset ≠ offset' →
    ∀ i < 8, 8 ≤ (S.cell offset' + BitVec.ofNat 64 i - S.cell offset).toNat
  incoming_kept : ∀ offset ∈ S.incoming, ∀ i < 8, S.kept (S.cell offset + BitVec.ofNat 64 i)
  near : ∀ offset, S.IsSlot offset ∨ offset ∈ S.incoming → fitsSigned 32 offset = true
  below_free : ∀ d < S.reserve, ∀ a, a = S.sp - 1 - BitVec.ofNat 64 d →
    S.heap a = false ∧ ¬ S.kept a ∧
      ∀ offset, S.IsSlot offset → 8 ≤ (a - S.cell offset).toNat

variable {S : Stack} {m : Memory} {offset offset' : Int} {x : Word}

theorem load_cell_store (m : Memory) (offset : Int) (x : Word) :
    (m.store (S.cell offset) x).load (S.cell offset) 8 = x := Memory.load_store

theorem Free.store_heap {a b : Word} (h : S.Free a) (hb : S.heap b = true) :
    m.store a x b = m b := by
  refine Memory.store_of_le (Nat.le_of_not_lt fun hlt => ?_)
  rw [h.heap b hlt] at hb
  cases hb

theorem Free.store_kept {a b : Word} (h : S.Free a) (hb : S.kept b) : m.store a x b = m b :=
  Memory.store_of_le (Nat.le_of_not_lt fun hlt => h.kept b hlt hb)

/-- Eight bytes below the stack pointer are free and apart from all cells. -/
theorem Sound.below (h : S.Sound) {k : Nat} (hk : 8 ≤ k) (room : k ≤ S.reserve) :
    S.Free (S.sp - BitVec.ofNat 64 k) ∧
      ∀ offset, S.IsSlot offset ∨ offset ∈ S.incoming → ∀ i < 8,
        8 ≤ (S.cell offset + BitVec.ofNat 64 i - (S.sp - BitVec.ofNat 64 k)).toNat := by
  have here (b : Word) (hb : (b - (S.sp - BitVec.ofNat 64 k)).toNat < 8) :
      ∃ d < S.reserve, b = S.sp - 1 - BitVec.ofNat 64 d := by
    refine ⟨k - 1 - (b - (S.sp - BitVec.ofNat 64 k)).toNat, by omega, ?_⟩
    generalize hj : (b - (S.sp - BitVec.ofNat 64 k)).toNat = j at hb
    have split : BitVec.ofNat 64 k = BitVec.ofNat 64 (k - 1 - j) + 1 + BitVec.ofNat 64 j := by
      rw [show (1 : Word) = BitVec.ofNat 64 1 from rfl, ← BitVec.ofNat_add, ← BitVec.ofNat_add]
      congr 1
      omega
    have difference : b - (S.sp - BitVec.ofNat 64 k) = BitVec.ofNat 64 j := by
      rw [← hj, BitVec.ofNat_toNat, BitVec.setWidth_eq]
    grind
  refine ⟨⟨fun b hb => ?_, fun b hb => ?_⟩, fun offset ho i hi => Nat.le_of_not_lt fun hlt => ?_⟩
  · obtain ⟨d, hd, he⟩ := here b hb
    exact (h.below_free d hd b he).1
  · obtain ⟨d, hd, he⟩ := here b hb
    exact (h.below_free d hd b he).2.1
  · obtain ⟨d, hd, he⟩ := here _ hlt
    have free := h.below_free d hd _ he
    rcases ho with ho | ho
    · have apart := free.2.2 offset ho
      rw [BitVec.add_comm, BitVec.add_sub_cancel, BitVec.toNat_ofNat] at apart
      omega
    · exact free.2.1 (h.incoming_kept offset ho i hi)

end Stack

end NativeExpr
