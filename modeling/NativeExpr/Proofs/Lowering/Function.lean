import NativeExpr.Proofs.Lowering.Frames
import NativeExpr.Proofs.Lowering.Journal

/-!
# The code of a whole function

Prologue, body and epilogue lead from the entry of a function to its return. The frame
gives the body a stack: spill slots, saved registers and stack arguments are apart from
each other and from what expressions read.
-/
namespace NativeExpr

open X64 Machine

/-! ## Addresses on the stack -/

theorem distance_cells (b : Word) (x y : Int) :
    (b + BitVec.ofInt 64 x - (b + BitVec.ofInt 64 y)).toNat =
      ((x - y) % 18446744073709551616).toNat := by
  have split : BitVec.ofInt 64 x = BitVec.ofInt 64 (x - y) + BitVec.ofInt 64 y := by
    rw [← BitVec.ofInt_add, Int.sub_add_cancel]
  have same : b + BitVec.ofInt 64 x - (b + BitVec.ofInt 64 y) = BitVec.ofInt 64 (x - y) := by
    rw [split]
    grind
  rw [same, BitVec.toNat_ofInt]
  rfl

theorem add_cell (b : Word) (x : Int) (i : Nat) :
    b + BitVec.ofInt 64 x + BitVec.ofNat 64 i = b + BitVec.ofInt 64 (x + i) := by
  rw [BitVec.add_assoc, BitVec.ofInt_add, BitVec.ofInt_natCast]

theorem sub_cell (b : Word) (x : Int) (n : Nat) :
    b + BitVec.ofInt 64 x - BitVec.ofNat 64 n = b + BitVec.ofInt 64 (x - n) := by
  have split : BitVec.ofInt 64 x = BitVec.ofInt 64 (x - n) + BitVec.ofNat 64 n := by
    rw [← BitVec.ofInt_natCast, ← BitVec.ofInt_add, Int.sub_add_cancel]
  rw [split]
  grind

theorem toNat_sub_ofNat {a : Word} {n : Nat} (le : n ≤ a.toNat) :
    (a - BitVec.ofNat 64 n).toNat = a.toNat - n := by
  have lt : n < 2 ^ 64 := Nat.lt_of_le_of_lt le a.isLt
  rw [BitVec.toNat_sub_of_le, BitVec.toNat_ofNat, Nat.mod_eq_of_lt lt]
  rwa [BitVec.le_def, BitVec.toNat_ofNat, Nat.mod_eq_of_lt lt]

theorem sub_ofNat (b : Word) (n : Nat) :
    b - BitVec.ofNat 64 n = b + BitVec.ofInt 64 (-n) := by
  rw [← Int.zero_sub, ← sub_cell, BitVec.ofInt_ofNat, BitVec.add_zero]

theorem exists_cell (b a : Word) : ∃ z : Int, a = b + BitVec.ofInt 64 z :=
  ⟨(a - b).toInt, by rw [BitVec.ofInt_toInt]; grind⟩

/-! ## Saved registers -/

namespace Machine

variable {base a : Word} {content : Reg → Word} {m : Memory} {xs : List (Reg × Int)}

theorem saving_of_apart (apart : ∀ x ∈ xs, 8 ≤ (a - (base + BitVec.ofInt 64 x.2)).toNat) :
    saving base content m xs a = m a := by
  induction xs generalizing m with
  | nil => rfl
  | cons x xs ih =>
    refine (ih fun y hy => apart y (List.mem_cons_of_mem _ hy)).trans ?_
    exact Memory.store_of_le (apart x (List.mem_cons_self ..))

theorem load_saving {x : Reg × Int}
    (apart : xs.Pairwise fun x y => ∀ i < 8,
      8 ≤ (base + BitVec.ofInt 64 x.2 + BitVec.ofNat 64 i - (base + BitVec.ofInt 64 y.2)).toNat)
    (hx : x ∈ xs) :
    (saving base content m xs).load (base + BitVec.ofInt 64 x.2) 8 = content x.1 := by
  induction xs generalizing m with
  | nil => cases hx
  | cons y ys ih =>
    obtain ⟨first, rest⟩ := List.pairwise_cons.1 apart
    rcases List.mem_cons.1 hx with rfl | hx
    · have last := Memory.load_store (m := m) (a := base + BitVec.ofInt 64 x.2) (x := content x.1)
      exact (Memory.load_congr fun i hi => saving_of_apart fun y hy => first y hy i hi).trans last
    · exact ih rest hx

end Machine

namespace Frame

variable {f : Frame} {s s' : State} {a : Word} {x : Reg × Int}

theorem mem_saves (hx : x ∈ f.saves) :
    ∃ i < f.saved.length, x.2 = -8 * (f.spillSlots + i + 1 : Nat) := by
  obtain ⟨i, hi, rfl⟩ := List.mem_mapIdx.1 hx
  exact ⟨i, hi, rfl⟩

theorem pairwise_saves (small : f.size < 2147483648) (base : Word) :
    f.saves.Pairwise fun x y => ∀ i < 8,
      8 ≤ (base + BitVec.ofInt 64 x.2 + BitVec.ofNat 64 i -
        (base + BitVec.ofInt 64 y.2)).toNat := by
  refine List.pairwise_iff_getElem.2 fun i j hi hj lt k hk => ?_
  have le := f.le_size
  simp only [saves, List.length_mapIdx] at hi hj
  simp only [saves, List.getElem_mapIdx, saveSlot]
  rw [add_cell, distance_cells]
  omega

namespace Opened

variable (h : f.Opened s s') (small : f.size < 2147483648)
include h

theorem sp_eq : s'.named .rsp = s.named .rsp - 8 + BitVec.ofInt 64 (-f.size) := by
  rw [h.sp, sub_ofNat]

include small

theorem memory_of_apart
    (apart : f.size + 8 ≤ (a - s'.named .rsp).toNat) : s'.memory a = s.memory a := by
  have le := f.le_size
  obtain ⟨z, rfl⟩ := exists_cell (s.named .rsp - 8) a
  rw [h.sp_eq, distance_cells] at apart
  rw [h.memory, saving_of_apart fun x hx => ?_]
  · refine Memory.store_of_le ?_
    have zero : s.named .rsp - 8 = s.named .rsp - 8 + BitVec.ofInt 64 0 := by simp
    rw [zero, BitVec.add_assoc, ← BitVec.ofInt_add, distance_cells]
    omega
  · obtain ⟨i, hi, he⟩ := mem_saves hx
    rw [he, distance_cells]
    omega

theorem load_link : s'.memory.load (s.named .rsp - 8) 8 = s.named .rbp := by
  have le := f.le_size
  rw [h.memory]
  refine (Memory.load_congr fun i hi => saving_of_apart fun x hx => ?_).trans Memory.load_store
  obtain ⟨j, hj, he⟩ := mem_saves hx
  rw [he, ← BitVec.ofInt_natCast, distance_cells]
  omega

theorem load_saved (hx : x ∈ f.saves) :
    s'.memory.load (s.named .rsp - 8 + BitVec.ofInt 64 x.2) 8 = s.named x.1 := by
  rw [h.memory]
  exact load_saving (pairwise_saves small _) hx

end Opened

end Frame

/-! ## From the entry to the return -/

namespace Frame

variable {f : Frame} {is : List Instruction} {prologue capacity : Nat} {last : Assembler}
variable {L : Site} {c c' : Config}

def returned (s : State) : State := s.pop.2.setPc s.pop.1

/-- A function whose body is left runs to its return, and one whose body fails ends there. -/
theorem Wraps.finishes (w : f.Wraps is (.new capacity) prologue last) (sound : L.Sound)
    (whole : L.start = 0 ∧ L.body = last.buffer) (at_ : L.At 0 c)
    (size : L.code.size = last.buffer.size)
    (opens : f.isNeeded = true → f.Opens L c.state) {Q T : Config → Prop}
    (quiet : ∀ c₂ t, Q c₂ → f.Leaves c₂.state t → L.permits t .ret)
    (body : ∀ c₁, L.At prologue c₁ → c₁.entered = c.entered → f.Enters c.state c₁.state →
      L.Leads prologue (prologue + (blanks (is.map .instr)).length) c₁ Q ∨
        L.Traps prologue (prologue + (blanks (is.map .instr)).length) c₁ T) :
    (∃ c₂ t, Q c₂ ∧ f.Leaves c₂.state t ∧
      (t.memory.load (t.named .rsp) 8 = L.host.stop →
        L.Finishes c ⟨c₂.entered, returned t⟩ (.returned (returned t)))) ∨
      ∃ c₂, T c₂ ∧ L.Finishes c c₂ .divideError := by
  obtain ⟨a₁, a₂, a₃, rfl, entering, written, leaving, ret⟩ := w.parts
  obtain ⟨is₁, w₁⟩ := entering.written
  obtain ⟨is₃, w₃⟩ := leaving.written
  have begun : ∃ capacity its, CodeBuffer.Written (.new capacity) last.buffer its :=
    ⟨capacity, _, ((w₁.trans written).trans w₃).trans ret⟩
  have cov₄ : L.Covers last.buffer := ⟨begun, [], whole.2 ▸ .refl⟩
  have cov₃ := cov₄.before ⟨capacity, _, (w₁.trans written).trans w₃⟩ ret
  have cov₂ := cov₃.before ⟨capacity, _, w₁.trans written⟩ w₃
  have cov₁ := cov₂.before ⟨capacity, _, w₁⟩ written
  have cov₀ : L.Covers (Assembler.new capacity).buffer := cov₁.before ⟨capacity, [], .refl⟩ w₁
  have end₂ : a₂.buffer.size = a₁.buffer.size + (blanks (is.map .instr)).length := written.size
  have end₃ : a₂.buffer.size ≤ a₃.buffer.size := w₃.size ▸ Nat.le_add_right ..
  have end₄ := ret.size_singleton
  have pos := (Item.instr .ret).size_pos
  obtain ⟨n₁, c₁, walk₁, bound₁, at₁, same₁, enters⟩ := entering.leads L sound cov₀ cov₁ c at_ opens
  have bound₁ : n₁ ≤ 2 * a₁.buffer.size := bound₁
  rcases body c₁ at₁ same₁ enters with ⟨n₂, c₂, walk₂, bound₂, at₂, q⟩ |
    ⟨n₂, c₂, walk₂, bound₂, minds, stuck, t⟩
  · rw [← end₂] at at₂ bound₂
    obtain ⟨n₃, c₃, walk₃, bound₃, at₃, same₃, leaves⟩ := leaving.leads L sound cov₂ cov₃ c₂ at₂
      fun needed => ⟨(opens needed).small, (opens needed).quiet⟩
    have walk₄ := cov₃.walks_ret sound ret cov₄ at₃ (quiet c₂ _ q leaves)
    refine .inl ⟨c₂, c₃.state, q, leaves, fun back => ⟨n₁ + n₂ + n₃ + 1, by omega, ?_, ?_, ?_⟩⟩
    · exact same₃ ▸ ((walk₁.trans walk₂).trans walk₃).trans walk₄
    · exact fun ne => absurd back ne
    · have stops : (returned c₃.state).pc = L.host.stop := back
      rw [step]
      exact if_pos stops
  · exact .inr ⟨c₂, t, n₁ + n₂, by omega, walk₁.trans walk₂, fun _ => minds, stuck⟩

end Frame

/-! ## The stack of a function -/

namespace Frame

variable {f : Frame} {s₀ s s' : State} {heap : Word → Bool} {args room : Nat} {incoming : List Int}

/-- The stack while the body of a function runs that was entered in `s₀`. The body keeps
what its caller has there, `args` bytes of arguments included, and what the prologue saved. -/
def stack (f : Frame) (s₀ : State) (heap : Word → Bool) (incoming : List Int) (args room : Nat) :
    Stack where
  sp := s₀.named .rsp - 8 - BitVec.ofNat 64 f.size
  bp := s₀.named .rsp - 8
  spills := f.spillSlots
  incoming
  heap
  kept a := (a - (s₀.named .rsp - 8 - BitVec.ofNat 64 f.size)).toNat < f.size + 16 + args ∧
    ∀ j < f.spillSlots, 8 ≤ (a - (s₀.named .rsp - 8 + BitVec.ofInt 64 (-8 * (j + 1 : Nat)))).toNat
  reserve := room

theorem sp_stack : (f.stack s₀ heap incoming args room).sp =
    s₀.named .rsp - 8 + BitVec.ofInt 64 (-f.size) := sub_ofNat ..

/-- The stack is in order when what expressions read is apart from the frame and the
bytes below it. -/
theorem sound_stack (small : f.size < 2147483648) (roomy : room ≤ 2147483648)
    (reaches : args + 16 < 2147483648)
    (fits : ∀ o ∈ incoming, ∃ k : Nat, o = 16 + k ∧ k + 8 ≤ args)
    (apart : ∀ a, heap a = true → 8 + f.size + room ≤
      (a - (s₀.named .rsp - BitVec.ofNat 64 (8 + f.size + room))).toNat) :
    (f.stack s₀ heap incoming args room).Sound := by
  have le := f.le_size
  have low : s₀.named .rsp - BitVec.ofNat 64 (8 + f.size + room) =
      s₀.named .rsp - 8 + BitVec.ofInt 64 (-(f.size + room : Nat)) := by
    rw [← sub_ofNat, Nat.add_assoc, BitVec.ofNat_add, BitVec.sub_sub]
    rfl
  have bottom := sub_ofNat (s₀.named .rsp - 8) f.size
  refine ⟨?_, ?_, ?_, ?_, ?_⟩
  · rintro _ ⟨j, hj, rfl⟩
    have hj : j < f.spillSlots := hj
    refine ⟨fun b hb => Bool.eq_false_iff.2 fun hh => ?_, fun b hb kept => ?_⟩
    · have far := apart b hh
      obtain ⟨z, rfl⟩ := exists_cell (s₀.named .rsp - 8) b
      have hb : (s₀.named .rsp - 8 + BitVec.ofInt 64 z -
          (s₀.named .rsp - 8 + BitVec.ofInt 64 (-8 * (j + 1 : Nat)))).toNat < 8 := hb
      rw [low, distance_cells] at far
      rw [distance_cells] at hb
      omega
    · exact absurd hb (Nat.not_lt.2 (kept.2 j hj))
  · rintro _ _ ⟨j, hj, rfl⟩ ⟨k, hk, rfl⟩ ne i hi
    have hj : j < f.spillSlots := hj
    have hk : k < f.spillSlots := hk
    rw [Stack.cell, Stack.cell, add_cell, distance_cells]
    omega
  · intro o ho i hi
    obtain ⟨k, rfl, hk⟩ := fits o ho
    rw [Stack.cell, add_cell]
    refine ⟨?_, fun j hj => ?_⟩
    · rw [bottom]
      show (s₀.named .rsp - 8 + BitVec.ofInt 64 (16 + k + i) - _).toNat < _
      rw [distance_cells]
      omega
    · show 8 ≤ (s₀.named .rsp - 8 + BitVec.ofInt 64 (16 + k + i) - _).toNat
      rw [distance_cells]
      omega
  · rintro o (⟨j, hj, rfl⟩ | ho)
    · have hj : j < f.spillSlots := hj
      exact fitsSigned_of_bounds (by omega) (by omega)
    · obtain ⟨k, rfl, hk⟩ := fits o ho
      exact fitsSigned_of_bounds (by omega) (by omega)
  · intro d hd a ha
    have hd : d < room := hd
    have at_ : a = s₀.named .rsp - 8 + BitVec.ofInt 64 (-(f.size + 1 + d : Nat)) := by
      rw [ha, sp_stack, show (1 : Word) = BitVec.ofNat 64 1 from rfl, sub_cell, sub_cell]
      congr 2
      omega
    refine ⟨Bool.eq_false_iff.2 fun hh => ?_, fun kept => ?_, ?_⟩
    · have far := apart a hh
      rw [low, at_, distance_cells] at far
      omega
    · have near := kept.1
      rw [bottom, at_, distance_cells] at near
      omega
    · rintro _ ⟨j, hj, rfl⟩
      have hj : j < f.spillSlots := hj
      rw [at_]
      show 8 ≤ (_ - (s₀.named .rsp - 8 + _)).toNat
      rw [distance_cells]
      omega

/-! ## What a function may do -/

/-- Eight bytes that a function may write that was entered in `s₀`: the saved frame pointer,
a slot of its frame, or, below the frame, stack arguments of a call and its return address. -/
inductive Owns (f : Frame) (room : Nat) (s₀ s : State) : Word → Prop
  | link : Owns f room s₀ s (s₀.named .rsp - 8)
  | slot {j : Nat} (hj : j < f.spillSlots) :
    Owns f room s₀ s (s₀.named .rsp - 8 + BitVec.ofInt 64 (-8 * (j + 1 : Nat)))
  | save {x : Reg × Int} (hx : x ∈ f.saves) :
    Owns f room s₀ s (s₀.named .rsp - 8 + BitVec.ofInt 64 x.2)
  | argument {bytes o : Nat} (lowered : s.named .rsp =
      s₀.named .rsp - 8 - BitVec.ofNat 64 f.size - BitVec.ofNat 64 bytes)
    (few : bytes + 8 ≤ room) (inside : o + 8 ≤ bytes) :
    Owns f room s₀ s (s.named .rsp + BitVec.ofNat 64 o)
  | returnAddress {bytes : Nat} (lowered : s.named .rsp =
      s₀.named .rsp - 8 - BitVec.ofNat 64 f.size - BitVec.ofNat 64 bytes)
    (few : bytes + 8 ≤ room) : Owns f room s₀ s (s.named .rsp - 8)

/-- What the instructions of a function do that was entered in `s₀`. They write what the
function owns, they call with the stack aligned, and without a frame they write no memory
and find the registers as they were that a function has to keep. -/
structure Allows (f : Frame) (room : Nat) (s₀ s : State) (i : Instruction) : Prop where
  writes : ∀ a, storeAddress? s i = some a → f.Owns room s₀ s a
  aligned : ∀ r, i = .callReg r → (s₀.named .rsp).toNat % 16 = 8 → (s.named .rsp).toNat % 16 = 0
  bare : f.isNeeded = false → storeAddress? s i = none ∧
    ∀ r ∈ .rbp :: Convention.calleeSaved, s.named r = s₀.named r

theorem allows_of_quiet {i : Instruction} (quiet : storeAddress? s i = none)
    (kept : f.isNeeded = false → ∀ r ∈ .rbp :: Convention.calleeSaved, s.named r = s₀.named r) :
    f.Allows room s₀ s i := by
  refine ⟨fun a ha => ?_, fun r hr => ?_, fun bare => ⟨quiet, kept bare⟩⟩
  · rw [quiet] at ha
    cases ha
  · rw [hr] at quiet
    cases quiet

theorem allows_of_owns {i : Instruction} {a : Word} (needed : f.isNeeded = true)
    (straight : isStraight i = true) (ha : storeAddress? s i = some a) (owns : f.Owns room s₀ s a) :
    f.Allows room s₀ s i := by
  refine ⟨fun b hb => ?_, fun r hr => ?_, fun bare => ?_⟩
  · rw [ha] at hb
    cases hb
    exact owns
  · rw [hr] at straight
    cases straight
  · rw [needed] at bare
    cases bare

theorem opens_allows {L : Site} (needed : f.isNeeded = true) (small : f.size < 2147483648)
    (permits : L.permits = f.Allows room s₀) : f.Opens L s₀ := by
  refine ⟨small, fun t i _ hi => ?_, fun i straight hi => ?_, fun t x hx i straight hi => ?_⟩
  · rw [permits]
    exact allows_of_quiet hi fun bare => by rw [needed] at bare; cases bare
  · rw [permits]
    exact allows_of_owns needed straight hi .link
  · rw [permits]
    exact allows_of_owns needed straight hi (.save hx)

end Frame

/-! ## The finished function -/

namespace Frame

variable {f : Frame} {is : List Instruction} {prologue capacity : Nat} {last : Assembler}

theorem Wraps.bytes (w : f.Wraps is (.new capacity) prologue last) :
    ∃ before after, last.buffer.bytes.toList = before ++ (blanks (is.map .instr) ++ after) ∧
      before.length = prologue := by
  obtain ⟨a₁, a₂, a₃, rfl, -, written, leaving, ret⟩ := w.parts
  obtain ⟨is₃, w₃⟩ := leaving.written
  refine ⟨a₁.buffer.bytes.toList, blanks (is₃.map .instr) ++ blanks [.instr .ret], ?_, rfl⟩
  rw [ret.bytes, w₃.bytes, written.bytes]
  simp only [List.append_assoc]

theorem Wraps.finalize (w : f.Wraps is (.new capacity) prologue last) :
    last.finalize = .ok ⟨last.buffer.bytes, 0⟩ := by
  obtain ⟨a₁, a₂, a₃, -, entering, written, leaving, ret⟩ := w.parts
  obtain ⟨is₁, w₁⟩ := entering.written
  obtain ⟨is₃, w₃⟩ := leaving.written
  have all := ((w₁.trans written).trans w₃).trans ret
  have instrs : is₁.map Item.instr ++ is.map .instr ++ is₃.map .instr ++ [.instr .ret] =
      (is₁ ++ is ++ is₃ ++ [Instruction.ret]).map .instr := by
    simp only [List.map_append, List.map_cons, List.map_nil]
  rw [instrs] at all
  exact CodeBuffer.finalize_of_instrs all

theorem assemble_eq_ok {body : Code} {image : FunctionImage} (keeps : f.Keeps)
    (valid : ∀ i ∈ is, i.refused? = none) (hb : body.bytes.toList = blanks (is.map .instr))
    (h : f.assemble body capacity = .ok image) :
    ∃ last, f.Wraps is (.new capacity) image.prologueSize last ∧
      image.bytes = last.buffer.bytes ∧ image.frameSize = f.size ∧
      image.patched = body.patched := by
  have emitted := yields_emitFunction (a := .new capacity) keeps rfl rfl valid hb
  unfold assemble at h
  unfold Yields at emitted
  cases he : f.emitFunction body.bytes (.new capacity) with
  | error e a =>
    rw [he] at h
    cases h
  | ok prologue last =>
    rw [he] at h emitted
    have w : f.Wraps is (.new capacity) prologue last := emitted
    dsimp only at h
    rw [w.finalize] at h
    cases h
    refine ⟨last, w, rfl, ?_, rfl⟩
    show (if f.isNeeded then f.size else 0) = f.size
    split
    · rfl
    · next bare =>
      simp only [isNeeded, Bool.or_eq_true, decide_eq_true_eq, Bool.not_eq_true', not_or] at bare
      obtain ⟨⟨⟨spills, saved⟩, -⟩, -⟩ := bare
      have none : f.saved = [] := by simpa using saved
      rw [size, sizeWith, none, Nat.eq_zero_of_not_pos spills]
      rfl

theorem foldl_save {rs : List Reg} (nodup : (f.saved ++ rs).Nodup) :
    rs.foldl save f = { f with saved := f.saved ++ rs } := by
  induction rs generalizing f with
  | nil => rw [List.foldl_nil, List.append_nil]
  | cons r rs ih =>
    have fresh : f.saved.contains r = false := by
      rw [List.contains_eq_mem, decide_eq_false_iff_not]
      exact fun hm => (List.nodup_append.1 nodup).2.2 r hm r (List.mem_cons_self ..) rfl
    have once : f.save r = { f with saved := f.saved ++ [r] } := by
      rw [save, fresh]
      rfl
    rw [List.foldl_cons, once, ih (by simpa using nodup)]
    simp

end Frame

namespace Lowering

variable {σ : Lowering.State}

theorem finalFrame_eq (saved : σ.frame.saved = []) :
    σ.finalFrame = { σ.frame with saved := σ.regs.touchedAmong Convention.calleeSaved } := by
  have nodup : (σ.frame.saved ++ σ.regs.touchedAmong Convention.calleeSaved).Nodup := by
    rw [saved, List.nil_append]
    exact List.Nodup.filter _ (by decide)
  rw [State.finalFrame, Frame.foldl_save nodup, saved, List.nil_append]

theorem keeps_finalFrame (saved : σ.frame.saved = []) : σ.finalFrame.Keeps := by
  rw [finalFrame_eq saved]
  exact ⟨fun r hr => (List.mem_filter.1 hr).1, List.Nodup.filter _ (by decide)⟩

end Lowering

end NativeExpr
