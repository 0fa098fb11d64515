import Mathlib.Order.Lattice.Nat
import NativeExpr.Proofs.Entry
import NativeExpr.Proofs.Lowering.Function

/-!
# Running generated functions

A generated function that is entered with its arguments in place does what the schedule
of its root says and returns. On the way it writes its own part of the stack only, and
in the end the registers are back that it has to keep.
-/
namespace NativeExpr

open X64 Machine

namespace Graph

/-- Bytes of stack arguments of a call. -/
def outgoingBytes (g : Graph) (args : List NodeId) : Nat :=
  Convention.alignStack (Convention.argBytes (args.map fun x => (g.tyOf x).regClass))

/-- Bytes below the frame that calls take, return addresses included. -/
def callRoom (g : Graph) (root : NodeId) : Nat :=
  (g.below root).sup fun x =>
    match (g.node? x).map Node.kind with
    | some (.call _ args) => g.outgoingBytes args + 8
    | _ => 0

/-- Bytes of the stack arguments of a function. -/
def paramRoom (g : Graph) : Nat := Convention.argBytes (g.paramTypes.map ScalarType.regClass)

/-- Bytes below the return address that a function may use. -/
def stackRoom (g : Graph) (root : NodeId) (image : FunctionImage) : Nat :=
  8 + image.frameSize + g.callRoom root

/-- The parts of the stack are within reach of 32-bit displacements. -/
structure Compact (g : Graph) (root : NodeId) (image : FunctionImage) : Prop where
  frame : image.frameSize < 2147483648
  calls : g.callRoom root ≤ 2147483648
  params : g.paramRoom + 16 < 2147483648

end Graph

namespace Machine

/-- A function that is about to run: its code lies at its base and apart from all else, and
it returns to where the run ends. -/
structure Loaded (h : Host) (code : Array Byte) (s : State) : Prop where
  pc : s.pc = h.base
  back : s.memory.load (s.named .rsp) 8 = h.stop
  room : code.size < 18446744073709551616
  clear : ∀ k < code.size, h.base + BitVec.ofNat 64 k ≠ h.stop ∧
    h.callees (h.base + BitVec.ofNat 64 k) = none

/-- A function of less than a page that is called from nothing is loaded, apart from outside
code. -/
theorem loaded_entryState {callees : Word → Option (List State → State → State)}
    {code : Array Byte} {m : Memory} {types : List ScalarType} {args : List Word}
    (length : args.length = types.length)
    (small : 8 + Convention.argBytes (types.map ScalarType.regClass) < 18446744073709551616)
    (size : code.size ≤ 4096)
    (clear : ∀ k < code.size, callees (codeBase + BitVec.ofNat 64 k) = none) :
    Loaded ⟨codeBase, returnAddress, callees⟩ code (entryState m types args) := by
  obtain ⟨pc, sp, back, -, -⟩ := entryState_spec (m := m) length small
  refine ⟨pc, by rw [sp, back], by omega, fun k hk => ⟨fun same => ?_, clear k hk⟩⟩
  have same : codeBase + BitVec.ofNat 64 k = returnAddress := same
  have apart := congrArg BitVec.toNat same
  rw [BitVec.toNat_add, BitVec.toNat_ofNat] at apart
  have base : codeBase.toNat = 0x555500000000 := rfl
  have stop : returnAddress.toNat = 0x400000 := rfl
  omega

/-- Outside code comes back where it was called from. It keeps the registers that a callee has
to keep and `height` bytes of the stack from `low` on, where the frame of its caller begins. -/
structure Abides (low : Word) (height : Nat) (s s' : State) : Prop where
  pc : s'.pc = s.memory.load (s.named .rsp) 8
  sp : s'.named .rsp = s.named .rsp + 8
  saved : ∀ r ∈ .rbp :: Convention.calleeSaved, s'.named r = s.named r
  stack : ∀ i < height, s'.memory (low + BitVec.ofNat 64 i) = s.memory (low + BitVec.ofNat 64 i)

end Machine

namespace World

/-- Outside code that was entered in one state comes back in another as the convention asks,
and with memory and a result as the world has them. -/
structure Obeys (ω : World) (low : Word) (height : Nat) (calls : List Call) (k : Call)
    (s s' : State) : Prop extends Abides low height s s' where
  heap : ∀ a, ω.heap a = true → s'.memory a = ω.view (k :: calls) a
  reply : ∃ w, ω.reply calls k w ∧
    k.ret.settle (s'.named (Convention.returnReg k.ret.regClass)) = k.ret.settle w

/-- Whether there is outside code for a call, with a caller whose code has some size and whose
frame begins at `low`. -/
structure Serves (ω : World) (h : Host) (noted : Call → State → Prop) (size : Nat) (low : Word)
    (height : Nat) (k : Call) : Prop where
  outside : k.target ≠ h.stop
  answers : ∃ f, h.callees k.target = some f ∧ ∀ entered events s,
    Logged h noted entered events → k.MadeIn s →
    s.named .rsp + BitVec.ofNat 64 (Lowering.outgoing k + 8) = low →
    h.Spans size (s.memory.load (s.named .rsp) 8) →
    (∀ a, ω.heap a = true → s.memory a = ω.view (events.map Event.toCall) a) →
    noted k s ∧ ω.Obeys low height (events.map Event.toCall) k s (f entered s)

end World

namespace Lowering

open Convention

variable {g : Graph} {root : NodeId} {o : Options} {σ : Lowering.State} {ω : World} {h : Host}
variable {s₀ : Machine.State} {image : FunctionImage} {k : Call}

theorem Finished.makesCalls {E : Env}
    (finished : Finished (.of g root o) E (.initial g root o) σ)
    (calls : g.Calls root k) : σ.frame.makesCalls = true := by
  obtain ⟨x, hx, args, node, -⟩ := calls
  obtain ⟨made, fused, tally, -, mem, compare⟩ := finished.counted.lists
  have called : g.isCall x = true := by
    have node : g.node? x = some ⟨.call k.target args, k.ret⟩ := node
    rw [Graph.isCall, node]
    rfl
  have own : x ∈ made ++ fused := by
    rw [mem, Finset.mem_sdiff]
    refine ⟨hx, fun hp => ?_⟩
    have param := (Finset.mem_filter.1 hp).2
    rw [show (Setting.of g root o).graph = g from rfl, Graph.not_isParameter (.inr called)] at param
    cases param
  have coded : x ∈ made := (List.mem_append.1 own).resolve_right fun hf => by
    have comparison : g.isCompare x = true := compare x hf
    rw [Graph.not_isCall_of_isCompare comparison] at called
    cases called
  have calling : σ.frame.makesCalls = (made.any g.isCall || false) := congrArg Tally.calling tally
  rw [calling, List.any_eq_true.2 ⟨x, coded, called⟩]
  rfl

theorem outgoing_eq {args : List NodeId} (types : k.args.map Value.ty = args.map g.tyOf) :
    outgoing k = g.outgoingBytes args := by
  have classes := congrArg (List.map ScalarType.regClass) types
  rw [List.map_map, List.map_map] at classes
  exact congrArg (fun cs => alignStack (argBytes cs)) classes

theorem outgoing_le_callRoom (calls : g.Calls root k) : outgoing k + 8 ≤ g.callRoom root := by
  obtain ⟨x, hx, args, node, types⟩ := calls
  have le := Finset.le_sup (f := fun x =>
    match (g.node? x).map Node.kind with
    | some (.call _ args) => g.outgoingBytes args + 8
    | _ => 0) hx
  rw [node] at le
  rw [outgoing_eq types]
  exact le

theorem fits_incoming {x : Int} (hx : x ∈ (Setting.of g root o).incomingOffsets) :
    ∃ k : Nat, x = 16 + k ∧ k + 8 ≤ g.paramRoom := by
  obtain ⟨l, hl, he⟩ := List.mem_filterMap.1 hx
  cases l with
  | register r => cases he
  | stack offset =>
    cases he
    refine ⟨offset, rfl, ?_⟩
    obtain ⟨c, own⟩ := exists_suits hl
    exact own.2

end Lowering

/-! ## Around the body -/

/-- What a caller finds again when a function has returned. -/
structure Machine.Restores (s₀ s : State) : Prop where
  sp : s.named .rsp = s₀.named .rsp + 8
  saved : ∀ r ∈ .rbp :: Convention.calleeSaved, s.named r = s₀.named r

namespace Frame

variable {f : Frame} {s₀ s t : State} {heap : Word → Bool} {args room : Nat} {incoming : List Int}

theorem valid_of_saved {r : Reg} (hr : r ∈ Convention.calleeSaved) :
    r.Valid ∧ r ≠ .rsp ∧ r ≠ .rbp ∧ ∀ c, r ≠ Convention.returnReg c := by
  have all : ∀ r ∈ Convention.calleeSaved, r.Valid ∧ r ≠ .rsp ∧ r ≠ .rbp ∧
      r ≠ Convention.returnReg .general ∧ r ≠ Convention.returnReg .float := by decide
  obtain ⟨valid, sp, bp, general, float⟩ := all r hr
  refine ⟨valid, sp, bp, fun c => ?_⟩
  cases c with
  | general => exact general
  | float => exact float

theorem valid_returnReg (c : RegClass) :
    (Convention.returnReg c).Valid ∧ Convention.returnReg c ≠ .rsp ∧
      Convention.returnReg c ≠ .rbp := by
  cases c <;> decide

/-- What a function finds again when its body is done. -/
structure Ready (f : Frame) (s₀ s : State) : Prop where
  sp : f.isNeeded = false → s.named .rsp = s₀.named .rsp
  bp : s.named .rbp = if f.isNeeded then s₀.named .rsp - 8 else s₀.named .rbp
  back : s.memory.load (s₀.named .rsp) 8 = s₀.memory.load (s₀.named .rsp) 8
  link : f.isNeeded = true → s.memory.load (s₀.named .rsp - 8) 8 = s₀.named .rbp
  saves : ∀ x ∈ f.saves,
    s.memory.load (s₀.named .rsp - 8 + BitVec.ofInt 64 x.2) 8 = s₀.named x.1
  others : ∀ r ∈ Convention.calleeSaved, r ∉ f.saved → s.named r = s₀.named r

theorem Ready.leaves (h : f.Ready s₀ s) (keeps : f.Keeps) (leaves : f.Leaves s t) :
    t.memory = s.memory ∧ t.named .rsp = s₀.named .rsp ∧
      (∀ r ∈ .rbp :: Convention.calleeSaved, t.named r = s₀.named r) ∧
      ∀ c, t.named (Convention.returnReg c) = s.named (Convention.returnReg c) := by
  unfold Leaves at leaves
  have bp := h.bp
  split at leaves
  · next needed =>
    rw [if_pos needed] at bp
    refine ⟨leaves.memory, ?_, fun r hr => ?_, fun c => ?_⟩
    · rw [leaves.sp, bp, BitVec.sub_add_cancel]
    · rcases List.mem_cons.1 hr with rfl | hr
      · rw [leaves.bp, bp, h.link needed]
      obtain ⟨valid, sp, notBp, -⟩ := valid_of_saved hr
      by_cases hs : r ∈ f.saved
      · rw [← f.map_fst_saves] at hs
        obtain ⟨x, hx, rfl⟩ := List.mem_map.1 hs
        rw [leaves.back x hx, bp, h.saves x hx]
      · rw [leaves.named r valid sp notBp hs, h.others r hr hs]
    · obtain ⟨valid, sp, notBp⟩ := valid_returnReg c
      exact leaves.named _ valid sp notBp fun hs => (valid_of_saved (keeps.saved _ hs)).2.2.2 c rfl
  · next bare =>
    subst leaves
    have bare := Bool.eq_false_iff.2 bare
    rw [bare, if_neg Bool.false_ne_true] at bp
    refine ⟨rfl, h.sp bare, fun r hr => ?_, fun _ => rfl⟩
    rcases List.mem_cons.1 hr with rfl | hr
    · exact bp
    · refine h.others r hr fun hs => ?_
      rw [isNeeded, Bool.or_eq_false_iff, Bool.or_eq_false_iff, Bool.or_eq_false_iff,
        Bool.not_eq_false', List.isEmpty_iff] at bare
      rw [bare.1.1.2] at hs
      cases hs

theorem returned_eq (t : State) : returned t =
    (t.setNamed .rsp (t.named .rsp + 8)).setPc (t.memory.load (t.named .rsp) 8) := by
  rw [State.setNamed_general (r := .rsp) rfl]
  rfl

theorem named_returned {r : Reg} (valid : r.Valid) :
    (returned t).named r = if r = .rsp then t.named .rsp + 8 else t.named r := by
  rw [returned_eq, State.named_setPc, State.named_setNamed (by decide) valid]

/-- A function that finds what it needs gives its caller back what it has to. -/
theorem Ready.restores (h : f.Ready s₀ s) (keeps : f.Keeps) (leaves : f.Leaves s t) :
    t.memory.load (t.named .rsp) 8 = s₀.memory.load (s₀.named .rsp) 8 ∧
      Restores s₀ (returned t) ∧
      (∀ c, (returned t).named (Convention.returnReg c) = s.named (Convention.returnReg c)) ∧
      (returned t).memory = s.memory := by
  obtain ⟨memory, sp, saved, result⟩ := h.leaves keeps leaves
  refine ⟨by rw [memory, sp, h.back], ⟨?_, fun r hr => ?_⟩, fun c => ?_, memory⟩
  · rw [named_returned (by decide), if_pos rfl, sp]
  · have valid : ∀ r ∈ Reg.rbp :: Convention.calleeSaved, r.Valid ∧ r ≠ .rsp := by decide
    rw [named_returned (valid r hr).1, if_neg (valid r hr).2, saved r hr]
  · obtain ⟨valid, sp, -⟩ := valid_returnReg c
    rw [named_returned valid, if_neg sp, result]

/-- What lies above the spill slots is kept, and what lies below them inside the frame. -/
theorem kept_stack (small : f.size < 2147483648) (reaches : args + 16 < 2147483648) {z : Int}
    (low : -f.size ≤ z) (high : z < 16 + args) (outside : z < -8 * f.spillSlots ∨ 0 ≤ z) :
    (f.stack s₀ heap incoming args room).kept (s₀.named .rsp - 8 + BitVec.ofInt 64 z) := by
  have le := f.le_size
  refine ⟨?_, fun j hj => ?_⟩
  · rw [sub_ofNat, distance_cells]
    omega
  · rw [distance_cells]
    omega

end Frame

/-! ## The surroundings of the body -/

namespace Graph

/-- A function that was entered: code and arguments are in their places, memory that
expressions read is apart from the stack that the function may use, and outside code
answers its calls. -/
structure Entered (ω : World) (h : Host) (noted : Call → State → Prop) (g : Graph) (root : NodeId)
    (image : FunctionImage) (s₀ : State) : Prop where
  loaded : Loaded h image.bytes s₀
  params : ∀ i l, (Convention.argLocations (g.paramTypes.map ScalarType.regClass))[i]? = some l →
    s₀.argument l = ω.param i
  heap : ∀ a, ω.heap a = true → s₀.memory a = ω.view [] a
  apart : ∀ a, ω.heap a = true → g.stackRoom root image ≤
    (a - (s₀.named .rsp - BitVec.ofNat 64 (g.stackRoom root image))).toNat
  serves : ∀ k, g.Calls root k → ω.Serves h noted image.bytes.size
    (s₀.named .rsp - 8 - BitVec.ofNat 64 image.frameSize) (image.frameSize + 16 + g.paramRoom) k

end Graph

namespace Lowering

variable {g : Graph} {root : NodeId} {o : Options} {σ : Lowering.State} {ω : World} {h : Host}
variable {s₀ s : Machine.State} {image : FunctionImage} {f : Frame} {L : Site}
variable {noted : Call → Machine.State → Prop} {journal : List Note}

def surroundings (ω : World) (L : Site) (journal : List Note) (T : Stack) (s₀ s : Machine.State)
    (spared : Reg → Prop) (noted : Call → Machine.State → Prop) : Env where
  site := L
  journal
  stack := T
  world := ω
  start := s
  pushed offset := s₀.memory.load (s₀.named .rsp + 8 + BitVec.ofNat 64 offset) 8
  spared
  noted

def bareStack (s₀ : Machine.State) (heap : Word → Bool) : Stack :=
  ⟨s₀.named .rsp, s₀.named .rbp, 0, [], heap, fun _ => True, 0⟩

/-- Arguments are where they were at the entry, as long as their registers are. -/
theorem given_surroundings {T : Stack} {spared : Reg → Prop}
    (entered : g.Entered ω h noted root image s₀)
    (same : ∀ r, r.Valid → r ≠ .rsp → r ≠ .rbp → s.named r = s₀.named r) :
    Given (.of g root o) (surroundings ω L journal T s₀ s spared noted) := by
  intro i l hl
  refine Eq.trans ?_ (entered.params i l hl)
  cases l with
  | stack offset => rfl
  | register r =>
    obtain ⟨c, fits⟩ := Convention.exists_suits (List.mem_of_getElem? hl)
    have valid : ∀ c, ∀ r ∈ Convention.argRegs c, r.Valid ∧ r ≠ .rsp ∧ r ≠ .rbp := by
      intro c
      cases c <;> decide
    obtain ⟨hr, sp, bp⟩ := valid _ r fits
    exact same r hr sp bp

theorem served_surroundings {spared : Reg → Prop} {k : Call}
    (calls : g.callRoom root ≤ 2147483648) (host : L.host = h) (code : L.code = image.bytes)
    (entered : g.Entered ω h noted root image s₀) (size : f.size = image.frameSize)
    (made : g.Calls root k) :
    Served (surroundings ω L journal (f.stack s₀ ω.heap (Setting.of g root o).incomingOffsets
      g.paramRoom (g.callRoom root)) s₀ s spared noted) k := by
  have room := outgoing_le_callRoom made
  obtain ⟨outside, callee, hf, answers⟩ := entered.serves k made
  subst host
  rw [← size, ← code] at answers
  refine ⟨room, by omega, outside, callee, hf, fun called events t log made sp spans heap => ?_⟩
  obtain ⟨note, obeys⟩ := answers called events t log made (by rw [sp]; rfl) spans heap
  have le := f.le_size
  have low := sub_ofNat (s₀.named .rsp - 8) f.size
  refine ⟨note, obeys.pc, obeys.sp, obeys.saved, fun a kept => ?_, ?_, obeys.heap, obeys.reply⟩
  · have same := obeys.stack _ kept.1
    have back : s₀.named .rsp - 8 - BitVec.ofNat 64 f.size + BitVec.ofNat 64
        (a - (s₀.named .rsp - 8 - BitVec.ofNat 64 f.size)).toNat = a := by
      rw [BitVec.ofNat_toNat, BitVec.setWidth_eq]
      grind
    rwa [back] at same
  · rintro _ ⟨j, hj, rfl⟩ i hi
    have hj : j < f.spillSlots := hj
    have same := obeys.stack (f.size - 8 * (j + 1) + i) (by omega)
    have back : s₀.named .rsp - 8 - BitVec.ofNat 64 f.size +
        BitVec.ofNat 64 (f.size - 8 * (j + 1) + i) =
        s₀.named .rsp - 8 + BitVec.ofInt 64 (-8 * (j + 1 : Nat)) + BitVec.ofNat 64 i := by
      rw [low, add_cell, add_cell]
      congr 2
      omega
    rwa [back] at same

theorem permits_stack {incoming : List Int} {room : Nat} {spared : Reg → Prop}
    (needed : f.isNeeded = true) (permits : L.permits = f.Allows room s₀) :
    (surroundings ω L journal (f.stack s₀ ω.heap incoming g.paramRoom room) s₀ s spared
      noted).Permits := by
  have framed : ¬ f.isNeeded = false := by simp [needed]
  constructor
  case quiet =>
    intro t i _ quiet
    show L.permits t i
    rw [permits]
    exact Frame.allows_of_quiet quiet fun bare => absurd bare framed
  case slot =>
    rintro t i _ _ straight ⟨j, hj, rfl⟩ writes
    show L.permits t i
    rw [permits]
    exact Frame.allows_of_owns needed straight writes (.slot hj)
  case outgoing =>
    intro t i offset bytes _ straight lowered few inside writes
    show L.permits t i
    rw [permits]
    exact Frame.allows_of_owns needed straight writes (.argument lowered few inside)
  case call =>
    intro t r bytes _ lowered aligned few
    have lowered : t.named .rsp =
        s₀.named .rsp - 8 - BitVec.ofNat 64 f.size - BitVec.ofNat 64 bytes := lowered
    show L.permits t (.callReg r)
    rw [permits]
    refine ⟨fun a ha => ?_, fun _ _ entry => ?_, fun bare => absurd bare framed⟩
    · cases ha
      exact .returnAddress lowered few
    · have size := f.size_mod
      have eight : (8 : Word).toNat = 8 := rfl
      rw [lowered, BitVec.toNat_sub, BitVec.toNat_sub, BitVec.toNat_sub, BitVec.toNat_ofNat,
        BitVec.toNat_ofNat, eight]
      omega

theorem sound_framed {spared : Reg → Prop} (site : L.Sound)
    (permits : (surroundings ω L journal (f.stack s₀ ω.heap (Setting.of g root o).incomingOffsets
      g.paramRoom (g.callRoom root)) s₀ s spared noted).Permits)
    (compact : g.Compact root image) (entered : g.Entered ω h noted root image s₀)
    (size : f.size = image.frameSize) (opened : f.Opened s₀ s) :
    (surroundings ω L journal (f.stack s₀ ω.heap (Setting.of g root o).incomingOffsets
      g.paramRoom (g.callRoom root)) s₀ s spared noted).Sound := by
  have small : f.size < 2147483648 := size ▸ compact.frame
  refine ⟨site, Frame.sound_stack small compact.calls compact.params (fun _ => fits_incoming) ?_,
    rfl, permits, fun offset listed => ?_⟩
  · have apart := entered.apart
    rwa [Graph.stackRoom, ← size] at apart
  · obtain ⟨k, hk, inside⟩ := fits_incoming listed
    have reaches := compact.params
    have le := f.le_size
    have far (i : Nat) (hi : i < 8) : f.size + 8 ≤
        (s₀.named .rsp - 8 + BitVec.ofInt 64 (16 + k) + BitVec.ofNat 64 i -
          s.named .rsp).toNat := by
      rw [opened.sp_eq, add_cell, distance_cells]
      omega
    have there : s₀.named .rsp - 8 + BitVec.ofInt 64 (16 + k) =
        s₀.named .rsp + 8 + BitVec.ofNat 64 k := by
      rw [BitVec.ofInt_add, BitVec.ofInt_natCast]
      grind
    have same : offset = k := by
      rw [stackArgOffset] at hk
      omega
    show s.memory.load (s₀.named .rsp - 8 + BitVec.ofInt 64 (stackArgOffset offset)) 8 = _
    rw [hk, same]
    refine (Memory.load_congr fun i hi => opened.memory_of_apart small (far i hi)).trans ?_
    rw [there]
    rfl

theorem not_isSlot_bareStack {heap : Word → Bool} (offset : Int) :
    ¬ (bareStack s₀ heap).IsSlot offset := by
  rintro ⟨j, hj, -⟩
  exact absurd hj (Nat.not_lt_zero j)

theorem permits_bare (permits : L.permits = f.Allows (g.callRoom root) s₀) :
    (surroundings ω L journal (bareStack s₀ ω.heap) s₀ s₀ (· ∈ Convention.calleeSaved)
      noted).Permits := by
  constructor
  case quiet =>
    intro t i keeps quiet
    show L.permits t i
    rw [permits]
    refine Frame.allows_of_quiet quiet fun _ r hr => ?_
    rcases List.mem_cons.1 hr with rfl | hr
    · exact keeps.bp
    · exact keeps.registers r hr
  case slot => exact fun _ _ hs _ => absurd hs (not_isSlot_bareStack _)
  case outgoing => exact fun _ _ _ few _ _ => absurd few (by simp [surroundings, bareStack])
  case call => exact fun _ _ _ few => absurd few (by simp [surroundings, bareStack])

theorem sound_bare {spared : Reg → Prop} (site : L.Sound)
    (permits : (surroundings ω L journal (bareStack s₀ ω.heap) s₀ s₀ spared noted).Permits) :
    (surroundings ω L journal (bareStack s₀ ω.heap) s₀ s₀ spared noted).Sound := by
  refine ⟨site, ⟨fun offset hs => absurd hs (not_isSlot_bareStack offset),
    fun offset _ hs => absurd hs (not_isSlot_bareStack _), (fun _ h => absurd h List.not_mem_nil),
    ?_, fun d hd => absurd hd (Nat.not_lt_zero d)⟩, rfl, permits,
    fun _ h => absurd h List.not_mem_nil⟩
  rintro offset (hs | hs)
  · exact absurd hs (not_isSlot_bareStack offset)
  · exact absurd hs List.not_mem_nil

/-! ## Running the body -/

/-- Before the first instruction the machine is as the surroundings have it. -/
theorem matches_counting {E : Env} {c : Config} {uses : Array Nat} (fresh : c.entered = [])
    (start : E.start = c.state) (sp : c.state.named .rsp = E.stack.sp)
    (bp : c.state.named .rbp = E.stack.bp)
    (heap : ∀ a, E.stack.heap a = true → c.state.memory a = E.world.view [] a) :
    Matches g E ⟨fun _ => none, []⟩ (.counting uses o) (Pose.entry E) c := by
  refine ⟨fun {x pl} _ placed => ?_, fun {r P} known => ?_, ?_, bp, heap, fun a _ => ?_,
    fun r _ _ => ?_, ?_, trivial⟩
  · rw [State.place, entry_counting] at placed
    cases placed
  · dsimp only [Pose.entry] at known
    split at known
    · cases known
      rw [start]
    · cases known
  · exact sp.trans (BitVec.sub_zero ..).symm
  · rw [start]
  · rw [start]
  · rw [fresh]
    exact .nil

theorem Finished.ends {E : Env} {c : Config}
    (finished : Finished (.of g root o) E (.initial g root o) σ) (sound : E.Sound)
    (within : Within (.of g root o) E σ) (at_ : E.site.At 0 c) (fresh : c.entered = [])
    (start : E.start = c.state) (sp : c.state.named .rsp = E.stack.sp)
    (bp : c.state.named .rbp = E.stack.bp)
    (heap : ∀ a, E.stack.heap a = true → c.state.memory a = E.world.view [] a) :
    ∃ a, E.world.course g root ⟨fun _ => none, []⟩ a ∧
      Ends (.of g root o) E (.initial g root o) σ
        (Pose.idle.learn (Convention.returnReg (g.tyOf root).regClass) (Reading g root)) c a := by
  obtain ⟨D, stage⟩ := finished.stage
  exact stage.run sound within _ c at_ (matches_counting fresh start sp bp heap)

theorem mem_saved_finalFrame (saved : σ.frame.saved = []) {r : Reg}
    (hr : r ∈ Convention.calleeSaved) :
    r ∉ σ.finalFrame.saved ↔ σ.regs.touched.contains r = false := by
  rw [finalFrame_eq saved]
  show r ∉ σ.regs.touchedAmong Convention.calleeSaved ↔ _
  rw [RegisterFile.touchedAmong, List.mem_filter, Bool.eq_false_iff]
  exact ⟨fun h ht => h ⟨hr, ht⟩, fun h hm => h hm.2⟩

theorem ready_framed {incoming : List Int} {room : Nat} {A : Moment} {p : Pose} {c : Config}
    {spared : Reg → Prop} (saved : σ.frame.saved = []) (needed : σ.finalFrame.isNeeded = true)
    (small : σ.finalFrame.size < 2147483648) (reaches : g.paramRoom + 16 < 2147483648)
    (opened : σ.finalFrame.Opened s₀ s)
    (hm : Matches g (surroundings ω L journal
      (σ.finalFrame.stack s₀ ω.heap incoming g.paramRoom room) s₀ s spared noted) A σ p c) :
    σ.finalFrame.Ready s₀ c.state := by
  have le := σ.finalFrame.le_size
  have kept {z : Int} (low : -σ.finalFrame.size ≤ z) (high : z < 16 + g.paramRoom)
      (outside : z < -8 * σ.finalFrame.spillSlots ∨ 0 ≤ z) :
      c.state.memory (s₀.named .rsp - 8 + BitVec.ofInt 64 z) =
        s.memory (s₀.named .rsp - 8 + BitVec.ofInt 64 z) :=
    hm.kept _ (Frame.kept_stack small reaches low high outside)
  have cell {z : Int} (low : -σ.finalFrame.size ≤ z) (high : z + 8 ≤ 16 + g.paramRoom)
      (outside : z + 8 ≤ -8 * σ.finalFrame.spillSlots ∨ 0 ≤ z) :
      c.state.memory.load (s₀.named .rsp - 8 + BitVec.ofInt 64 z) 8 =
        s.memory.load (s₀.named .rsp - 8 + BitVec.ofInt 64 z) 8 :=
    Memory.load_congr fun i hi => by
      rw [add_cell]
      exact kept (by omega) (by omega) (by omega)
  have top : s₀.named .rsp = s₀.named .rsp - 8 + BitVec.ofInt 64 8 :=
    (BitVec.sub_add_cancel ..).symm
  have link : s₀.named .rsp - 8 = s₀.named .rsp - 8 + BitVec.ofInt 64 0 := (BitVec.add_zero _).symm
  refine ⟨fun bare => ?_, ?_, ?_, fun _ => ?_, fun x hx => ?_, fun r hr hs => ?_⟩
  · rw [needed] at bare
    cases bare
  · rw [if_pos needed]
    exact hm.bp
  · rw [top, cell (by omega) (by omega) (by omega), ← top]
    refine Memory.load_congr fun i hi => opened.memory_of_apart small ?_
    rw [top, add_cell, opened.sp_eq, distance_cells]
    omega
  · rw [link, cell (by omega) (by omega) (by omega), ← link, opened.load_link small]
  · obtain ⟨j, hj, he⟩ := Frame.mem_saves hx
    rw [he, cell (by omega) (by omega) (by omega), ← he, opened.load_saved small hx]
  · have valid := Frame.valid_of_saved hr
    rw [hm.saved r hr ((mem_saved_finalFrame saved hr).1 hs)]
    exact opened.named r valid.1 valid.2.1 valid.2.2.1

theorem ready_bare {A : Moment} {c : Config} {P : Moment → Word → Prop} {r : Reg}
    {spared : Reg → Prop} (saved : σ.frame.saved = []) (bare : σ.finalFrame.isNeeded = false)
    (hm : Matches g (surroundings ω L journal (bareStack s₀ ω.heap) s₀ s₀ spared noted) A σ
      (Pose.idle.learn r P) c) : σ.finalFrame.Ready s₀ c.state := by
  have none : σ.finalFrame.saved = [] := by
    rw [Frame.isNeeded, Bool.or_eq_false_iff, Bool.or_eq_false_iff, Bool.or_eq_false_iff,
      Bool.not_eq_false', List.isEmpty_iff] at bare
    exact bare.1.1.2
  refine ⟨fun _ => hm.sp.trans (BitVec.sub_zero ..), ?_, ?_, fun needed => ?_, fun x hx => ?_,
    fun r hr hs => hm.saved r hr ((mem_saved_finalFrame saved hr).1 hs)⟩
  · rw [if_neg (Bool.eq_false_iff.1 bare)]
    exact hm.bp
  · exact Memory.load_congr fun i _ => hm.kept _ trivial
  · rw [needed] at bare
    cases bare
  · rw [Frame.saves, none] at hx
    cases hx

end Lowering

namespace Graph

open Lowering

variable {g : Graph} {root : NodeId} {o : Options} {σ : Lowering.State} {ω : World} {h : Host}
variable {s₀ : Machine.State} {c : Generated}

/-- A function that was generated is the body of its lowering inside its frame. -/
theorem Built.assembled (built : g.Built) (generated : g.generate root o = .ok c)
    (lowered : g.lowering root o = some (.ok () σ)) :
    ∃ (body : Code) (is : List Instruction) (last : Assembler), σ.asm.finalize = .ok body ∧
      body.bytes.toList = blanks (is.map .instr) ∧ (blanks (is.map .instr)).length = σ.offset ∧
      σ.finalFrame.Wraps is (.new o.codeCapacity) c.image.prologueSize last ∧
      c.image.bytes = last.buffer.bytes ∧ σ.finalFrame.size = c.image.frameSize := by
  obtain ⟨σ', body, image, lowered', fin, assembled, rfl⟩ := generate_eq_ok generated
  rw [lowered] at lowered'
  cases lowered'
  obtain ⟨E, finished⟩ := built.finished lowered
  obtain ⟨D, stage⟩ := finished.stage
  obtain ⟨capacity, its, written⟩ := stage.inv.begun
  obtain ⟨bytes, length, -⟩ := written.finalize .refl fin
  obtain ⟨is, instructions, valid⟩ :=
    exists_instructions σ.buffer.labelOffset 0 fun it hit => written.valid it hit
  rw [show resolved _ σ.buffer.size [] = [] from rfl, List.append_nil, instructions] at bytes
  obtain ⟨last, wraps, code, size, -⟩ := Frame.assemble_eq_ok
    (keeps_finalFrame stage.inv.saved) valid bytes assembled
  exact ⟨body, is, last, fin, bytes, instructions ▸ length, wraps, code, size.symm⟩

/-- How a function that was entered in `s₀` ends if the schedule of its root ends like this. -/
def Concludes (g : Graph) (ω : World) (h : Host) (noted : Call → Machine.State → Prop)
    (root : NodeId) (s₀ : Machine.State) :
    Except (List Event) Moment → List Machine.State → Outcome → Prop
  | .ok A, called, .returned s =>
    Reading g root A (s.named (Convention.returnReg (g.tyOf root).regClass)) ∧ Restores s₀ s ∧
      Logged h noted called A.events ∧ ∀ a, ω.heap a = true → s.memory a = ω.view A.calls a
  | .error events, called, .divideError => Logged h noted called events
  | _, _, _ => False

variable {noted : Call → Machine.State → Prop} {called : List Machine.State} {out : Outcome}

theorem Concludes.ok {A : Moment} (concludes : g.Concludes ω h noted root s₀ (.ok A) called out) :
    ∃ s, out = .returned s ∧
      Reading g root A (s.named (Convention.returnReg (g.tyOf root).regClass)) ∧ Restores s₀ s ∧
      Logged h noted called A.events ∧ ∀ a, ω.heap a = true → s.memory a = ω.view A.calls a := by
  cases out with
  | returned s => exact ⟨s, rfl, concludes⟩
  | divideError => exact concludes.elim
  | stuck => exact concludes.elim

theorem Concludes.error {events : List Event}
    (concludes : g.Concludes ω h noted root s₀ (.error events) called out) :
    out = .divideError ∧ Logged h noted called events := by
  cases out with
  | divideError => exact ⟨rfl, concludes⟩
  | returned s => exact concludes.elim
  | stuck => exact concludes.elim

/-- A body that is done: the frame is as it has to be, and the return register holds what the
schedule found for the root. -/
structure Returns (ω : World) (h : Host) (noted : Call → Machine.State → Prop) (g : Graph)
    (root : NodeId) (f : Frame) (s₀ : Machine.State) (c : Config) : Prop where
  ready : f.Ready s₀ c.state
  found : ∃ A, ω.course g root ⟨fun _ => none, []⟩ (.ok A) ∧
    Reading g root A (c.state.named (Convention.returnReg (g.tyOf root).regClass)) ∧
    Logged h noted c.entered A.events ∧ ∀ a, ω.heap a = true → c.state.memory a = ω.view A.calls a

def Fails (ω : World) (h : Host) (noted : Call → Machine.State → Prop) (g : Graph) (root : NodeId)
    (c : Config) : Prop :=
  ∃ events, ω.course g root ⟨fun _ => none, []⟩ (.error events) ∧ Logged h noted c.entered events

def BodyRuns (ω : World) (noted : Call → Machine.State → Prop) (g : Graph) (root : NodeId)
    (f : Frame) (s₀ : Machine.State) (L : Site) (size : Nat) (c : Config) : Prop :=
  L.Leads 0 size c (Returns ω L.host noted g root f s₀) ∨
    L.Traps 0 size c (Fails ω L.host noted g root)

/-- A body runs as the schedule says, if what it leaves behind makes its frame ready. -/
theorem Finished.bodyRuns {L : Site} {T : Stack} {s : Machine.State} {spared : Reg → Prop}
    {c : Config}
    (finished : Finished (.of g root o) (surroundings ω L σ.journal T s₀ s spared noted)
      (.initial g root o) σ) (sound : (surroundings ω L σ.journal T s₀ s spared noted).Sound)
    (within : Within (.of g root o) (surroundings ω L σ.journal T s₀ s spared noted) σ)
    (at_ : L.At 0 c) (fresh : c.entered = []) (start : s = c.state)
    (sp : c.state.named .rsp = T.sp) (bp : c.state.named .rbp = T.bp) (same : T.heap = ω.heap)
    (heap : ∀ a, ω.heap a = true → c.state.memory a = ω.view [] a)
    (ready : ∀ {A c'}, Matches g (surroundings ω L σ.journal T s₀ s spared noted) A σ
      (Pose.idle.learn (Convention.returnReg (g.tyOf root).regClass) (Reading g root)) c' →
        σ.finalFrame.Ready s₀ c'.state) :
    BodyRuns ω noted g root σ.finalFrame s₀ L σ.offset c := by
  obtain ⟨a, course, ends⟩ := Finished.ends finished sound within at_ fresh start sp bp
    fun a ha => heap a (same ▸ ha)
  cases a with
  | ok A =>
    exact .inl (ends.mono fun c₂ hm => ⟨ready hm, A, course, hm.known Pose.known_learn, hm.log,
      fun a ha => hm.heap a (same.symm ▸ ha)⟩)
  | error events =>
    obtain ⟨n, c₂, walk, bound, minds, stuck, log⟩ := ends
    exact .inr ⟨n, c₂, walk, bound, minds, stuck, events, course, log⟩

section

variable {L : Site} {c₁ : Config} (built : g.Built)
  (lowered : g.lowering root o = some (.ok () σ))
  (entered : g.Entered ω h noted root c.image s₀) (site : L.Sound) (body : L.body = σ.buffer)
  (permits : L.permits = σ.finalFrame.Allows (g.callRoom root) s₀)
  (watches : ∀ s m c, .joined s m ∈ σ.journal → m.branch.Reached L.host L.start c →
    m.Crosses g root ω noted L.host L.code L.start s c → L.watch c)
  (at_ : L.At 0 c₁) (fresh : c₁.entered = [])
include built lowered entered site body permits watches at_ fresh

theorem Built.body_framed (compact : g.Compact root c.image)
    (size : σ.finalFrame.size = c.image.frameSize) (host : L.host = h)
    (code : L.code = c.image.bytes)
    (needed : σ.finalFrame.isNeeded = true) (opened : σ.finalFrame.Opened s₀ c₁.state) :
    BodyRuns ω noted g root σ.finalFrame s₀ L σ.offset c₁ := by
  obtain ⟨E₀, finished₀⟩ := built.finished lowered
  obtain ⟨D₀, stage₀⟩ := finished₀.stage
  have saved := stage₀.inv.saved
  have small : σ.finalFrame.size < 2147483648 := size ▸ compact.frame
  let E := surroundings ω L σ.journal (σ.finalFrame.stack s₀ ω.heap
    (Setting.of g root o).incomingOffsets g.paramRoom (g.callRoom root)) s₀ c₁.state
    (fun _ => False) noted
  have finished : Finished _ E _ σ :=
    built.finished_of lowered (given_surroundings entered opened.named)
  have spills : σ.frame.spillSlots = σ.finalFrame.spillSlots := by rw [finalFrame_eq saved]
  have within : Within (.of g root o) E σ :=
    ⟨⟨stage₀.inv.begun, [], body ▸ .refl⟩, Nat.le_of_eq spills, fun _ _ listed => listed,
      fun k made => served_surroundings compact.calls host code entered size made,
      fun _ none => none.elim, fun _ => id, watches⟩
  have heap (a : Word) (ha : ω.heap a = true) : c₁.state.memory a = ω.view [] a := by
    have apart := entered.apart a ha
    have roomy := compact.calls
    have low : s₀.named .rsp - BitVec.ofNat 64 (g.stackRoom root c.image) =
        s₀.named .rsp - 8 + BitVec.ofInt 64 (-(σ.finalFrame.size + g.callRoom root : Nat)) := by
      rw [← sub_ofNat, stackRoom, ← size, Nat.add_assoc, BitVec.ofNat_add, BitVec.sub_sub]
      rfl
    refine Eq.trans (opened.memory_of_apart small ?_) (entered.heap a ha)
    obtain ⟨z, rfl⟩ := exists_cell (s₀.named .rsp - 8) a
    rw [low, distance_cells, stackRoom, ← size] at apart
    rw [opened.sp_eq, distance_cells]
    omega
  exact Finished.bodyRuns finished
    (sound_framed site (permits_stack needed permits) compact entered size opened) within at_ fresh
    rfl opened.sp opened.bp rfl heap (ready_framed saved needed small compact.params opened)

/-- A body without a frame. It makes no calls, so that nothing is asked of the stack. -/
theorem Built.body_bare (bare : σ.finalFrame.isNeeded = false) (start : c₁.state = s₀) :
    BodyRuns ω noted g root σ.finalFrame s₀ L σ.offset c₁ := by
  obtain ⟨E₀, finished₀⟩ := built.finished lowered
  obtain ⟨D₀, stage₀⟩ := finished₀.stage
  have saved := stage₀.inv.saved
  have unused : σ.frame.spillSlots = 0 ∧ σ.frame.makesCalls = false ∧
      σ.frame.usesStackParams = false ∧ σ.finalFrame.saved = [] := by
    rw [finalFrame_eq saved] at bare ⊢
    simpa [Frame.isNeeded, and_assoc, and_comm, and_left_comm] using bare
  obtain ⟨spills, calls, params, none⟩ := unused
  let E := surroundings ω L σ.journal (bareStack s₀ ω.heap) s₀ s₀ (· ∈ Convention.calleeSaved) noted
  have finished : Finished _ E _ σ :=
    built.finished_of lowered (given_surroundings entered fun _ _ _ _ => rfl)
  have within : Within (.of g root o) E σ := by
    refine ⟨⟨stage₀.inv.begun, [], body ▸ .refl⟩, Nat.le_of_eq spills, fun used => ?_,
      fun k made => ?_, fun r hr => ⟨hr, ?_⟩, fun _ => id, watches⟩
    · rw [params] at used
      cases used
    · have called := finished₀.makesCalls made
      rw [calls] at called
      cases called
    · rw [← mem_saved_finalFrame saved hr, none]
      exact List.not_mem_nil
  exact Finished.bodyRuns finished (sound_bare site (permits_bare permits)) within at_ fresh
    start.symm (congrArg (State.named · .rsp) start) (congrArg (State.named · .rbp) start) rfl
    (start ▸ entered.heap) (ready_bare saved bare)

end

theorem Built.inside (built : g.Built) (generated : g.generate root o = .ok c)
    (lowered : g.lowering root o = some (.ok () σ)) (loaded : Loaded h c.image.bytes s₀)
    (permits : Machine.State → Instruction → Prop) (watch : Config → Prop) :
    Site.Sound ⟨h, c.image.bytes, c.image.prologueSize, σ.buffer, permits, watch⟩ := by
  obtain ⟨body, is, last, fin, bytes, -, wraps, code, -⟩ := built.assembled generated lowered
  obtain ⟨before, after, split, position⟩ := wraps.bytes
  exact ⟨⟨body, before, after, fin, by rw [bytes, ← split]; exact congrArg Array.toList code,
    position⟩, loaded.room, loaded.clear⟩

/-- A generated function that is entered does what the schedule of its root says, by permitted
instructions only, and returns or ends with a divide error. At the branch of a conditional it is
watched, from where it crosses the conditional. -/
theorem Built.runs_watched (built : g.Built) (generated : g.generate root o = .ok c)
    (lowered : g.lowering root o = some (.ok () σ)) (compact : g.Compact root c.image)
    (entered : g.Entered ω h noted root c.image s₀) {watch : Config → Prop}
    (watches : ∀ s m c₁, .joined s m ∈ σ.journal → m.branch.Reached h c.image.prologueSize c₁ →
      m.Crosses g root ω noted h c.image.bytes c.image.prologueSize s c₁ → watch c₁) :
    ∃ L : Site, L.host = h ∧ L.code = c.image.bytes ∧
      L.permits = σ.finalFrame.Allows (g.callRoom root) s₀ ∧ L.watch = watch ∧
      ∃ a c' out, ω.course g root ⟨fun _ => none, []⟩ a ∧ L.Finishes ⟨[], s₀⟩ c' out ∧
        g.Concludes ω h noted root s₀ a c'.entered out := by
  obtain ⟨body, is, last, fin, bytes, length, wraps, code, size⟩ :=
    built.assembled generated lowered
  obtain ⟨E₀, finished₀⟩ := built.finished lowered
  obtain ⟨D₀, stage₀⟩ := finished₀.stage
  have keeps := keeps_finalFrame stage₀.inv.saved
  have small : σ.finalFrame.size < 2147483648 := size ▸ compact.frame
  let L : Site :=
    ⟨h, c.image.bytes, 0, last.buffer, σ.finalFrame.Allows (g.callRoom root) s₀, watch⟩
  have sound : L.Sound := ⟨⟨⟨last.buffer.bytes, 0⟩, [], [], wraps.finalize,
    by rw [List.nil_append, List.append_nil]; exact congrArg Array.toList code, rfl⟩,
    entered.loaded.room, entered.loaded.clear⟩
  let part : Site := { L with start := c.image.prologueSize, body := σ.buffer }
  have inside : part.Sound := built.inside generated lowered entered.loaded _ _
  have begins : L.At 0 ⟨[], s₀⟩ := entered.loaded.pc.trans (BitVec.add_zero _).symm
  have opens (needed : σ.finalFrame.isNeeded = true) : σ.finalFrame.Opens L s₀ :=
    Frame.opens_allows needed small rfl
  have quiet (c₂ : Config) (t : Machine.State) (body : Returns ω h noted g root σ.finalFrame s₀ c₂)
      (leaves : σ.finalFrame.Leaves c₂.state t) : L.permits t .ret :=
    Frame.allows_of_quiet rfl fun _ => (body.ready.leaves keeps leaves).2.2.1
  have bodies (c₁ : Config) (at_ : L.At c.image.prologueSize c₁) (fresh : c₁.entered = [])
      (enters : σ.finalFrame.Enters s₀ c₁.state) :
      L.Leads c.image.prologueSize (c.image.prologueSize + (blanks (is.map .instr)).length) c₁
          (Returns ω h noted g root σ.finalFrame s₀) ∨
        L.Traps c.image.prologueSize (c.image.prologueSize + (blanks (is.map .instr)).length) c₁
          (Fails ω h noted g root) := by
    have at_ : part.At 0 c₁ :=
      at_.trans (by simp only [Site.address, L, part, Nat.zero_add, Nat.add_zero])
    have runs : BodyRuns ω noted g root σ.finalFrame s₀ part σ.offset c₁ := by
      unfold Frame.Enters at enters
      split at enters
      · next needed =>
        exact built.body_framed lowered entered inside rfl rfl watches at_ fresh compact size rfl
          rfl needed enters
      · next bare =>
        exact built.body_bare lowered entered inside rfl rfl watches at_ fresh
          (Bool.eq_false_iff.2 bare) enters
    rw [length]
    exact runs.imp (Site.Leads.embed rfl) Site.Traps.embed
  refine ⟨L, rfl, rfl, rfl, rfl, ?_⟩
  rcases wraps.finishes sound ⟨rfl, rfl⟩ begins (congrArg Array.size code) opens quiet bodies with
    ⟨c₂, t, ⟨ready, A, course, reading, log, heap⟩, leaves, finishes⟩ |
      ⟨c₂, ⟨events, course, log⟩, finishes⟩
  · obtain ⟨back, restores, result, memory⟩ := ready.restores keeps leaves
    exact ⟨_, _, _, course, finishes (back.trans entered.loaded.back), (result _) ▸ reading,
      restores, log, memory ▸ heap⟩
  · exact ⟨_, _, _, course, finishes, log⟩

theorem Built.runs (built : g.Built) (generated : g.generate root o = .ok c)
    (lowered : g.lowering root o = some (.ok () σ)) (compact : g.Compact root c.image)
    (entered : g.Entered ω h noted root c.image s₀) :
    ∃ L : Site, L.host = h ∧ L.code = c.image.bytes ∧
      L.permits = σ.finalFrame.Allows (g.callRoom root) s₀ ∧
      ∃ a c' out, ω.course g root ⟨fun _ => none, []⟩ a ∧ L.Finishes ⟨[], s₀⟩ c' out ∧
        g.Concludes ω h noted root s₀ a c'.entered out := by
  obtain ⟨L, host, code, permits, -, runs⟩ :=
    built.runs_watched generated lowered compact entered fun _ _ _ _ _ _ => trivial
  exact ⟨L, host, code, permits, runs⟩

end Graph

end NativeExpr
