import NativeExpr.Proofs.Lowering.Entered

/-!
# Safety of generated functions

Whatever the arguments are and whatever outside code returns, a generated function keeps
to its stack. It gives its caller back the registers that it has to keep, it writes below
its return address only, in its frame or what it pushes for a call, and it calls with an
aligned stack. Without a frame it writes no memory at all.
-/
namespace NativeExpr

open X64 Machine

namespace Machine

variable {h : Host} {code : Array Byte} {c c' : Config} {s s' : State} {i : Instruction}

theorem step_eq_ok (own : h.callees c.state.pc = none) (hs : step h code c = .ok c') :
    c.state.pc ≠ h.stop ∧ ∃ i length, decodeAt code (c.state.pc - h.base).toNat = some (i, length) ∧
      exec c.state (c.state.pc + BitVec.ofNat 64 length) i = some c'.state := by
  unfold step at hs
  dsimp only at hs
  split at hs
  · cases hs
  · next running =>
    rw [own] at hs
    dsimp only at hs
    split at hs
    · cases hs
    · next i length decoded =>
      split at hs
      · cases hs
      · next s' run =>
        cases hs
        exact ⟨running, i, length, decoded, run⟩

/-- The configuration after some steps, if the run does not end before. -/
def advance (h : Host) (code : Array Byte) : Nat → Config → Option Config
  | 0, c => some c
  | n + 1, c =>
    match step h code c with
    | .ok c' => advance h code n c'
    | .error _ => none

theorem steps_of_advance {n : Nat} (far : advance h code n c = some c') : Steps h code n c c' := by
  induction n generalizing c with
  | zero =>
    cases far
    exact .refl
  | succ n ih =>
    rw [advance] at far
    split at far
    · next next one => exact .step one (ih far)
    · cases far

theorem memory_exec_of_apart {next b : Word} (run : exec s next i = some s')
    (apart : ∀ a, storeAddress? s i = some a → 8 ≤ (b - a).toNat) : s'.memory b = s.memory b := by
  have written := memory_exec run
  cases hi : storeAddress? s i with
  | none =>
    rw [hi] at written
    exact congrFun written b
  | some a =>
    rw [hi] at written
    obtain ⟨x, hx⟩ := written
    rw [hx]
    exact Memory.store_of_le (apart a hi)

theorem foldl_setNamed {rs : List Reg} (valid : ∀ r ∈ rs, r.Valid) (s : State) (w : Word) :
    let t := rs.foldl (fun t r => t.setNamed r w) s
    t.memory = s.memory ∧ ∀ q, q.Valid → q ∉ rs → t.named q = s.named q := by
  induction rs generalizing s with
  | nil => exact ⟨rfl, fun _ _ _ => rfl⟩
  | cons r rs ih =>
    obtain ⟨memory, named⟩ := ih (fun q hq => valid q (List.mem_cons_of_mem _ hq)) (s.setNamed r w)
    refine ⟨memory.trans State.memory_setNamed, fun q hq hn => ?_⟩
    rw [List.mem_cons, not_or] at hn
    exact (named q hq hn.2).trans (by
      rw [State.named_setNamed (valid r (List.mem_cons_self ..)) hq, if_neg hn.1])

/-- A foreign function takes its return address from the stack and sets its result, in a state
in which it has lost what it need not keep. -/
theorem Foreign.exists_call_eq (f : Foreign) (s : State) :
    ∃ t : State, t.memory = s.memory ∧
      (∀ r ∈ .rsp :: .rbp :: Convention.calleeSaved, t.named r = s.named r) ∧
      f.call s = ((t.setNamed .rsp (t.named .rsp + 8)).setNamed
        (Convention.returnReg f.ret.regClass) (f.result (s.arguments f.params))).setPc
          (t.memory.load (t.named .rsp) 8) := by
  obtain ⟨memory₁, named₁⟩ := @foldl_setNamed Convention.callerSaved (by decide) s clobbered
  obtain ⟨memory₂, named₂⟩ := @foldl_setNamed ((List.range 16).map Reg.xmm) (by decide)
    (Convention.callerSaved.foldl (fun t r => t.setNamed r clobbered) s) clobbered
  have all : ∀ r ∈ .rsp :: .rbp :: Convention.calleeSaved, r.Valid ∧
      r ∉ Convention.callerSaved ∧ r ∉ (List.range 16).map Reg.xmm := by decide
  refine ⟨_, memory₂.trans memory₁, fun r hr => ?_, rfl⟩
  obtain ⟨valid, general, float⟩ := all r hr
  exact (named₂ r valid float).trans (named₁ r valid general)

theorem Foreign.memory_call (f : Foreign) (s : State) : (f.call s).memory = s.memory := by
  obtain ⟨t, memory, -, call⟩ := f.exists_call_eq s
  rw [call, State.memory_setPc, State.memory_setNamed, State.memory_setNamed, memory]

theorem Foreign.result_call (f : Foreign) (s : State) :
    (f.call s).named (Convention.returnReg f.ret.regClass) =
      f.result (s.arguments f.params) := by
  obtain ⟨t, -, -, call⟩ := f.exists_call_eq s
  have valid := (Frame.valid_returnReg f.ret.regClass).1
  rw [call, State.named_setPc, State.named_setNamed valid valid, if_pos rfl]

theorem Foreign.abides (f : Foreign) (low : Word) (height : Nat) (s : State) :
    Abides low height s (f.call s) := by
  obtain ⟨t, memory, kept, call⟩ := f.exists_call_eq s
  have all : ∀ r ∈ .rsp :: .rbp :: Convention.calleeSaved, r.Valid ∧
      r ≠ Convention.returnReg .general ∧ r ≠ Convention.returnReg .float := by decide
  have apart (r : Reg) (hr : r ∈ .rsp :: .rbp :: Convention.calleeSaved) :
      r ≠ Convention.returnReg f.ret.regClass := by
    cases f.ret.regClass with
    | general => exact (all r hr).2.1
    | float => exact (all r hr).2.2
  have named (r : Reg) (hr : r ∈ .rsp :: .rbp :: Convention.calleeSaved) :
      (f.call s).named r = if r = .rsp then s.named .rsp + 8 else s.named r := by
    rw [call, State.named_setPc, State.named_setNamed (Frame.valid_returnReg _).1 (all r hr).1,
      if_neg (apart r hr), State.named_setNamed (by decide) (all r hr).1, kept r hr,
      kept .rsp (List.mem_cons_self ..)]
  have notSp : .rsp ∉ .rbp :: Convention.calleeSaved := by decide
  refine ⟨?_, ?_, fun r hr => ?_, fun i _ => ?_⟩
  · rw [call, ← memory, ← kept .rsp (List.mem_cons_self ..)]
    rfl
  · rw [named .rsp (List.mem_cons_self ..), if_pos rfl]
  · rw [named r (List.mem_cons_of_mem _ hr), if_neg fun (he : r = .rsp) => notSp (he ▸ hr)]
  · rw [f.memory_call]

/-- Surroundings in which a foreign function is all the outside code that there is. -/
def Foreign.alone (f : Foreign) : Host :=
  Environment.host fun a => if a = 0x100000200000 then some f else none

/-- A function of less than a page is loaded, apart from one foreign function. -/
theorem Foreign.loaded_alone (f : Foreign) {code : Array Byte} {m : Memory}
    {types : List ScalarType} {args : List Word} (length : args.length = types.length)
    (few : 8 + Convention.argBytes (types.map ScalarType.regClass) < 18446744073709551616)
    (size : code.size ≤ 4096) : Loaded f.alone code (entryState m types args) := by
  refine loaded_entryState length few size fun k hk => ?_
  have apart : codeBase + BitVec.ofNat 64 k ≠ 0x100000200000 := fun same => by
    have same := congrArg BitVec.toNat same
    rw [BitVec.toNat_add, BitVec.toNat_ofNat] at same
    have base : codeBase.toNat = 0x555500000000 := rfl
    have target : (0x100000200000 : Word).toNat = 0x100000200000 := rfl
    omega
  show Option.map _ (if _ then _ else _) = none
  rw [if_neg apart]
  rfl

end Machine

namespace Frame

variable {f : Frame} {room : Nat} {s₀ s : State} {a : Word}

/-- The slots of a frame lie inside it and are apart from each other. -/
structure Laid (f : Frame) : Prop where
  aligned : f.size % 16 = 0
  slots : ∀ j < f.spillSlots, -(f.size : Int) ≤ -8 * (j + 1 : Nat)
  saves : ∀ x ∈ f.saves, -(f.size : Int) ≤ x.2 ∧ ∀ j < f.spillSlots, x.2 + 8 ≤ -8 * (j + 1 : Nat)
  apart : f.saves.Pairwise fun x y => y.2 + 8 ≤ x.2

theorem laid (f : Frame) : f.Laid := by
  have le := f.le_size
  refine ⟨f.size_mod, fun j hj => by omega, fun x hx => ?_, ?_⟩
  · obtain ⟨i, hi, he⟩ := mem_saves hx
    rw [he]
    exact ⟨by omega, fun j hj => by omega⟩
  · refine List.pairwise_iff_getElem.2 fun i j hi hj lt => ?_
    simp only [saves, List.getElem_mapIdx, saveSlot]
    omega

theorem Owns.below (owns : f.Owns room s₀ s a) (small : f.size < 2147483648)
    (roomy : room ≤ 2147483648) :
    8 ≤ (s₀.named .rsp - a).toNat ∧ (s₀.named .rsp - a).toNat ≤ 8 + f.size + room := by
  have top : s₀.named .rsp = s₀.named .rsp - 8 + BitVec.ofInt 64 8 :=
    (BitVec.sub_add_cancel ..).symm
  have cell {z : Int} (low : -(8 + f.size + room : Nat) ≤ z - 8) (high : z ≤ 0) :
      8 ≤ (s₀.named .rsp - (s₀.named .rsp - 8 + BitVec.ofInt 64 z)).toNat ∧
        (s₀.named .rsp - (s₀.named .rsp - 8 + BitVec.ofInt 64 z)).toNat ≤ 8 + f.size + room := by
    nth_rewrite 1 3 [top]
    rw [distance_cells]
    omega
  have laid := f.laid
  cases owns with
  | link =>
    have link := cell (z := 0) (by omega) (by omega)
    rwa [show s₀.named .rsp - 8 + BitVec.ofInt 64 0 = s₀.named .rsp - 8 from BitVec.add_zero _]
      at link
  | slot hj =>
    have low := laid.slots _ hj
    exact cell (by omega) (by omega)
  | save hx =>
    obtain ⟨i, hi, he⟩ := mem_saves hx
    have low := (laid.saves _ hx).1
    exact cell (by omega) (by omega)
  | argument lowered few inside =>
    rw [lowered, sub_ofNat _ f.size, sub_cell, add_cell]
    exact cell (by omega) (by omega)
  | returnAddress lowered few =>
    rw [lowered, sub_ofNat _ f.size, sub_cell, show (8 : Word) = BitVec.ofNat 64 8 from rfl,
      sub_cell]
    exact cell (by omega) (by omega)

end Frame

namespace Graph

open Lowering

variable {g : Graph} {root : NodeId} {o : Options} {σ : Lowering.State} {h : Host}
variable {s₀ : Machine.State} {c : Generated}

/-- Whether there is outside code for every call that a function may make, which keeps to
the convention while the frame of the function begins at `low`. -/
def Attended (g : Graph) (root : NodeId) (h : Host) (low : Word) (height : Nat) : Prop :=
  ∀ x target args ty, g.Reaches root x → g.node? x = some ⟨.call target args, ty⟩ →
    target ≠ h.stop ∧ ∃ f, h.callees target = some f ∧ ∀ called s,
      s.named .rsp + BitVec.ofNat 64 (g.outgoingBytes args + 8) = low →
        Abides low height s (f called s)

theorem attended_alone (f : Foreign) {low : Word} {height : Nat}
    (only : ∀ {x target args ty}, g.node? x = some ⟨.call target args, ty⟩ →
      target = 0x100000200000) : g.Attended root f.alone low height := by
  intro x target args ty _ node
  obtain rfl := only node
  have outside : (0x100000200000 : Word) ≠ returnAddress := by decide
  exact ⟨outside, fun _ s => f.call s, rfl, fun _ s _ => f.abides low height s⟩

/-- A world in which outside code may return anything and loads may find anything. -/
def anything (g : Graph) (s₀ : Machine.State) : World where
  param i := ((Convention.argLocations (g.paramTypes.map ScalarType.regClass))[i]?.map
    s₀.argument).getD 0
  reply _ _ _ := True
  view _ _ := 0
  heap _ := false

theorem Built.entered_anything (built : g.Built) (hr : root < g.size)
    (loaded : Loaded h c.image.bytes s₀)
    (attended : g.Attended root h (s₀.named .rsp - 8 - BitVec.ofNat 64 c.image.frameSize)
      (c.image.frameSize + 16 + g.paramRoom)) :
    g.Entered (g.anything s₀) h (fun _ _ => True) root c.image s₀ := by
  refine ⟨loaded, fun i l hl => ?_, fun a ha => (by cases ha), fun a ha => (by cases ha), ?_⟩
  · show _ = (_ : Option Word).getD 0
    rw [hl]
    rfl
  · rintro k ⟨x, hx, args, node, types⟩
    obtain ⟨outside, f, hf, abides⟩ :=
      attended x k.target args k.ret ((built.wellFormed.mem_below hr).1 hx) node
    refine ⟨outside, f, hf, fun called events s _ _ sp _ _ => ?_⟩
    rw [outgoing_eq types] at sp
    exact ⟨trivial, abides called s sp, fun a ha => (by cases ha), _, trivial, rfl⟩

/-- Surroundings that a function is entered in, where some memory stays as it is and outside code
answers calls by the values of their arguments. -/
def around (g : Graph) (s₀ : Machine.State) (heap : Word → Bool) (answer : Call → Word) :
    World where
  param i := ((Convention.argLocations (g.paramTypes.map ScalarType.regClass))[i]?.map
    s₀.argument).getD 0
  reply _ k w := w = answer k
  view _ := s₀.memory
  heap

/-- A foreign function that gives the answer to a call serves it. -/
theorem serves_around (f : Foreign) {heap : Word → Bool} {answer : Call → Word} {k : Call}
    (target : k.target = 0x100000200000) (ret : f.ret = k.ret)
    (answers : ∀ s, k.MadeIn s →
      k.ret.settle (f.result (s.arguments f.params)) = k.ret.settle (answer k))
    (size height : Nat) (low : Word) :
    (g.around s₀ heap answer).Serves f.alone (fun _ _ => True) size low height k := by
  have outside : (0x100000200000 : Word) ≠ returnAddress := by decide
  refine ⟨target ▸ outside, fun _ s => f.call s, by rw [target]; rfl,
    fun entered events s _ made _ _ held =>
      ⟨trivial, f.abides low height s, fun a ha => ?_, _, rfl, ?_⟩⟩
  · rw [f.memory_call]
    exact held a ha
  · rw [← ret, f.result_call, ret]
    exact answers s made

/-- Whether an address is not on the stack that a function may use. -/
def isBeyond (g : Graph) (root : NodeId) (image : FunctionImage) (s₀ : Machine.State)
    (address : Word) : Bool :=
  decide (g.stackRoom root image ≤
    (address - (s₀.named .rsp - BitVec.ofNat 64 (g.stackRoom root image))).toNat)

theorem isBeyond_of_lt {image : FunctionImage} {a : Word}
    (lt : a.toNat + g.stackRoom root image < (s₀.named .rsp).toNat) :
    g.isBeyond root image s₀ a = true := by
  rw [isBeyond, decide_eq_true_iff, BitVec.toNat_sub, BitVec.toNat_sub, BitVec.toNat_ofNat]
  omega

theorem entered_around {image : FunctionImage} {heap : Word → Bool} (answer : Call → Word)
    (loaded : Loaded h image.bytes s₀)
    (beyond : ∀ a, heap a = true → g.isBeyond root image s₀ a = true)
    (serves : ∀ k, g.Calls root k →
      (g.around s₀ heap answer).Serves h (fun _ _ => True)
        image.bytes.size (s₀.named .rsp - 8 - BitVec.ofNat 64 image.frameSize)
        (image.frameSize + 16 + g.paramRoom) k) :
    g.Entered (g.around s₀ heap answer) h (fun _ _ => True) root image s₀ := by
  refine ⟨loaded, fun i l hl => ?_, fun _ _ => rfl, fun a ha => of_decide_eq_true (beyond a ha),
    serves⟩
  show _ = (_ : Option Word).getD 0
  rw [hl]
  rfl

/-- What a step of a function's own code from one state to another does: its instruction is one
that the frame allows, it changes memory in the eight bytes that the instruction writes only,
and never from the return address on, where the stack arguments are. -/
structure Contained (g : Graph) (root : NodeId) (f : Frame) (s₀ s s' : Machine.State)
    (i : Instruction) : Prop where
  allowed : f.Allows (g.callRoom root) s₀ s i
  memory : ∀ b, (∀ a, storeAddress? s i = some a → 8 ≤ (b - a).toNat) → s'.memory b = s.memory b
  above : ∀ k < 8 + g.paramRoom,
    s'.memory (s₀.named .rsp + BitVec.ofNat 64 k) = s.memory (s₀.named .rsp + BitVec.ofNat 64 k)

theorem contained {f : Frame} {s s' : Machine.State} {i : Instruction} {next : Word}
    (allowed : f.Allows (g.callRoom root) s₀ s i) (run : exec s next i = some s')
    (small : f.size < 2147483648) (roomy : g.callRoom root ≤ 2147483648)
    (reaches : g.paramRoom + 16 < 2147483648) : g.Contained root f s₀ s s' i := by
  refine ⟨allowed, fun b => memory_exec_of_apart run, fun k hk => memory_exec_of_apart run ?_⟩
  intro a ha
  obtain ⟨far, near⟩ := (allowed.writes a ha).below small roomy
  have split : s₀.named .rsp + BitVec.ofNat 64 k - a =
      s₀.named .rsp - a + BitVec.ofNat 64 k := by grind
  rw [split, BitVec.toNat_add, BitVec.toNat_ofNat]
  omega

/-- A generated function that was entered in any state keeps to its stack. -/
theorem frame_safe (built : g.Built) (generated : g.generate root o = .ok c)
    (lowered : g.lowering root o = some (.ok () σ)) (compact : g.Compact root c.image)
    (loaded : Loaded h c.image.bytes s₀)
    (attended : g.Attended root h (s₀.named .rsp - 8 - BitVec.ofNat 64 c.image.frameSize)
      (c.image.frameSize + 16 + g.paramRoom)) :
    σ.finalFrame.Laid ∧ σ.finalFrame.size = c.image.frameSize ∧
      (∀ x p, σ.slot x = some p → ∃ j < σ.finalFrame.spillSlots, p = -8 * (j + 1 : Nat)) ∧
      (∀ x y p q, x ≠ y → σ.slot x = some p → σ.slot y = some q → p + 8 ≤ q ∨ q + 8 ≤ p) ∧
      (∀ n c₁ c₂, Steps h c.image.bytes n ⟨[], s₀⟩ c₁ → h.callees c₁.state.pc = none →
        step h c.image.bytes c₁ = .ok c₂ → ∃ i length,
          decodeAt c.image.bytes (c₁.state.pc - h.base).toNat = some (i, length) ∧
            g.Contained root σ.finalFrame s₀ c₁.state c₂.state i) ∧
      ∃ out called, run h c.image.bytes (stepBound c.image.bytes) ⟨[], s₀⟩ = (out, called) ∧
        (out = .divideError ∨ ∃ s, out = .returned s ∧ Restores s₀ s) := by
  obtain ⟨E, finished⟩ := built.finished lowered
  obtain ⟨D, stage⟩ := finished.stage
  obtain ⟨-, -, -, -, -, -, -, -, size⟩ := built.assembled generated lowered
  have small : σ.finalFrame.size < 2147483648 := size ▸ compact.frame
  have slots : σ.frame.spillSlots = σ.finalFrame.spillSlots := by
    rw [finalFrame_eq stage.inv.saved]
  have cell (x : NodeId) (p : Int) (hp : σ.slot x = some p) :
      ∃ j < σ.finalFrame.spillSlots, p = -8 * (j + 1 : Nat) := slots ▸ stage.inv.slot_eq hp
  have entered := built.entered_anything (exists_lowering lowered).1 loaded attended
  obtain ⟨L, rfl, code, permits, a, c', out, course, finishes, concludes⟩ :=
    built.runs generated lowered compact entered
  refine ⟨Frame.laid _, size, cell, fun x y p q ne hp hq => ?_, fun n c₁ c₂ steps own next => ?_,
    out, c'.entered, code ▸ finishes.run_eq, ?_⟩
  · obtain ⟨i, -, rfl⟩ := cell x p hp
    obtain ⟨j, -, rfl⟩ := cell y q hq
    have apart : i ≠ j := fun same => ne (stage.inv.slot_inj hp (same ▸ hq))
    omega
  · obtain ⟨running, i, length, decoded, done⟩ := step_eq_ok own next
    have minds :=
      ((finishes.reached (code.symm ▸ steps)).1 running own i length (code.symm ▸ decoded)).1
    rw [permits] at minds
    exact ⟨i, length, decoded, contained minds done small compact.calls compact.params⟩
  · cases a with
    | ok A =>
      obtain ⟨s, returned, -, restores, -⟩ := concludes.ok
      exact .inr ⟨s, returned, restores⟩
    | error events => exact .inl concludes.error.1

/-- Whether a root is generated as a function of at most a page with a small frame. -/
def isSmall (g : Graph) (root : NodeId) (o : Options) : Bool :=
  match g.generate root o with
  | .ok c => decide (c.image.frameSize < 2147483648 ∧ c.image.bytes.size ≤ 4096)
  | .error _ => false

theorem exists_of_isSmall (small : g.isSmall root o = true) :
    ∃ c, g.generate root o = .ok c ∧ c.image.frameSize < 2147483648 ∧
      c.image.bytes.size ≤ 4096 := by
  unfold isSmall at small
  split at small
  next c hc =>
    obtain ⟨frame, size⟩ := of_decide_eq_true small
    exact ⟨c, hc, frame, size⟩
  next => cases small

/-- Whether a root is generated as a function that passes a test. -/
def generatesWith (g : Graph) (root : NodeId) (o : Options) (test : Generated → Bool) : Bool :=
  match g.generate root o with
  | .ok c => test c
  | .error _ => false

theorem of_generatesWith (test : Generated → Bool) (passes : g.generatesWith root o test = true)
    (generated : g.generate root o = .ok c) : test c = true := by
  rwa [generatesWith, generated] at passes

def lowersWith (g : Graph) (root : NodeId) (o : Options) (test : Lowering.State → Bool) : Bool :=
  match g.lowering root o with
  | some (.ok _ s) => test s
  | _ => false

theorem of_lowersWith (test : Lowering.State → Bool) (passes : g.lowersWith root o test = true)
    (lowered : g.lowering root o = some (.ok () σ)) : test σ = true := by
  rwa [lowersWith, lowered] at passes

theorem distance_call {x : NodeId} {target : Word} {args : List NodeId} {ty : ScalarType} :
    distance.node? x ≠ some ⟨.call target args, ty⟩ := by
  have none : ∀ n ∈ distance.nodes, ∀ t a, n.kind ≠ .call t a := by simp [distance]
  exact fun node => none _ (Array.mem_of_getElem? node) target args rfl

/-! ## A function that spills and calls -/

/-- A number from memory, weighted and shifted, and what outside code makes of the number. -/
def weigh : Graph where
  nodes := #[⟨.parameter 0, .ptr⟩, ⟨.parameter 1, .f64⟩, ⟨.parameter 2, .f64⟩, ⟨.field 0 8, .f64⟩,
    ⟨.call 0x100000200000 [3], .f64⟩, ⟨.arith .mul 2 3, .f64⟩, ⟨.arith .add 1 5, .f64⟩,
    ⟨.arith .add 6 4, .f64⟩]
  params := [0, 1, 2]
  parents := #[1, 1, 1, 2, 1, 1, 1, 0]

theorem built_weigh : weigh.Built :=
  .of_built? [.ptr, .f64, .f64]
    [.field 0 8 .f64, .call 0x100000200000 [3] .f64, .arith .mul 2 3, .arith .add 1 5,
     .arith .add 6 4] (by decide +kernel)

def square : Foreign :=
  ⟨"square", [.f64], .f64, fun args => Precision.double.apply .mul (args.headD 0) (args.headD 0)⟩

/-- An entry with 2.0 in memory and two NaNs as arguments. -/
def weighEntry : Machine.State :=
  entryState (fun a => if a = 0x10000000000f then 0x40 else 0) [.ptr, .f64, .f64]
    [0x100000000000, 0x7ff8000000000001, 0x7ff8000000000002]

theorem weigh_call {x : NodeId} {target : Word} {args : List NodeId} {ty : ScalarType}
    (node : weigh.node? x = some ⟨.call target args, ty⟩) :
    target = 0x100000200000 ∧ args = [3] ∧ ty = .f64 := by
  have kinds : ∀ n ∈ weigh.nodes, ∀ t a, n.kind = .call t a →
      t = 0x100000200000 ∧ a = [3] ∧ n.ty = .f64 := by
    simp [weigh]
  exact kinds _ (Array.mem_of_getElem? node) _ _ rfl

theorem exists_loaded_weigh (small : weigh.isSmall 7 o = true) :
    ∃ c, weigh.generate 7 o = .ok c ∧ weigh.Compact 7 c.image ∧
      Loaded square.alone c.image.bytes weighEntry := by
  obtain ⟨c, hc, frame, size⟩ := exists_of_isSmall small
  have calls : weigh.callRoom 7 = 8 := by decide +kernel
  have params : weigh.paramRoom = 0 := by decide +kernel
  exact ⟨c, hc, ⟨frame, by omega, by omega⟩, square.loaded_alone rfl (by decide) size⟩

/-- Whether code returns a word after one call. -/
def weighs (w : Word) (c : Generated) : Bool :=
  match run square.alone c.image.bytes (stepBound c.image.bytes) ⟨[], weighEntry⟩ with
  | (.returned s, called) => decide (s.named (.xmm 0) = w ∧ called.length = 1)
  | _ => false

theorem of_weighs {w : Word} (h : weighs w c = true) : ∃ s called,
    run square.alone c.image.bytes (stepBound c.image.bytes) ⟨[], weighEntry⟩ =
      (.returned s, called) ∧ s.named (.xmm 0) = w ∧ called.length = 1 := by
  unfold weighs at h
  split at h
  · next s called runs => exact ⟨s, called, runs, of_decide_eq_true h⟩
  · cases h

/-- Whether code comes to a call after so many steps. -/
def callsAfter (n : Nat) (c : Generated) : Bool :=
  (advance square.alone c.image.bytes n ⟨[], weighEntry⟩).any fun c₁ =>
    decide ((decodeAt c.image.bytes (c₁.state.pc - codeBase).toNat).map Prod.fst =
      some (.callReg 11)) &&
    (square.alone.callees c₁.state.pc).isNone && (step square.alone c.image.bytes c₁).isOk

theorem of_callsAfter {n : Nat} (h : callsAfter n c = true) : ∃ c₁ c₂,
    Steps square.alone c.image.bytes n ⟨[], weighEntry⟩ c₁ ∧
      (decodeAt c.image.bytes (c₁.state.pc - codeBase).toNat).map Prod.fst = some (.callReg 11) ∧
      square.alone.callees c₁.state.pc = none ∧ step square.alone c.image.bytes c₁ = .ok c₂ := by
  obtain ⟨c₁, far, h⟩ := (Option.any_eq_true ..).1 h
  rw [Bool.and_eq_true, Bool.and_eq_true] at h
  obtain ⟨⟨instruction, own⟩, next⟩ := h
  cases hs : step square.alone c.image.bytes c₁ with
  | error => rw [hs] at next; cases next
  | ok c₂ =>
    exact ⟨c₁, c₂, steps_of_advance far, of_decide_eq_true instruction,
      Option.isNone_iff_eq_none.1 own, hs⟩

/-- Two values have slots and the call is made with the stack aligned. -/
theorem frame_safe_weigh : ∃ c σ, weigh.generate 7 ⟨65536, 4, 2, false⟩ = .ok c ∧
    weigh.lowering 7 ⟨65536, 4, 2, false⟩ = some (.ok () σ) ∧ σ.finalFrame.Laid ∧
    (∃ p q, σ.slot 1 = some p ∧ σ.slot 6 = some q ∧ (p + 8 ≤ q ∨ q + 8 ≤ p)) ∧
    (∃ n c₁ c₂ length, Steps square.alone c.image.bytes n ⟨[], weighEntry⟩ c₁ ∧
      step square.alone c.image.bytes c₁ = .ok c₂ ∧
      decodeAt c.image.bytes (c₁.state.pc - codeBase).toNat = some (.callReg 11, length) ∧
      weigh.Contained 7 σ.finalFrame weighEntry c₁.state c₂.state (.callReg 11) ∧
      (c₁.state.named .rsp).toNat % 16 = 0) ∧
    ∃ s called, run square.alone c.image.bytes (stepBound c.image.bytes) ⟨[], weighEntry⟩ =
      (.returned s, called) ∧ called.length = 1 ∧ Restores weighEntry s := by
  obtain ⟨c, hc, compact, loaded⟩ := @exists_loaded_weigh ⟨65536, 4, 2, false⟩ (by decide +kernel)
  obtain ⟨σ, _, _, lowered, -⟩ := generate_eq_ok hc
  obtain ⟨laid, -, -, apart, steps, out, called, runs, ends⟩ :=
    frame_safe built_weigh hc lowered compact loaded
      (attended_alone square fun node => (weigh_call node).1)
  have slots : ∃ p q, σ.slot 1 = some p ∧ σ.slot 6 = some q := by
    have test := of_lowersWith (fun σ => (σ.slot 1).isSome && (σ.slot 6).isSome)
      (by decide +kernel) lowered
    rw [Bool.and_eq_true, Option.isSome_iff_exists, Option.isSome_iff_exists] at test
    obtain ⟨⟨p, hp⟩, q, hq⟩ := test
    exact ⟨p, q, hp, hq⟩
  obtain ⟨p, q, hp, hq⟩ := slots
  obtain ⟨s, _, runs', -, once⟩ := of_weighs (of_generatesWith (weighs 0x7ff8000000000002)
    (by decide +kernel) hc)
  obtain ⟨c₁, c₂, reached, instruction, own, next⟩ :=
    of_callsAfter (of_generatesWith (callsAfter 12) (by decide +kernel) hc)
  obtain ⟨i, length, decoded, contained⟩ := steps 12 c₁ c₂ reached own next
  have decoded : decodeAt c.image.bytes (c₁.state.pc - codeBase).toNat = some (i, length) := decoded
  rw [decoded] at instruction
  obtain rfl : i = .callReg 11 := Option.some.inj instruction
  have same := runs.symm.trans runs'
  refine ⟨c, σ, hc, lowered, laid, ⟨p, q, hp, hq, apart 1 6 p q (by decide) hp hq⟩,
    ⟨12, c₁, c₂, length, reached, next, decoded, contained,
      contained.allowed.aligned 11 rfl (by decide +kernel)⟩, ?_⟩
  rcases ends with rfl | ⟨s, rfl, restores⟩
  · cases same
  · cases same
    exact ⟨_, _, runs, once, restores⟩

end Graph

end NativeExpr
