import NativeExpr.Machine.Run
import NativeExpr.Proofs.Layout

/-!
# Execution of laid out code

A body of code lies somewhere in the code of a function, and the function
somewhere in memory. Control that stands at the offset of an item carries the
item out and stands at the end of it, or at the label it branches to. Every item
is made in at most two steps for each of its bytes.
-/
namespace NativeExpr.Machine

open NativeExpr X64

/-- Steps that neither return nor fail. -/
inductive Steps (h : Host) (code : Array Byte) : Nat → Config → Config → Prop
  | refl {c : Config} : Steps h code 0 c c
  | step {n : Nat} {c c' c'' : Config} (first : Machine.step h code c = .ok c')
      (rest : Steps h code n c' c'') : Steps h code (n + 1) c c''

variable {h : Host} {code : Array Byte} {c c' c'' : Config} {m n : Nat}

theorem Steps.trans (first : Steps h code m c c') (rest : Steps h code n c' c'') :
    Steps h code (m + n) c c'' := by
  induction first with
  | refl => rwa [Nat.zero_add]
  | step one _ ih =>
    rw [Nat.succ_add]
    exact .step one (ih rest)

theorem Steps.run_eq (steps : Steps h code m c c') (n : Nat) :
    run h code (m + n) c = run h code n c' := by
  induction steps with
  | refl => rw [Nat.zero_add]
  | step one _ ih =>
    rw [Nat.succ_add, run, one]
    exact ih

/-- The address of the eight bytes that an instruction writes, if it writes memory. -/
def storeAddress? (s : State) : Instruction → Option Word
  | .store (.mem a) _ | .movSigned (.mem a) _ | .storeFloat a _ => some (s.address a)
  | .push _ | .callReg _ => some (s.rsp - 8)
  | _ => none

/-- An instruction changes memory in the eight bytes at its address only. -/
theorem memory_exec {s s' : State} {next : Word} {i : Instruction} (h : exec s next i = some s') :
    match storeAddress? s i with
    | none => s'.memory = s.memory
    | some a => ∃ x, s'.memory = s.memory.store a x := by
  cases i with
  | store dst src => cases dst <;> cases h <;> first | rfl | exact ⟨_, rfl⟩
  | movSigned dst value => cases dst <;> cases h <;> first | rfl | exact ⟨_, rfl⟩
  | storeFloat => cases h; exact ⟨_, rfl⟩
  | push => cases h; exact ⟨_, rfl⟩
  | callReg => cases h; exact ⟨_, rfl⟩
  | alu op => cases op <;> cases h <;> rfl
  | aluImm op => cases op <;> cases h <;> rfl
  | div signed src =>
    have h : Option.bind (if signed then divideSigned (s.reg 2) (s.reg 0) (s.read 8 src)
        else divideUnsigned (s.reg 2) (s.reg 0) (s.read 8 src))
        (fun x => some (((s.setReg 0 x.1).setReg 2 x.2).setPc next)) = some s' := by
      rw [← h]
      cases signed <;> rfl
    obtain ⟨_, -, rest⟩ := Option.bind_eq_some_iff.1 h
    cases rest
    rfl
  | floatOp op p => cases p <;> cases h <;> rfl
  | intToFloat p => cases p <;> cases h <;> rfl
  | convertFloat p => cases p <;> cases h <;> rfl
  | _ => cases h; rfl

/-- Whether an address is one in code of some size, or that of its end. -/
def Host.Spans (h : Host) (size : Nat) (a : Word) : Prop :=
  ∃ i ≤ size, a = h.base + BitVec.ofNat 64 i

/-- Whether control may go on behind an instruction or elsewhere. -/
def isBranch : Instruction → Bool
  | .jumpIf .. => true
  | _ => false

/-- Where a body lies in the code of a function, its finished buffer, and what its
instructions and its branches are to be held to. -/
structure Site where
  host : Host
  code : Array Byte
  start : Nat
  body : CodeBuffer
  permits : State → Instruction → Prop
  watch : Config → Prop

namespace Site

/-- Whether the instruction that is carried out next, if one is, is permitted. -/
def Minds (L : Site) (c : Config) : Prop :=
  L.host.callees c.state.pc = none → ∀ i length,
    X64.decodeAt L.code (c.state.pc - L.host.base).toNat = some (i, length) →
      L.permits c.state i ∧ (isBranch i = true → L.watch c)

/-- Steps that neither return nor fail and carry out permitted instructions only. -/
inductive Walks (L : Site) : Nat → Config → Config → Prop
  | refl {c : Config} : Walks L 0 c c
  | step {n : Nat} {c c' c'' : Config} (minds : L.Minds c)
      (first : Machine.step L.host L.code c = .ok c') (rest : Walks L n c' c'') :
      Walks L (n + 1) c c''

theorem Walks.trans {L : Site} (first : L.Walks m c c') (rest : L.Walks n c' c'') :
    L.Walks (m + n) c c'' := by
  induction first with
  | refl => rwa [Nat.zero_add]
  | step minds one _ ih =>
    rw [Nat.succ_add]
    exact .step minds one (ih rest)

theorem Walks.steps {L : Site} (walk : L.Walks n c c') : Steps L.host L.code n c c' := by
  induction walk with
  | refl => exact .refl
  | step _ one _ ih => exact .step one ih

/-- The body is part of the code, and nothing else lies at the addresses of the code. -/
structure Sound (L : Site) : Prop where
  finished : ∃ done before after, L.body.finalize = .ok done ∧
    L.code.toList = before ++ (done.bytes.toList ++ after) ∧ before.length = L.start
  room : L.code.size < 18446744073709551616
  clear : ∀ k < L.code.size, L.host.base + BitVec.ofNat 64 k ≠ L.host.stop ∧
    L.host.callees (L.host.base + BitVec.ofNat 64 k) = none

/-- Whether a state of the buffer is one of those the body went through. -/
def Covers (L : Site) (b : CodeBuffer) : Prop :=
  (∃ capacity its, CodeBuffer.Written (.new capacity) b its) ∧ ∃ its, b.Written L.body its

def address (L : Site) (offset : Nat) : Word := L.host.base + BitVec.ofNat 64 (L.start + offset)

/-- Control stands at an offset of the body. -/
def At (L : Site) (offset : Nat) (c : Config) : Prop := c.state.pc = L.address offset

variable {L : Site} {b b' : CodeBuffer} {it : Item} {its : List Item}

theorem Covers.before (h : L.Covers b')
    (first : ∃ capacity its, CodeBuffer.Written (.new capacity) b its) (w : b.Written b' its) :
    L.Covers b := by
  obtain ⟨-, its', h'⟩ := h
  exact ⟨first, _, w.trans h'⟩

theorem Covers.decodeAt (h : L.Covers b) (sound : L.Sound) (w : b.Written b' (it :: its))
    (h' : L.Covers b') :
    X64.decodeAt L.code (L.start + b.size) =
        some (it.resolve L.body.labelOffset b.size, it.size) ∧
      L.start + b.size + it.size ≤ L.code.size ∧
      ∀ p ∈ it.patches b.size, L.body.Reachable p := by
  obtain ⟨⟨capacity, pre, hpre⟩, -⟩ := h
  obtain ⟨-, post, hpost⟩ := h'
  obtain ⟨done, before, after, fin, hcode, hstart⟩ := sound.finished
  obtain ⟨bytes, length, near⟩ := hpre.finalize (w.trans hpost) fin
  rw [List.cons_append, resolved] at bytes
  have image : L.code.toList = (before ++ resolved L.body.labelOffset 0 pre) ++
      ((it.resolve L.body.labelOffset b.size).encode ++
        (resolved L.body.labelOffset (b.size + it.size) (its ++ post) ++ after)) := by
    rw [hcode, bytes]
    simp only [List.append_assoc]
  have position : (before ++ resolved L.body.labelOffset 0 pre).length =
      L.start + b.size := by
    rw [List.length_append, length, hstart]
  refine ⟨?_, ?_, fun p hp => near p ?_⟩
  · rw [← position, decodeAt_of_append (w.valid it (List.mem_cons_self ..)).resolve image,
      Item.length_resolve]
  · have := congrArg List.length image
    rw [List.length_append, position, List.length_append, Item.length_resolve,
      Array.length_toList] at this
    omega
  · rw [List.cons_append, patchesFrom]
    exact List.mem_append_left _ hp

theorem address_sub (sound : L.Sound) {offset : Nat} (hle : L.start + offset ≤ L.code.size) :
    (L.address offset - L.host.base).toNat = L.start + offset := by
  have := sound.room
  rw [address, BitVec.add_comm, BitVec.add_sub_cancel, BitVec.toNat_ofNat,
    Nat.mod_eq_of_lt (by omega)]

theorem Sound.size_le (sound : L.Sound) : L.start + L.body.size ≤ L.code.size := by
  obtain ⟨done, before, after, fin, split, start⟩ := sound.finished
  have length := congrArg List.length split
  simp only [List.length_append, Array.length_toList, CodeBuffer.size_finalize fin, start] at length
  omega

theorem Sound.address_inj (sound : L.Sound) {p q : Nat} (hp : p ≤ L.body.size)
    (hq : q ≤ L.body.size) (same : L.address p = L.address q) : p = q := by
  have le := sound.size_le
  have first := address_sub sound (show L.start + p ≤ L.code.size by omega)
  rw [same, address_sub sound (by omega)] at first
  omega

theorem address_add (offset k : Nat) :
    L.address offset + BitVec.ofNat 64 k = L.address (offset + k) := by
  rw [address, address, BitVec.add_assoc, ← BitVec.ofNat_add, Nat.add_assoc]

theorem Covers.step_eq (h : L.Covers b) (sound : L.Sound) (w : b.Written b' (it :: its))
    (h' : L.Covers b') (at_ : L.At b.size c) :
    step L.host L.code c =
      match exec c.state (L.address (b.size + it.size)) (it.resolve L.body.labelOffset b.size) with
      | none => .error .divideError
      | some s => .ok ⟨c.entered, s⟩ := by
  obtain ⟨decoded, room, -⟩ := h.decodeAt sound w h'
  have pos := it.size_pos
  obtain ⟨stop, callee⟩ := sound.clear (L.start + b.size) (by omega)
  have hpc : c.state.pc = L.host.base + BitVec.ofNat 64 (L.start + b.size) := at_
  have offset := address_sub sound (show L.start + b.size ≤ _ by omega)
  rw [← show c.state.pc = L.address b.size from at_] at offset
  simp only [step, hpc, if_neg stop, callee]
  rw [← hpc, offset, decoded, show c.state.pc = L.address b.size from at_]
  cases run : exec c.state (L.address (b.size + it.size))
      (it.resolve L.body.labelOffset b.size) <;>
    simp only [address_add, run]

/-- The instruction at the offset of an item is the one it is resolved to. -/
theorem Covers.minds (h : L.Covers b) (sound : L.Sound) (w : b.Written b' (it :: its))
    (h' : L.Covers b') (at_ : L.At b.size c)
    (permits : L.permits c.state (it.resolve L.body.labelOffset b.size))
    (watch : isBranch (it.resolve L.body.labelOffset b.size) = true → L.watch c) : L.Minds c := by
  intro _ i length hi
  obtain ⟨decoded, room, -⟩ := h.decodeAt sound w h'
  rw [show c.state.pc = L.address b.size from at_, address_sub sound (by omega), decoded] at hi
  cases hi
  exact ⟨permits, watch⟩

/-! ## Reaching offsets -/

/-- From the offset `p` control gets to the offset `p'` in a state that satisfies `Q`. -/
def Leads (L : Site) (p p' : Nat) (c : Config) (Q : Config → Prop) : Prop :=
  ∃ n c', L.Walks n c c' ∧ n + 2 * p ≤ 2 * p' ∧ L.At p' c' ∧ Q c'

/-- From the offset `p` control gets to a divide error before the offset `p'`. -/
def Traps (L : Site) (p p' : Nat) (c : Config) (T : Config → Prop) : Prop :=
  ∃ n c', L.Walks n c c' ∧ n + 2 * p ≤ 2 * p' ∧
    L.Minds c' ∧ step L.host L.code c' = .error .divideError ∧ T c'

variable {p p' p'' : Nat} {Q Q' T : Config → Prop}

theorem Leads.refl (at_ : L.At p c) (h : Q c) : L.Leads p p c Q :=
  ⟨0, c, .refl, by omega, at_, h⟩

theorem Leads.trans (h : L.Leads p p' c Q)
    (next : ∀ c', L.At p' c' → Q c' → L.Leads p' p'' c' Q') : L.Leads p p'' c Q' := by
  obtain ⟨m, c1, steps1, bound1, at1, h1⟩ := h
  obtain ⟨n, c2, steps2, bound2, at2, h2⟩ := next c1 at1 h1
  exact ⟨m + n, c2, steps1.trans steps2, by omega, at2, h2⟩

theorem Leads.traps (h : L.Leads p p' c Q)
    (next : ∀ c', L.At p' c' → Q c' → L.Traps p' p'' c' T) : L.Traps p p'' c T := by
  obtain ⟨m, c1, steps1, bound1, at1, h1⟩ := h
  obtain ⟨n, c2, steps2, bound2, minds, stuck, h2⟩ := next c1 at1 h1
  exact ⟨m + n, c2, steps1.trans steps2, by omega, minds, stuck, h2⟩

theorem Leads.mono (h : L.Leads p p' c Q) (hq : ∀ c', Q c' → Q' c') : L.Leads p p' c Q' := by
  obtain ⟨n, c', steps, bound, at_, h'⟩ := h
  exact ⟨n, c', steps, bound, at_, hq c' h'⟩

theorem Traps.le (h : L.Traps p p' c T) (hle : p' ≤ p'') : L.Traps p p'' c T := by
  obtain ⟨n, c', steps, bound, minds, stuck, h'⟩ := h
  exact ⟨n, c', steps, by omega, minds, stuck, h'⟩

/-! ## Instructions without branches -/

end Site

/-- Whether control goes on behind an instruction. -/
def isStraight : Instruction → Bool
  | .ret | .callReg _ | .jump _ | .jumpIf .. => false
  | _ => true

theorem not_isBranch_of_isStraight {i : Instruction} (h : isStraight i = true) :
    isBranch i ≠ true := by
  cases i <;> first | exact Bool.false_ne_true | cases h

/-- The effect of an instruction, without that on the address of the next one. -/
def effect (i : Instruction) (s : State) : Option State := exec s s.pc i

theorem exec_eq_effect {i : Instruction} (h : isStraight i = true) (s : State) (next : Word) :
    exec s next i = (effect i s).map (·.setPc next) := by
  cases i with
  | ret | callReg | jump | jumpIf => cases h
  | store dst src => cases dst <;> rfl
  | movSigned dst value => cases dst <;> rfl
  | div signed src =>
    cases signed with
    | true =>
      show Option.bind (divideSigned _ _ _) _ = (Option.bind (divideSigned _ _ _) _).map _
      cases divideSigned (s.reg 2) (s.reg 0) (s.read 8 src) <;> rfl
    | false =>
      show Option.bind (divideUnsigned _ _ _) _ = (Option.bind (divideUnsigned _ _ _) _).map _
      cases divideUnsigned (s.reg 2) (s.reg 0) (s.read 8 src) <;> rfl
  | _ => rfl

def effects : List Instruction → State → Option State
  | [], s => some s
  | i :: is, s => (effect i s).bind (effects is)

namespace Site

variable {L : Site} {b b' : CodeBuffer} {c : Config} {Q T : Config → Prop}

theorem Covers.leads_instr {i : Instruction} (h : L.Covers b) (sound : L.Sound)
    (w : b.Written b' [.instr i]) (h' : L.Covers b') (hi : isStraight i = true)
    (at_ : L.At b.size c) (permits : L.permits c.state i) {s : State}
    (hs : effect i c.state = some s) :
    L.Leads b.size b'.size c fun c' =>
      c'.entered = c.entered ∧ ∃ pc, c'.state = s.setPc pc := by
  have size : b'.size = b.size + (Item.instr i).size := by
    rw [w.size]
    simp [blanks, Item.size]
  have pos := (Item.instr i).size_pos
  have one := h.step_eq sound w h' at_
  rw [show Item.resolve L.body.labelOffset b.size (.instr i) = i from rfl,
    exec_eq_effect hi, hs] at one
  refine ⟨1, ⟨c.entered, s.setPc (L.address (b.size + (Item.instr i).size))⟩,
    .step (h.minds sound w h' at_ permits fun branch =>
      absurd branch (not_isBranch_of_isStraight hi)) one .refl, by omega, ?_, rfl, _, rfl⟩
  rw [size]
  rfl

theorem Covers.traps_instr {i : Instruction} (h : L.Covers b) (sound : L.Sound)
    (w : b.Written b' [.instr i]) (h' : L.Covers b') (hi : isStraight i = true)
    (at_ : L.At b.size c) (permits : L.permits c.state i) (hs : effect i c.state = none)
    (hT : T c) :
    L.Traps b.size b'.size c T := by
  have one := h.step_eq sound w h' at_
  rw [show Item.resolve L.body.labelOffset b.size (.instr i) = i from rfl,
    exec_eq_effect hi, hs] at one
  have := w.size
  exact ⟨0, c, .refl, by omega, h.minds sound w h' at_ permits fun branch =>
    absurd branch (not_isBranch_of_isStraight hi), one, hT⟩

/-! ## Branches and calls -/

theorem address_distance {label after : Nat}
    (fits : fitsSigned 32 (Item.distance L.body.labelOffset label after) = true) :
    L.address after +
        (BitVec.ofInt 32 (Item.distance L.body.labelOffset label after)).signExtend 64 =
      L.address (L.body.labelOffset label) := by
  have : (BitVec.ofInt 32 (Item.distance L.body.labelOffset label after)).toInt =
      Item.distance L.body.labelOffset label after := beq_iff_eq.1 fits
  rw [BitVec.signExtend, this, Item.distance, address, address, BitVec.add_assoc]
  congr 1
  apply BitVec.eq_of_toInt_eq
  simp only [BitVec.toInt_add, BitVec.toInt_ofInt, BitVec.toInt_ofNat', Int.bmod_add_bmod,
    Int.add_bmod_bmod]
  congr 1
  omega

theorem Covers.leads_jump {label : Nat} (h : L.Covers b) (sound : L.Sound)
    (w : b.Written b' [.jump label]) (h' : L.Covers b') (at_ : L.At b.size c)
    (permits : ∀ d, L.permits c.state (.jump d))
    (ahead : b.size < L.body.labelOffset label) :
    L.Leads b.size (L.body.labelOffset label) c fun c' =>
      c'.entered = c.entered ∧ ∃ pc, c'.state = c.state.setPc pc := by
  have one := h.step_eq sound w h' at_
  obtain ⟨-, fits⟩ := (h.decodeAt sound w h').2.2 ⟨label, b.size + 1⟩ (List.mem_singleton_self _)
  have target := address_distance (L := L) fits
  have length : (Item.jump label).size = 1 + 4 := rfl
  rw [length, ← Nat.add_assoc] at one
  simp only [Item.resolve, exec, target] at one
  exact ⟨1, _, .step (h.minds sound w h' at_ (permits _) fun branch =>
    absurd branch Bool.false_ne_true) one .refl, by omega, rfl, rfl, _,
    rfl⟩

/-- A conditional branch goes to its label if the condition holds and on if not. -/
theorem Covers.goes_jumpIf {cond : Condition} {label : Nat} (h : L.Covers b) (sound : L.Sound)
    (w : b.Written b' [.jumpIf cond label]) (h' : L.Covers b') (at_ : L.At b.size c) :
    ∃ c', step L.host L.code c = .ok c' ∧ c'.entered = c.entered ∧
      (∃ pc, c'.state = c.state.setPc pc) ∧
      (c.state.flags.holds cond = true → L.At (L.body.labelOffset label) c') ∧
      (c.state.flags.holds cond = false → L.At b'.size c') := by
  have one := h.step_eq sound w h' at_
  obtain ⟨-, fits⟩ := (h.decodeAt sound w h').2.2 ⟨label, b.size + 2⟩ (List.mem_singleton_self _)
  have target := address_distance (L := L) fits
  have length : (Item.jumpIf cond label).size = 2 + 4 := rfl
  have size := w.size_singleton
  rw [length, ← Nat.add_assoc] at one
  simp only [Item.resolve, exec, target] at one
  refine ⟨_, one, rfl, ⟨_, rfl⟩, fun holds => ?_, fun holds => ?_⟩
  · rw [holds, if_pos rfl]
    rfl
  · rw [holds, if_neg Bool.false_ne_true, size, length, ← Nat.add_assoc]
    rfl

/-- A conditional branch is minded if it is permitted and as it has to be. -/
theorem Covers.minds_jumpIf {cond : Condition} {label : Nat} (h : L.Covers b) (sound : L.Sound)
    (w : b.Written b' [.jumpIf cond label]) (h' : L.Covers b') (at_ : L.At b.size c)
    (permits : ∀ d, L.permits c.state (.jumpIf cond d)) (watch : L.watch c) : L.Minds c :=
  h.minds sound w h' at_ (permits _) fun _ => watch

/-- At a conditional branch of the body there is one in the code. -/
theorem Covers.decodeAt_branch {offset : Nat} (h : L.Covers b) (sound : L.Sound)
    (branch : b.BranchesAt offset) (at_ : L.At offset c) :
    (∃ i length, X64.decodeAt L.code (c.state.pc - L.host.base).toNat = some (i, length) ∧
      isBranch i = true) ∧ c.state.pc ≠ L.host.stop ∧ L.host.callees c.state.pc = none := by
  obtain ⟨capacity, first, last, its, its', cond, label, before, rfl, w, after⟩ := branch.parts
  have covers : L.Covers last := h.before ⟨capacity, _, before.trans w⟩ after
  obtain ⟨decoded, room, -⟩ := (covers.before ⟨capacity, _, before⟩ w).decodeAt sound w covers
  have pos := (Item.jumpIf cond label).size_pos
  obtain ⟨stop, callee⟩ := sound.clear (L.start + first.size) (by omega)
  have pc : c.state.pc = L.address first.size := at_
  rw [pc, address_sub sound (by omega)]
  exact ⟨⟨_, _, decoded, rfl⟩, stop, callee⟩

theorem Covers.spans (h : L.Covers b) (sound : L.Sound) (w : b.Written b' [it])
    (h' : L.Covers b') : L.host.Spans L.code.size (L.address b'.size) := by
  obtain ⟨-, room, -⟩ := h.decodeAt sound w h'
  have size : b'.size = b.size + it.size := w.size_singleton
  exact ⟨L.start + b'.size, by omega, rfl⟩

/-- A call of outside code that comes back behind the call instruction. -/
theorem Covers.leads_call {r : RegNum} (h : L.Covers b) (sound : L.Sound)
    (w : b.Written b' [.instr (.callReg r)]) (h' : L.Covers b') (at_ : L.At b.size c)
    (permits : L.permits c.state (.callReg r))
    {f : List State → State → State} (hf : L.host.callees (c.state.reg r) = some f)
    (outside : c.state.reg r ≠ L.host.stop) {s : State}
    (hs : s = (c.state.push (L.address b'.size)).setPc (c.state.reg r))
    (back : (f c.entered s).pc = L.address b'.size) :
    L.Leads b.size b'.size c fun c' => c' = ⟨s :: c.entered, f c.entered s⟩ := by
  have size := w.size_singleton
  have one := h.step_eq sound w h' at_
  rw [← size] at one
  simp only [Item.resolve, exec, ← hs] at one
  have pc : s.pc = c.state.reg r := by rw [hs]; rfl
  have two : step L.host L.code ⟨c.entered, s⟩ = .ok ⟨s :: c.entered, f c.entered s⟩ := by
    simp only [step, pc, if_neg outside, hf]
  have length : 0 < (Item.instr (.callReg r)).size := Item.size_pos _
  have outsideCode : L.Minds ⟨c.entered, s⟩ := fun none => by
    rw [pc, hf] at none
    cases none
  have minds : L.Minds c := h.minds sound w h' at_ permits fun branch =>
    absurd branch Bool.false_ne_true
  exact ⟨2, _, .step minds one (.step outsideCode two .refl), by omega, back, rfl⟩

/-! ## At most one instruction -/

theorem Covers.leads_written {is : List Instruction} (h : L.Covers b) (sound : L.Sound)
    (w : b.Written b' (is.map .instr)) (h' : L.Covers b') (length : is.length ≤ 1)
    (straight : ∀ i ∈ is, isStraight i = true) (at_ : L.At b.size c)
    (permits : ∀ i ∈ is, L.permits c.state i) {s : State} (hs : effects is c.state = some s) :
    L.Leads b.size b'.size c fun c' => c'.entered = c.entered ∧ ∃ pc, c'.state = s.setPc pc := by
  cases is with
  | nil =>
    have same : b'.size = b.size := by simpa [blanks] using w.size
    have here : c.state = s := Option.some.inj hs
    rw [same]
    exact .refl at_ ⟨rfl, c.state.pc, by rw [← here]; rfl⟩
  | cons i rest =>
    obtain rfl : rest = [] := List.eq_nil_of_length_eq_zero (by simpa using length)
    have w : b.Written b' [.instr i] := w
    have single : effect i c.state = some s := by
      simpa only [effects, Option.bind_fun_some] using hs
    exact h.leads_instr sound w h' (straight i (List.mem_singleton_self i)) at_
      (permits i (List.mem_singleton_self i)) single

theorem Covers.traps_written {is : List Instruction} (h : L.Covers b) (sound : L.Sound)
    (w : b.Written b' (is.map .instr)) (h' : L.Covers b') (length : is.length ≤ 1)
    (straight : ∀ i ∈ is, isStraight i = true) (at_ : L.At b.size c)
    (permits : ∀ i ∈ is, L.permits c.state i) (hs : effects is c.state = none) (hT : T c) :
    L.Traps b.size b'.size c T := by
  cases is with
  | nil => cases hs
  | cons i rest =>
    obtain rfl : rest = [] := List.eq_nil_of_length_eq_zero (by simpa using length)
    have w : b.Written b' [.instr i] := w
    have single : effect i c.state = none := by
      simpa only [effects, Option.bind_fun_some] using hs
    exact h.traps_instr sound w h' (straight i (List.mem_singleton_self i)) at_
      (permits i (List.mem_singleton_self i)) single hT

/-! ## Runs that end -/

/-- The return takes the address of the next instruction from the stack. -/
theorem Covers.walks_ret (h : L.Covers b) (sound : L.Sound) (w : b.Written b' [.instr .ret])
    (h' : L.Covers b') (at_ : L.At b.size c) (permits : L.permits c.state .ret) :
    L.Walks 1 c ⟨c.entered, c.state.pop.2.setPc c.state.pop.1⟩ :=
  .step (h.minds sound w h' at_ permits fun branch => absurd branch Bool.false_ne_true)
    (h.step_eq sound w h' at_) .refl

theorem Walks.relocate {n : Nat} {c c' : Config} (walk : L.Walks n c c') (start : Nat)
    (body : CodeBuffer) : Walks { L with start, body } n c c' := by
  induction walk with
  | refl => exact .refl
  | step minds first _ ih => exact .step minds first ih

/-- What a part of the code leads to, the whole of it leads to. -/
theorem Leads.embed {start : Nat} {body : CodeBuffer} {p p' : Nat} (whole : L.start = 0)
    (h : Leads { L with start, body } p p' c Q) : L.Leads (start + p) (start + p') c Q := by
  obtain ⟨n, c', walk, bound, at_, hq⟩ := h
  refine ⟨n, c', walk.relocate L.start L.body, by omega, ?_, hq⟩
  rw [At, address, whole, Nat.zero_add]
  exact at_

theorem Traps.embed {start : Nat} {body : CodeBuffer} {p p' : Nat}
    (h : Traps { L with start, body } p p' c T) : L.Traps (start + p) (start + p') c T := by
  obtain ⟨n, c', walk, bound, minds, stuck, ht⟩ := h
  exact ⟨n, c', walk.relocate L.start L.body, by omega, minds, stuck, ht⟩

/-- From a configuration the run goes on to a last one, by permitted instructions only. -/
def Finishes (L : Site) (c c' : Config) (out : Outcome) : Prop :=
  ∃ n ≤ 2 * L.code.size, L.Walks n c c' ∧ (c'.state.pc ≠ L.host.stop → L.Minds c') ∧
    step L.host L.code c' = .error out

variable {c' c₁ : Config} {out : Outcome}

theorem Finishes.run_eq (h : L.Finishes c c' out) :
    run L.host L.code (stepBound L.code) c = (out, c'.entered) := by
  obtain ⟨n, bound, walk, -, last⟩ := h
  have fuel : stepBound L.code = n + ((2 * L.code.size - n + 1) + 1) := by
    rw [stepBound]
    omega
  rw [fuel, walk.steps.run_eq, run, last]

theorem Finishes.returned {s : State} (h : L.Finishes c c' (.returned s)) : s.pc = L.host.stop := by
  obtain ⟨-, -, -, -, last⟩ := h
  unfold step at last
  dsimp only at last
  split at last
  · next stops =>
    cases last
    exact stops
  · split at last
    · cases last
    · split at last
      · cases last
      · split at last <;> cases last

/-- Whatever is reached is on the way to the last configuration. -/
theorem Finishes.reached (h : L.Finishes c c' out) {n : Nat}
    (steps : Steps L.host L.code n c c₁) :
    (c₁.state.pc ≠ L.host.stop → L.Minds c₁) ∧
      ∀ out', step L.host L.code c₁ = .error out' → c₁ = c' := by
  obtain ⟨_, -, walk, minds, last⟩ := h
  induction walk generalizing n c₁ with
  | refl =>
    cases steps with
    | refl => exact ⟨minds, fun _ _ => rfl⟩
    | step first => rw [last] at first; cases first
  | step here next _ ih =>
    cases steps with
    | refl =>
      refine ⟨fun _ => here, fun _ stops => ?_⟩
      rw [next] at stops
      cases stops
    | step first rest =>
      rw [next] at first
      cases first
      exact ih rest minds last

end Site

end NativeExpr.Machine
