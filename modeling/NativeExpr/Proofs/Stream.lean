import NativeExpr.Proofs.Capacity
import NativeExpr.Proofs.Listing
import NativeExpr.Proofs.Safety

/-!
# The instructions of a function

The code of a function is a sequence of whole instructions: those of the prologue, those of the
body, as many as were counted, and those of the epilogue. Every branch is one of the body and leads
to the first byte of an instruction of the body, or to the first byte behind the body.
-/
namespace NativeExpr

open X64 Buffered

namespace X64

variable {target : Nat → Nat} {offset place : Nat} {its its' : List Item} {is : List Instruction}
variable {i : Instruction}

/-! ## Resolved items -/

theorem encodeAll_resolveAll : encodeAll (resolveAll target offset its) =
    resolved target offset its := by
  rw [resolved_eq, blanks_instrs]

theorem length_resolveAll : (resolveAll target offset its).length = its.length := by
  induction its generalizing offset with
  | nil => rfl
  | cons it its ih => rw [resolveAll, List.length_cons, ih, List.length_cons]

theorem resolveAll_append : resolveAll target offset (its ++ its') =
    resolveAll target offset its ++ resolveAll target (offset + (blanks its).length) its' := by
  induction its generalizing offset with
  | nil => rfl
  | cons it its ih =>
    rw [List.cons_append, resolveAll, resolveAll, ih, List.cons_append, blanks_cons,
      List.length_append, Nat.add_assoc, Item.size]

/-- A branch of resolved code is one that was pending, with the distance to its label. -/
theorem exists_patch (straight : ∀ i, .instr i ∈ its → i.displacement? = none)
    (h : (place, i) ∈ placed offset (resolveAll target offset its)) {d : BitVec 32}
    (branch : i.displacement? = some d) :
    ∃ p ∈ patchesFrom offset its, p.field + 4 = place + i.encode.length ∧
      d = BitVec.ofInt 32 (Item.distance target p.label (p.field + 4)) := by
  induction its generalizing offset with
  | nil => cases h
  | cons it its ih =>
    rw [resolveAll, placed, Item.length_resolve] at h
    rcases List.mem_cons.1 h with here | later
    · cases here
      have size : (it.resolve target place).encode.length = it.size := Item.length_resolve it
      cases it with
      | instr i => cases (straight i (List.mem_cons_self ..)).symm.trans branch
      | jump label =>
        cases branch
        exact ⟨⟨label, place + 1⟩, List.mem_cons_self .., congrArg (place + ·) size.symm, rfl⟩
      | jumpIf c label =>
        cases branch
        exact ⟨⟨label, place + 2⟩, List.mem_cons_self .., congrArg (place + ·) size.symm, rfl⟩
    · obtain ⟨p, hp, rest⟩ := ih (fun i hi => straight i (List.mem_cons_of_mem _ hi)) later
      exact ⟨p, List.mem_append_right _ hp, rest⟩

/-! ## Boundaries -/

/-- An offset at which an item starts, or all items end. -/
def Boundary (its : List Item) (offset : Nat) : Prop :=
  ∃ before after, its = before ++ after ∧ offset = (blanks before).length

theorem boundary_end (its : List Item) : Boundary its (blanks its).length :=
  ⟨its, [], (List.append_nil its).symm, rfl⟩

theorem Boundary.append (h : Boundary its offset) (its' : List Item) :
    Boundary (its ++ its') offset := by
  obtain ⟨before, after, rfl, at_⟩ := h
  exact ⟨before, after ++ its', List.append_assoc .., at_⟩

/-- At a boundary stands an instruction, of the resolved items or the next one. -/
theorem Boundary.exists_placed (h : Boundary its place) (target : Nat → Nat) (offset : Nat)
    (more : is ≠ []) :
    ∃ j, (offset + place, j) ∈ placed offset (resolveAll target offset its ++ is.take 1) := by
  obtain ⟨before, after, rfl, rfl⟩ := h
  rw [resolveAll_append, List.append_assoc, placed_append, encodeAll_resolveAll, length_resolved]
  cases after with
  | nil =>
    obtain ⟨j, is, rfl⟩ := List.exists_cons_of_ne_nil more
    exact ⟨j, List.mem_append_right _ (List.mem_cons_self ..)⟩
  | cons it after => exact ⟨_, List.mem_append_right _ (List.mem_cons_self ..)⟩

/-- Branches at some places lead to other places. -/
def Lands (sources targets : List (Nat × Instruction)) : Prop :=
  ∀ place i d, (place, i) ∈ sources → i.displacement? = some d →
    ∃ target j, (target, j) ∈ targets ∧ (target : Int) = place + i.encode.length + d.toInt

theorem Lands.shift {is' : List Instruction} (h : Lands (placed 0 is) (placed 0 is')) (base : Nat) :
    Lands (placed base is) (placed base is') := by
  intro place i d at_ branch
  rw [placed_eq base, List.mem_map] at at_
  obtain ⟨⟨place, i⟩, at_, same⟩ := at_
  cases same
  obtain ⟨target, j, stands, reached⟩ := h place i d at_ branch
  refine ⟨base + target, j, ?_, by omega⟩
  rw [placed_eq base]
  exact List.mem_map_of_mem stands

namespace Assembler

variable {a : Assembler} {body : List Instruction}

/-! ## Code with branches -/

/-- An assembler whose code is a sequence of items, each counted, with all labels that are bound
at boundaries. -/
structure Orderly (a : Assembler) (its : List Item) : Prop where
  residue : a.residue = []
  written : ∃ capacity, (CodeBuffer.new capacity).Written a.buffer its
  count : a.count = its.length
  straight : ∀ i, .instr i ∈ its → i.displacement? = none
  bound : ∀ label t, a.buffer.offset? label = some t → Boundary its t

theorem orderly_new (capacity : Nat) : (new capacity).Orderly [] where
  residue := rfl
  written := ⟨capacity, .refl⟩
  count := rfl
  straight := fun _ h => absurd h List.not_mem_nil
  bound := fun label t h => by
    rw [CodeBuffer.offset?, new, CodeBuffer.new, Array.getElem?_empty] at h
    cases h

theorem Orderly.within (h : a.Orderly its) (capacity : Nat) : (within a capacity).Orderly its where
  residue := h.residue
  written := by
    obtain ⟨_, w⟩ := h.written
    exact ⟨capacity, w.bytes, w.pending, rfl, w.valid, w.labels, w.kept⟩
  count := h.count
  straight := h.straight
  bound := h.bound

theorem Orderly.size (h : a.Orderly its) : a.buffer.size = (blanks its).length := by
  obtain ⟨_, w⟩ := h.written
  exact w.size.trans (Nat.zero_add _)

theorem written_withInstruction (residue : a.residue = []) (valid : i.refused? = none) :
    a.buffer.Written (a.withInstruction i).buffer [.instr i] := by
  rw [withInstruction, residue]
  exact CodeBuffer.Written.item (show (Item.instr i).Valid from valid) rfl

theorem Orderly.item {a' : Assembler} {it : Item} (h : a.Orderly its)
    (w : a.buffer.Written a'.buffer [it]) (same : ∀ l, a'.buffer.offset? l = a.buffer.offset? l)
    (residue : a'.residue = []) (count : a'.count = a.count + 1)
    (straight : ∀ i, .instr i = it → i.displacement? = none) : a'.Orderly (its ++ [it]) where
  residue := residue
  written := by
    obtain ⟨capacity, before⟩ := h.written
    exact ⟨capacity, before.trans w⟩
  count := by rw [count, h.count, List.length_append, List.length_singleton]
  straight := fun i hi => by
    rcases List.mem_append.1 hi with hi | hi
    · exact h.straight i hi
    · exact straight i (List.mem_singleton.1 hi)
  bound := fun label t ht => (h.bound label t ((same label).symm.trans ht)).append _

instance : Invariant fun a => ∃ its, a.Orderly its where
  emit := fun _ i ⟨its, h⟩ valid straight => by
    refine ⟨its ++ [.instr i], h.item (written_withInstruction h.residue valid) (fun _ => rfl) rfl
      rfl fun _ same => ?_⟩
    cases same
    exact straight
  jump := fun a label ⟨its, h⟩ =>
    have w : a.buffer.Written (a.withBranch [0xE9] label).buffer [.jump label] :=
      .branch trivial rfl rfl
    ⟨its ++ [.jump label], h.item w (fun _ => rfl) h.residue rfl fun _ same => by cases same⟩
  jumpIf := fun a cond label ⟨its, h⟩ =>
    have w : a.buffer.Written (a.withBranch _ label).buffer [.jumpIf cond label] :=
      .branch trivial rfl rfl
    ⟨its ++ [.jumpIf cond label], h.item w (fun _ => rfl) h.residue rfl fun _ same => by cases same⟩
  create := fun a ⟨its, h⟩ => by
    obtain ⟨capacity, w⟩ := h.written
    refine ⟨its, h.residue, ⟨capacity, ?_⟩, h.count, h.straight, fun label t ht => ?_⟩
    · exact List.append_nil its ▸ w.trans .create
    · exact h.bound label t ((CodeBuffer.offset?_push a.buffer label).symm.trans ht)
  bind := fun a label ⟨its, h⟩ known free => by
    obtain ⟨capacity, w⟩ := h.written
    have free : a.buffer.offset? label = none := by simpa [CodeBuffer.isBound] using free
    refine ⟨its, h.residue, ⟨capacity, ?_⟩, h.count, h.straight, fun other t ht => ?_⟩
    · exact List.append_nil its ▸ w.trans (.bindLabel known free _)
    · rw [withBound, CodeBuffer.offset?_set a.buffer known] at ht
      split at ht
      · cases ht
        exact h.size ▸ boundary_end its
      · exact h.bound other t ht

theorem Orderly.finalize (h : a.Orderly its) {code : Code} (fin : a.finalize = .ok code) :
    ∃ is, code.bytes.toList = encodeAll is ∧ is.length = a.count ∧ (∀ i ∈ is, i.refused? = none) ∧
      ∀ next, next ≠ [] → Lands (placed 0 is) (placed 0 (is ++ next.take 1)) := by
  obtain ⟨capacity, w⟩ := h.written
  obtain ⟨bytes, -, near⟩ := CodeBuffer.Written.finalize .refl w fin
  refine ⟨resolveAll a.buffer.labelOffset 0 its, bytes.trans encodeAll_resolveAll.symm,
    length_resolveAll.trans h.count.symm, refused_resolveAll w.valid, ?_⟩
  intro next more place i d at_ branch
  obtain ⟨p, pending, after, rfl⟩ := exists_patch h.straight at_ branch
  obtain ⟨bound, fits⟩ := near p pending
  obtain ⟨j, stands⟩ := (h.bound _ _ bound).exists_placed a.buffer.labelOffset 0 more
  refine ⟨_, j, Nat.zero_add _ ▸ stands, ?_⟩
  rw [eq_of_beq fits, Item.distance, after]
  omega

/-! ## Code without branches -/

/-- An assembler whose code is a sequence of instructions. -/
structure Holds (a : Assembler) (is : List Instruction) : Prop where
  residue : a.residue = []
  written : ∃ capacity, (CodeBuffer.new capacity).Written a.buffer (is.map .instr)

theorem holds_new (capacity : Nat) : (new capacity).Holds [] := ⟨rfl, capacity, .refl⟩

namespace Holds

variable (h : a.Holds is)
include h

theorem within (capacity : Nat) : (within a capacity).Holds is := by
  obtain ⟨_, w⟩ := h.written
  exact ⟨h.residue, capacity, w.bytes, w.pending, rfl, w.valid, w.labels, w.kept⟩

theorem withInstruction (valid : i.refused? = none) : (a.withInstruction i).Holds (is ++ [i]) := by
  obtain ⟨capacity, w⟩ := h.written
  refine ⟨rfl, capacity, ?_⟩
  rw [List.map_append]
  exact w.trans (written_withInstruction h.residue valid)

theorem withRaw (valid : ∀ i ∈ body, i.refused? = none) :
    (a.withRaw (encodeAll body)).Holds (is ++ body) := by
  obtain ⟨capacity, w⟩ := h.written
  refine ⟨h.residue, capacity, ?_⟩
  rw [List.map_append, Assembler.withRaw, ← blanks_instrs]
  refine w.trans (.append (fun it hit => ?_) (patchesFrom_instrs _ _))
  obtain ⟨i, hi, rfl⟩ := List.mem_map.1 hit
  exact valid i hi

theorem bytes : a.buffer.bytes.toList = encodeAll is := by
  obtain ⟨_, w⟩ := h.written
  exact w.bytes.trans (blanks_instrs is)

theorem size : a.size = (encodeAll is).length := by
  rw [← h.bytes, Array.length_toList]
  rfl

theorem valid : ∀ i ∈ is, i.refused? = none := fun i hi => by
  obtain ⟨_, w⟩ := h.written
  exact w.valid (.instr i) (List.mem_map_of_mem hi)

theorem finalize : a.finalize = .ok ⟨a.buffer.bytes, 0⟩ := by
  obtain ⟨_, w⟩ := h.written
  exact CodeBuffer.finalize_of_instrs w

end Holds

/-- Code so far without a branch. -/
def Entering (a : Assembler) : Prop :=
  ∃ entering, a.Holds entering ∧ ∀ i ∈ entering, i.displacement? = none

def Around (body : List Instruction) (start : Nat) (a : Assembler) : Prop :=
  ∃ entering leaving, a.Holds (entering ++ body ++ leaving) ∧
    (encodeAll entering).length = start ∧ ∀ i ∈ entering ++ leaving, i.displacement? = none

instance : Steady Entering where
  emit := fun _ i ⟨entering, h, plain⟩ valid straight => by
    refine ⟨entering ++ [i], h.withInstruction valid, fun j hj => ?_⟩
    rcases List.mem_append.1 hj with hj | hj
    · exact plain j hj
    · exact List.mem_singleton.1 hj ▸ straight

instance (body : List Instruction) (start : Nat) : Steady (Around body start) where
  emit := fun _ i ⟨entering, leaving, h, size, plain⟩ valid straight => by
    refine ⟨entering, leaving ++ [i], ?_, size, fun j hj => ?_⟩
    · rw [← List.append_assoc]
      exact h.withInstruction valid
    · rw [← List.append_assoc] at hj
      rcases List.mem_append.1 hj with hj | hj
      · exact plain j hj
      · exact List.mem_singleton.1 hj ▸ straight

theorem around_withRaw (h : a.Entering) (valid : ∀ i ∈ body, i.refused? = none) :
    Around body a.size (a.withRaw (encodeAll body)) := by
  obtain ⟨entering, h, plain⟩ := h
  refine ⟨entering, [], ?_, h.size.symm, by rwa [List.append_nil]⟩
  rw [List.append_nil]
  exact h.withRaw valid

end Assembler

end X64

theorem Frame.exists_parts {f : Frame} {body : Code} {capacity : Nat} {image : FunctionImage}
    {is : List Instruction} (valid : ∀ i ∈ is, i.refused? = none)
    (hb : body.bytes.toList = encodeAll is) (h : f.assemble body capacity = .ok image) :
    ∃ entering leaving, image.bytes.toList = encodeAll (entering ++ is ++ (leaving ++ [.ret])) ∧
      (encodeAll entering).length = image.prologueSize ∧
      (∀ i ∈ entering ++ is ++ (leaving ++ [.ret]), i.refused? = none) ∧
      ∀ i ∈ entering ++ leaving, i.displacement? = none := by
  have bare : (Assembler.new capacity).Entering :=
    ⟨[], Assembler.holds_new capacity, fun _ h => absurd h List.not_mem_nil⟩
  have raw (a : Assembler) (ha : a.Entering) :
      Assembler.Around is a.size (a.withRaw body.bytes.toList) :=
    hb ▸ Assembler.around_withRaw ha valid
  have step := Frame.inStepAt_emitFunction (f := f) (J := Assembler.Around is) bare raw (raw _ bare)
  unfold assemble at h
  split at h
  · cases h
  next prologue a emitted =>
  obtain ⟨_, _, _, ⟨-, u, ⟨entering, leaving, holds, size, plain⟩, rfl⟩, rfl, -⟩ :=
    step.of_ok capacity emitted
  have whole := (holds.withInstruction (i := .ret) rfl).within capacity
  rw [whole.finalize] at h
  cases h
  rw [List.append_assoc (entering ++ is)] at whole
  exact ⟨entering, leaving, whole.bytes, size, whole.valid, plain⟩

/-- A property of the assembler that all code keeps holds after lowering. -/
theorem Lowering.invariant_lowerBody {I : Assembler → Prop} [Assembler.Invariant I]
    (blind : ∀ a capacity, I a → I (within a capacity)) {ctx : Context} {s t : State}
    (start : I s.asm) (lowered : lowerBody ctx s = .ok () t) : I t.asm := by
  have step := (inStep_lowerBody (I := I) (.refl ctx) trivial).at_ s s (.refl start)
  obtain ⟨u, _, _, ⟨twin, -⟩, rfl, -⟩ := step.of_ok s.asm.buffer.capacity lowered
  exact blind _ _ twin.assembled

/-! ## Whole functions -/

/-- The instructions of a function. -/
structure CodeParts where
  prologue : List Instruction
  body : List Instruction
  epilogue : List Instruction

def CodeParts.all (p : CodeParts) : List Instruction := p.prologue ++ p.body ++ p.epilogue

/-- The code of a generated function falls into these instructions. -/
structure Generated.Consists (c : Generated) (p : CodeParts) : Prop where
  bytes : c.image.bytes.toList = encodeAll p.all
  start : (encodeAll p.prologue).length = c.image.prologueSize
  counted : p.body.length = c.stats.instructions
  returns : p.epilogue.getLast? = some .ret
  /-- Branches lead to instructions of the body or to the first one of the epilogue. -/
  lands : Lands (placed 0 p.all) (placed c.image.prologueSize (p.body ++ p.epilogue.take 1))

namespace Graph

variable {g : Graph} {root : NodeId} {o : Options} {c : Generated}

/-- Generated code is a sequence of instructions that the reader finds again one by one, in the
function, in its body alone, and in a listing at every address that leaves room for it. -/
theorem generate_consists (generated : g.generate root o = .ok c) :
    ∃ s code parts, g.lowering root o = some (.ok () s) ∧ s.asm.finalize = .ok code ∧
      c.Consists parts ∧
      instructions c.image.bytes =
        (placed 0 parts.all).map (fun (place, i) => (some i, place, i.encode.length)) ∧
      c.image.bytes.extract c.image.prologueSize (c.image.prologueSize + code.bytes.size) =
        code.bytes ∧
      instructions code.bytes =
        (placed 0 parts.body).map (fun (place, i) => (some i, place, i.encode.length)) ∧
      ∀ address : Word, address.toNat + c.image.bytes.size < 2 ^ 64 →
        listingLines c.image.bytes address =
          (placed address.toNat parts.all).map fun (start, i) => listingLine start i.encode
            (Text.instruction (BitVec.ofNat 64 (start + i.encode.length)) i) := by
  obtain ⟨s, code, image, lowered, fin, assembled, rfl⟩ := generate_eq_ok generated
  obtain ⟨inside, run⟩ := exists_lowering lowered
  obtain ⟨its, orderly⟩ := Lowering.invariant_lowerBody (I := fun a => ∃ its, a.Orderly its)
    (fun _ capacity ⟨its, h⟩ => ⟨its, h.within capacity⟩)
    ⟨[], Assembler.orderly_new o.codeCapacity⟩ run
  obtain ⟨body, bytes, count, valid, lands⟩ := orderly.finalize fin
  obtain ⟨entering, leaving, whole, start, all, plain⟩ := Frame.exists_parts valid bytes assembled
  refine ⟨s, code, ⟨entering, body, leaving ++ [Instruction.ret]⟩, lowered, fin,
    ⟨whole, start, count, List.getLast?_concat, ?_⟩, instructions_eq whole all, ?_,
    instructions_eq bytes valid, fun address below => listingLines_eq whole all below⟩
  · intro place i d at_ branch
    have outside (h : i ∈ entering ++ leaving) : False := by
      cases (plain i h).symm.trans branch
    rw [CodeParts.all, placed_append, placed_append, start, Nat.zero_add] at at_
    rcases List.mem_append.1 at_ with at_ | at_
    · rcases List.mem_append.1 at_ with at_ | at_
      · exact (outside (List.mem_append_left _ (mem_of_mem_placed at_))).elim
      · exact (lands _ (by simp)).shift _ place i d at_ branch
    · rcases List.mem_append.1 (mem_of_mem_placed at_) with h | h
      · exact (outside (List.mem_append_right _ h)).elim
      · cases List.mem_singleton.1 h
        cases branch
  · apply Array.toList_inj.1
    rw [Array.toList_extract, List.extract_eq_take_drop, whole, encodeAll_append, encodeAll_append,
      Nat.add_sub_cancel_left, List.append_assoc, List.drop_left' start, ← bytes,
      List.take_left' (Array.length_toList ..)]

theorem generate_consists_distance : ∃ c s code parts, distance.generate 5 .default = .ok c ∧
    distance.lowering 5 .default = some (.ok () s) ∧ s.asm.finalize = .ok code ∧
    c.Consists parts ∧
    listingLines c.image.bytes Machine.codeBase =
      (placed Machine.codeBase.toNat parts.all).map fun (start, i) => listingLine start i.encode
        (Text.instruction (BitVec.ofNat 64 (start + i.encode.length)) i) := by
  obtain ⟨c, hc, -, small⟩ :=
    exists_of_isSmall (show distance.isSmall 5 .default = true by decide +kernel)
  obtain ⟨s, code, parts, lowered, fin, consists, -, -, -, listing⟩ := generate_consists hc
  refine ⟨c, s, code, parts, hc, lowered, fin, consists, listing _ ?_⟩
  exact Nat.lt_of_le_of_lt (Nat.add_le_add_left small _) (by decide)

end Graph

end NativeExpr
