import NativeExpr.Proofs.Lowering.Journal
import NativeExpr.Proofs.Lowering.Lockstep

/-!
# Functions in buffers of every capacity

The capacity of the code buffer gates a function and never shapes it. A function that was
generated for one capacity is the same for every capacity that has room for its code, and for any
other the generator asks for more bytes than there are, and for no more than the function has.
-/
namespace NativeExpr

open X64 Buffered

/-! ## Frames -/

instance (n : Nat) : Assembler.Steady fun a => n ≤ a.buffer.size where
  emit := fun a i h _ _ => by
    refine Nat.le_trans h ?_
    rw [Assembler.withInstruction, CodeBuffer.size_append]
    exact Nat.le_add_right ..

/-- A function that was assembled is larger than its body, and is assembled in the same way in
every buffer that has room for it. -/
theorem Frame.assemble_withCapacity {f : Frame} {body : Code} {capacity : Nat}
    {image : FunctionImage} (h : f.assemble body capacity = .ok image) :
    body.bytes.size ≤ image.bytes.size ∧
      (∀ capacity, image.bytes.size ≤ capacity → f.assemble body capacity = .ok image) ∧
      ∀ capacity, capacity < image.bytes.size → ∃ requested,
        f.assemble body capacity = .error (.bufferOverflow requested capacity) ∧
          capacity < requested ∧ requested ≤ image.bytes.size := by
  have raw (a : Assembler) : body.bytes.size ≤ (a.withRaw body.bytes.toList).buffer.size := by
    rw [Assembler.withRaw, CodeBuffer.size_append, Array.length_toList]
    exact Nat.le_add_left ..
  have step := Frame.inStepAt_emitFunction (f := f) (I := fun _ => True) (a := .new capacity)
    (J := fun _ a => body.bytes.size ≤ a.buffer.size) trivial (fun a _ => raw a) (raw _)
  have started (capacity' : Nat) : within (Assembler.new capacity) capacity' = .new capacity' := rfl
  unfold Frame.assemble at h
  split at h
  · cases h
  next prologue a emitted =>
  obtain ⟨t, t', room, ⟨-, u, larger, rfl⟩, rfl, size, fits, full⟩ :=
    step.of_ok capacity emitted
  obtain ⟨code, fin, made⟩ := bind_eq_ok.1 h
  have whole : image.bytes.size = room := by
    cases made
    exact (CodeBuffer.size_finalize
      (b := within (u.withInstruction .ret).buffer capacity) fin).trans
        (size.trans (Nat.zero_max _))
  rw [whole]
  refine ⟨?_, fun capacity' enough => ?_, fun capacity' less => ?_⟩
  · have kept : body.bytes.size ≤ (u.withInstruction .ret).buffer.size :=
      Assembler.Steady.emit (I := fun a => body.bytes.size ≤ a.buffer.size) u .ret larger rfl rfl
    exact Nat.le_trans kept (Nat.le_of_eq (size.trans (Nat.zero_max _)))
  · rw [Frame.assemble, ← started, fits capacity' enough]
    exact h
  · obtain ⟨requested, more, bound, v, -, failed, -⟩ := full capacity' less
    exact ⟨requested, by rw [Frame.assemble, ← started, failed], more, bound⟩

namespace Graph

open Lowering

variable {g : Graph} {root : NodeId} {o : Options} {c : Generated}

/-! ## Whole functions -/

def finish (capacity : Nat) :
    EStateM.Result CompileError Lowering.State Unit → Except CompileError Generated
  | .error e _ => .error e
  | .ok () s => do
    let body ← s.asm.finalize
    let image ← s.finalFrame.assemble body capacity
    return {
      image
      stats := { s.stats with
        registers := s.regs.served
        instructions := s.asm.count
        patched := body.patched } }

theorem generate_eq_finish (inside : root < g.size) :
    g.generate root o = finish o.codeCapacity
      (lowerBody ⟨g, root, o.fuseCompares⟩ (.initial g root o)) := by
  obtain ⟨n, hn⟩ := node?_of_lt inside
  rw [generate, node_eq_ok.2 hn]
  cases lowerBody ⟨g, root, o.fuseCompares⟩ (.initial g root o) <;> rfl

theorem finish_congr {capacity : Nat} {s s' : Lowering.State} (asm : s'.asm = s.asm)
    (regs : s'.regs = s.regs) (frame : s'.frame = s.frame) (stats : s'.stats = s.stats) :
    finish capacity (.ok () s') = finish capacity (.ok () s) := by
  have same : s'.finalFrame = s.finalFrame := by
    rw [State.finalFrame, State.finalFrame, regs, frame]
  rw [finish, finish, asm, same, stats, regs]

/-- A function is generated with the same code, frame and counters for every capacity that has
room for it. With less room there is no function and no other error than a request for more
bytes than the buffer has, at most as many as the function has. -/
theorem generate_withCapacity (generated : g.generate root o = .ok c) (capacity : Nat) :
    (c.image.bytes.size ≤ capacity → g.generate root (o.withCapacity capacity) = .ok c) ∧
      (capacity < c.image.bytes.size → ∃ requested,
        g.generate root (o.withCapacity capacity) = .error (.bufferOverflow requested capacity) ∧
          capacity < requested ∧ requested ≤ c.image.bytes.size) := by
  obtain ⟨s, body, image, lowered, fin, assembled, rfl⟩ := generate_eq_ok generated
  obtain ⟨inside, lowered⟩ := exists_lowering lowered
  obtain ⟨larger, fits₂, full₂⟩ := Frame.assemble_withCapacity assembled
  have generates := generate_eq_finish (o := o.withCapacity capacity) inside
  have step := (inStep_lowerBody (I := fun _ => True) (.refl ⟨g, root, o.fuseCompares⟩) trivial).at_
    (State.initial g root o) (State.initial g root o) (.refl trivial)
  obtain ⟨t, t', room, -, rfl, size, fits, full⟩ := step.of_ok o.codeCapacity lowered
  have room_le : room ≤ image.bytes.size := by
    refine Nat.le_trans (Nat.le_of_eq ?_) larger
    rw [CodeBuffer.size_finalize fin]
    exact ((Nat.zero_max room).symm.trans size.symm)
  -- in a buffer with room for the body the frame decides
  have body_fits (enough : room ≤ capacity) : g.generate root (o.withCapacity capacity) =
      finish capacity (.ok () (within t capacity)) :=
    generates.trans (congrArg (finish capacity) (fits capacity enough))
  have finalized : (within t capacity).asm.finalize = .ok body := fin
  refine ⟨fun enough => ?_, fun less => ?_⟩
  · rw [body_fits (Nat.le_trans room_le enough)]
    exact bind_eq_ok.2 ⟨body, finalized, bind_eq_ok.2 ⟨image, fits₂ capacity enough, rfl⟩⟩
  · rcases Nat.lt_or_ge capacity room with less' | enough
    · obtain ⟨requested, more, bound, u, -, failed, -⟩ := full capacity less'
      refine ⟨requested, ?_, more, Nat.le_trans bound room_le⟩
      exact generates.trans (congrArg (finish capacity) failed)
    · obtain ⟨requested, failed, more, bound⟩ := full₂ capacity less
      refine ⟨requested, ?_, more, bound⟩
      rw [body_fits enough]
      exact bind_eq_error.2 (.inr ⟨body, finalized, bind_eq_error.2 (.inl failed)⟩)

theorem generate_withCapacity_distance : ∃ c, distance.generate 5 .default = .ok c ∧
    (∀ capacity, c.image.bytes.size ≤ capacity →
      distance.generate 5 (Options.default.withCapacity capacity) = .ok c) ∧
    ∀ capacity, capacity < c.image.bytes.size →
      ∃ requested, distance.generate 5 (Options.default.withCapacity capacity) =
        .error (.bufferOverflow requested capacity) := by
  obtain ⟨c, hc⟩ := exists_generate_distance
  refine ⟨c, hc, fun capacity => (generate_withCapacity hc capacity).1, fun capacity less => ?_⟩
  obtain ⟨requested, failed, -⟩ := (generate_withCapacity hc capacity).2 less
  exact ⟨requested, failed⟩

end Graph

end NativeExpr
