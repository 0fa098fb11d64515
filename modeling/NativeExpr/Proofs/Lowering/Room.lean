import NativeExpr.Proofs.Lowering.Lockstep

/-!
# Room for the code of a function

In buffers that are large enough a function is lowered in one way and a frame is put around
its body in one way, and no label is bound outside the code.
-/
namespace NativeExpr

open X64 Buffered

/-- Whether labels are bound to offsets in the code. -/
def X64.CodeBuffer.Anchored (b : CodeBuffer) : Prop :=
  ∀ label t, b.offset? label = some t → t ≤ b.size

variable {σ α : Type} [Buffered σ]

/-- Whether a computation ended because code did not fit. -/
def Overflows (r : EStateM.Result CompileError σ α) : Prop :=
  ∃ e s, r = .error e s ∧ e.IsOverflow

/-- How a computation started in `s` goes in every buffer, unless code does not fit, which
takes a buffer with less than some room. -/
inductive Settled (m : EStateM CompileError σ α) (s : σ) : Prop
  | ok (x : α) (s' : σ) (room : Nat) (anchored : (buffer s').Anchored)
      (runs : ∀ capacity, m (within s capacity) = .ok x (within s' capacity) ∨
        capacity < room ∧ Overflows (m (within s capacity)))
  | error (e : CompileError) (s' : σ) (room : Nat) (cause : ¬ e.IsOverflow)
      (runs : ∀ capacity, m (within s capacity) = .error e (within s' capacity) ∨
        capacity < room ∧ Overflows (m (within s capacity)))

theorem Settled.exists_room {m : EStateM CompileError σ α} {s : σ} (h : Settled m s) :
    ∃ room, (∃ x s', ∀ capacity, room ≤ capacity →
        m (within s capacity) = .ok x (within s' capacity)) ∨
      ∃ e s', ¬ e.IsOverflow ∧ ∀ capacity, room ≤ capacity →
        m (within s capacity) = .error e (within s' capacity) := by
  rcases h with ⟨x, s', room, -, runs⟩ | ⟨e, s', room, cause, runs⟩
  · exact ⟨room, .inl ⟨x, s', fun capacity enough =>
      (runs capacity).resolve_right fun full => Nat.not_lt.2 enough full.1⟩⟩
  · exact ⟨room, .inr ⟨e, s', cause, fun capacity enough =>
      (runs capacity).resolve_right fun full => Nat.not_lt.2 enough full.1⟩⟩

/-- Whether a computation is settled wherever it starts. -/
structure Settles (m : EStateM CompileError σ α) : Prop where
  settled : ∀ s, (buffer s).Anchored → Settled m s

theorem InStepAt.settled {m : EStateM CompileError σ α} {s : σ} {post : α → σ → σ → Prop}
    (h : InStepAt post m m s s) (anchored : ∀ x t t', post x t t' → (buffer t).Anchored) :
    Settled m s := by
  have overflows {capacity room : Nat} (less : capacity < room)
      (full : ∀ capacity, capacity < room →
        Overflow capacity room (m (within s capacity)) (m (within s capacity))) :
      capacity < room ∧ Overflows (m (within s capacity)) := by
    obtain ⟨requested, -, -, u, -, h, -⟩ := full capacity less
    exact ⟨less, _, u, h, trivial⟩
  cases h with
  | ok x t t' room holds size fits full =>
    refine .ok x t room (anchored x t t' holds) fun capacity => ?_
    rcases Nat.lt_or_ge capacity room with less | enough
    · exact .inr (overflows less full)
    · exact .inl (fits capacity enough).1
  | error e t t' room cause fits full =>
    refine .error e t room cause fun capacity => ?_
    rcases Nat.lt_or_ge capacity room with less | enough
    · exact .inr (overflows less full)
    · exact .inl (fits capacity enough).1

namespace X64.Assembler

theorem anchored_append {b : CodeBuffer} (h : b.Anchored) (bytes : List Byte) :
    (b.append bytes).Anchored := fun label t ht => by
  rw [CodeBuffer.size_append]
  exact Nat.le_trans (h label t ht) (Nat.le_add_right ..)

instance : Invariant fun a => a.buffer.Anchored where
  emit := fun _ _ h _ _ => anchored_append h _
  jump := fun _ _ h => anchored_append h _
  jumpIf := fun _ _ _ h => anchored_append h _
  create := fun a h label t ht => by
    refine h label t ?_
    simp only [withLabel, CodeBuffer.offset?, Array.getElem?_push] at ht ⊢
    split at ht
    · cases ht
    · exact ht
  bind := fun a label h known _ other t ht => by
    simp only [withBound, CodeBuffer.offset?, Array.getElem?_setIfInBounds, if_pos known] at ht
    split at ht
    · cases ht
      exact Nat.le_refl _
    · exact h other t ht

end X64.Assembler

theorem Lowering.settles_lowerBody {ctx : Context} : Settles (lowerBody ctx) :=
  ⟨fun s anchored => ((inStep_lowerBody (I := fun a => a.buffer.Anchored) (.refl ctx) trivial).at_
    s s (.refl anchored)).settled fun _ _ _ kept => kept.1.assembled⟩

theorem Frame.settles_emitFunction {f : Frame} (body : Array Byte) :
    Settles (f.emitFunction body) :=
  ⟨fun _ anchored => (inStepAt_emitFunction (I := fun a => a.buffer.Anchored)
    (J := fun _ a => a.buffer.Anchored) anchored
    (fun _ h => X64.Assembler.anchored_append h _)
    (X64.Assembler.anchored_append anchored _)).settled fun _ _ _ ⟨_, _, h, last⟩ =>
      last ▸ X64.Assembler.anchored_append h _⟩

end NativeExpr
