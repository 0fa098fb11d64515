import NativeExpr.Lowering.State
import NativeExpr.Proofs.Effects

/-!
# Computations in step

The capacity of a code buffer decides nothing but whether code still fits. So two
computations that append the same code go the same way in all buffers that have room for
it, and fail at the same byte in all others. `InStep R P m m'` says this of computations that start
in states related by `R`, for results with the property `P`; its rules follow the ways a
computation is built.
-/
namespace NativeExpr

open X64

/-- States that hold a code buffer. -/
class Buffered (σ : Type) where
  buffer : σ → CodeBuffer
  /-- The state with a buffer of another capacity. -/
  within : σ → Nat → σ

open Buffered

instance : Buffered CodeBuffer where
  buffer b := b
  within b capacity := { b with capacity }

instance : Buffered Assembler where
  buffer a := a.buffer
  within a capacity := { a with buffer := within a.buffer capacity }

instance : Buffered Lowering.State where
  buffer s := s.asm.buffer
  within s capacity := { s with asm := within s.asm capacity }

variable {σ α β : Type}

/-- Two computations fail as code does not fit that needs no more than some room. -/
def Overflow (capacity room : Nat) (r r' : EStateM.Result CompileError σ α) : Prop :=
  ∃ requested, capacity < requested ∧ requested ≤ room ∧
    ∃ s s', r = .error (.bufferOverflow requested capacity) s ∧
      r' = .error (.bufferOverflow requested capacity) s'

variable [Buffered σ]

/-- How two computations started in `s` and `s'` go in every buffer. There is a room they need;
with less of it both overflow, and with enough of it both give one result or one error. -/
inductive InStepAt (post : α → σ → σ → Prop) (m m' : EStateM CompileError σ α) (s s' : σ) : Prop
  | ok (x : α) (t t' : σ) (room : Nat) (holds : post x t t')
      (size : (buffer t).size = max (buffer s).size room)
      (fits : ∀ capacity, room ≤ capacity → m (within s capacity) = .ok x (within t capacity) ∧
        m' (within s' capacity) = .ok x (within t' capacity))
      (full : ∀ capacity, capacity < room →
        Overflow capacity room (m (within s capacity)) (m' (within s' capacity)))
  | error (e : CompileError) (t t' : σ) (room : Nat) (cause : ¬ e.IsOverflow)
      (fits : ∀ capacity, room ≤ capacity → m (within s capacity) = .error e (within t capacity) ∧
        m' (within s' capacity) = .error e (within t' capacity))
      (full : ∀ capacity, capacity < room →
        Overflow capacity room (m (within s capacity)) (m' (within s' capacity)))

/-- A computation followed by another in a buffer of some capacity. -/
theorem bind_within (m : EStateM CompileError σ α) (f : α → EStateM CompileError σ β) (s : σ)
    (capacity : Nat) : (m >>= f) (within s capacity) =
      match m (within s capacity) with
      | .ok x t => f x t
      | .error e t => .error e t := by
  show EStateM.bind m f _ = _
  unfold EStateM.bind
  cases m (within s capacity) <;> rfl

namespace InStepAt

variable {m m' : EStateM CompileError σ α} {f f' : α → EStateM CompileError σ β} {s s' t t' : σ}
variable {post : α → σ → σ → Prop} {Q : β → σ → σ → Prop}

theorem of_pure {x : α} (h : post x s s') :
    InStepAt post (pure x : EStateM CompileError σ α) (pure x) s s' :=
  .ok x s s' 0 h (Nat.max_zero _).symm (fun _ _ => ⟨rfl, rfl⟩)
    fun _ h => absurd h (Nat.not_lt_zero _)

theorem of_throw {e : CompileError} (cause : ¬ e.IsOverflow) :
    InStepAt post (throw e : EStateM CompileError σ α) (throw e) s s' :=
  .error e s s' 0 cause (fun _ _ => ⟨rfl, rfl⟩) fun _ h => absurd h (Nat.not_lt_zero _)

theorem outcome (h : InStepAt post m m' s s') (capacity : Nat) :
    (∃ x t t', post x t t' ∧ m (within s capacity) = .ok x (within t capacity) ∧
        m' (within s' capacity) = .ok x (within t' capacity)) ∨
      ∃ e t t', m (within s capacity) = .error e t ∧ m' (within s' capacity) = .error e t' := by
  cases h with
  | ok x t t' room holds size fits full =>
    rcases Nat.lt_or_ge capacity room with less | enough
    · obtain ⟨requested, -, -, u, u', failed, failed'⟩ := full capacity less
      exact .inr ⟨_, u, u', failed, failed'⟩
    · exact .inl ⟨x, t, t', holds, fits capacity enough⟩
  | error e t t' room cause fits full =>
    rcases Nat.lt_or_ge capacity room with less | enough
    · obtain ⟨requested, -, -, u, u', failed, failed'⟩ := full capacity less
      exact .inr ⟨_, u, u', failed, failed'⟩
    · exact .inr ⟨e, _, _, fits capacity enough⟩

/-- A computation that gives a result in one buffer needs some room and gives the result in every
buffer that has it. -/
theorem of_ok (h : InStepAt post m m' s s') (capacity : Nat) {x : α} {t : σ}
    (run : m (within s capacity) = .ok x t) :
    ∃ u u' room, post x u u' ∧ t = within u capacity ∧
      (buffer u).size = max (buffer s).size room ∧
      (∀ capacity, room ≤ capacity → m (within s capacity) = .ok x (within u capacity)) ∧
      ∀ capacity, capacity < room →
        Overflow capacity room (m (within s capacity)) (m' (within s' capacity)) := by
  cases h with
  | ok y u u' room holds size fits full =>
    rcases Nat.lt_or_ge capacity room with less | enough
    · obtain ⟨requested, -, -, v, v', failed, -⟩ := full capacity less
      cases run.symm.trans failed
    · cases run.symm.trans (fits capacity enough).1
      exact ⟨u, u', room, holds, rfl, size, fun capacity h => (fits capacity h).1, full⟩
  | error e u u' room cause fits full =>
    rcases Nat.lt_or_ge capacity room with less | enough
    · obtain ⟨requested, -, -, v, v', failed, -⟩ := full capacity less
      cases run.symm.trans failed
    · cases run.symm.trans (fits capacity enough).1

theorem overflow_bind {capacity room : Nat}
    (h : Overflow capacity room (m (within s capacity)) (m' (within s' capacity))) {room' : Nat}
    (le : room ≤ room') : Overflow capacity room' ((m >>= f) (within s capacity))
      ((m' >>= f') (within s' capacity)) := by
  obtain ⟨requested, more, enough, u, u', h, h'⟩ := h
  exact ⟨requested, more, Nat.le_trans enough le, u, u', by rw [bind_within, h],
    by rw [bind_within, h']⟩

theorem bind (h : InStepAt post m m' s s')
    (hf : ∀ x t t', post x t t' → InStepAt Q (f x) (f' x) t t') :
    InStepAt Q (m >>= f) (m' >>= f') s s' := by
  cases h with
  | error e t t' room cause fits full =>
    refine .error e t t' room cause (fun capacity enough => ?_) fun capacity less =>
      overflow_bind (full capacity less) (Nat.le_refl _)
    obtain ⟨h, h'⟩ := fits capacity enough
    exact ⟨by rw [bind_within, h], by rw [bind_within, h']⟩
  | ok x t t' room holds size fits full =>
    have later (capacity : Nat) (enough : room ≤ capacity) :
        (m >>= f) (within s capacity) = f x (within t capacity) ∧
          (m' >>= f') (within s' capacity) = f' x (within t' capacity) := by
      obtain ⟨h, h'⟩ := fits capacity enough
      exact ⟨by rw [bind_within, h], by rw [bind_within, h']⟩
    have full' {room' : Nat} (rest : ∀ capacity, capacity < room' →
        Overflow capacity room' (f x (within t capacity)) (f' x (within t' capacity)))
        (capacity : Nat) (less : capacity < max room room') :
        Overflow capacity (max room room') ((m >>= f) (within s capacity))
          ((m' >>= f') (within s' capacity)) := by
      rcases Nat.lt_or_ge capacity room with first | enough
      · exact overflow_bind (full capacity first) (Nat.le_max_left ..)
      · obtain ⟨requested, more, bound, u, u', h, h'⟩ := rest capacity (by omega)
        obtain ⟨first, first'⟩ := later capacity enough
        exact ⟨requested, more, Nat.le_trans bound (Nat.le_max_right ..), u, u', first.trans h,
          first'.trans h'⟩
    cases hf x t t' holds with
    | ok y u u' room' holds' size' fits' rest =>
      refine .ok y u u' (max room room') holds' (by rw [size', size, Nat.max_assoc])
        (fun capacity enough => ?_) (full' rest)
      obtain ⟨first, second⟩ := Nat.max_le.1 enough
      exact ⟨(later capacity first).1.trans (fits' capacity second).1,
        (later capacity first).2.trans (fits' capacity second).2⟩
    | error e u u' room' cause fits' rest =>
      refine .error e u u' (max room room') cause (fun capacity enough => ?_) (full' rest)
      obtain ⟨first, second⟩ := Nat.max_le.1 enough
      exact ⟨(later capacity first).1.trans (fits' capacity second).1,
        (later capacity first).2.trans (fits' capacity second).2⟩

/-- What is done with the state must not depend on the capacity. -/
theorem of_get {f f' : σ → EStateM CompileError σ β} (h : InStepAt Q (f s) (f' s') s s')
    (blind : ∀ capacity, f (within s capacity) = f s)
    (blind' : ∀ capacity, f' (within s' capacity) = f' s') :
    InStepAt Q (get >>= f) (get >>= f') s s' := by
  have step (capacity : Nat) : (get >>= f) (within s capacity) = f s (within s capacity) :=
    congrFun (blind capacity) _
  have step' (capacity : Nat) : (get >>= f') (within s' capacity) = f' s' (within s' capacity) :=
    congrFun (blind' capacity) _
  cases h with
  | ok x t t' room holds size fits full =>
    exact .ok x t t' room holds size
      (fun capacity => step capacity ▸ step' capacity ▸ fits capacity)
      fun capacity => step capacity ▸ step' capacity ▸ full capacity
  | error e t t' room cause fits full =>
    exact .error e t t' room cause
      (fun capacity => step capacity ▸ step' capacity ▸ fits capacity)
      fun capacity => step capacity ▸ step' capacity ▸ full capacity

theorem of_modify {f f' : σ → σ} {post : PUnit → σ → σ → Prop} (h : post ⟨⟩ (f s) (f' s'))
    (same : buffer (f s) = buffer s)
    (blind : ∀ capacity, f (within s capacity) = within (f s) capacity)
    (blind' : ∀ capacity, f' (within s' capacity) = within (f' s') capacity) :
    InStepAt post (modify f : EStateM CompileError σ PUnit) (modify f') s s' :=
  .ok ⟨⟩ (f s) (f' s') 0 h (by rw [same, Nat.max_zero])
    (fun capacity _ => ⟨congrArg (EStateM.Result.ok PUnit.unit) (blind capacity),
      congrArg (EStateM.Result.ok PUnit.unit) (blind' capacity)⟩)
    fun _ h => absurd h (Nat.not_lt_zero _)

end InStepAt

/-- Computations in step wherever they start in related states; their states stay related. -/
structure InStep (R : σ → σ → Prop) (P : α → Prop) (m m' : EStateM CompileError σ α) : Prop where
  at_ : ∀ s s', R s s' → InStepAt (fun x t t' => R t t' ∧ P x) m m' s s'

abbrev Whatever (_ : α) : Prop := True

namespace InStep

variable {R : σ → σ → Prop} {P : α → Prop} {Q : β → Prop}
variable {m m' n n' : EStateM CompileError σ α} {f f' : α → EStateM CompileError σ β}

theorem of_pure {x : α} (h : P x) : InStep R P (pure x : EStateM CompileError σ α) (pure x) :=
  ⟨fun _ _ related => .of_pure ⟨related, h⟩⟩

theorem nothing : InStep R Whatever (pure () : EStateM CompileError σ Unit) (pure ()) :=
  of_pure trivial

theorem of_throw {e : CompileError} (cause : ¬ e.IsOverflow) :
    InStep R P (throw e : EStateM CompileError σ α) (throw e) := ⟨fun _ _ _ => .of_throw cause⟩

theorem of_except {x : Except CompileError α} (cause : ∀ e, x = .error e → ¬ e.IsOverflow)
    (h : ∀ a, x = .ok a → P a) : InStep R P (liftM x : EStateM CompileError σ α) (liftM x) := by
  cases x with
  | ok a => exact of_pure (h a rfl)
  | error e => exact of_throw (cause e rfl)

theorem bind (h : InStep R P m m') (hf : ∀ x, P x → InStep R Q (f x) (f' x)) :
    InStep R Q (m >>= f) (m' >>= f') :=
  ⟨fun s s' related => (h.at_ s s' related).bind fun x t t' ⟨related, hx⟩ =>
    (hf x hx).at_ t t' related⟩

theorem of_get {f f' : σ → EStateM CompileError σ β}
    (h : ∀ s s', R s s' → InStep R Q (f s) (f' s'))
    (blind : ∀ s capacity, f (within s capacity) = f s)
    (blind' : ∀ s capacity, f' (within s capacity) = f' s) : InStep R Q (get >>= f) (get >>= f') :=
  ⟨fun s s' related => .of_get ((h s s' related).at_ s s' related) (blind s) (blind' s')⟩

theorem of_modify {f f' : σ → σ} (h : ∀ s s', R s s' → R (f s) (f' s'))
    (same : ∀ s, buffer (f s) = buffer s)
    (blind : ∀ s capacity, f (within s capacity) = within (f s) capacity)
    (blind' : ∀ s capacity, f' (within s capacity) = within (f' s) capacity) :
    InStep R Whatever (modify f : EStateM CompileError σ PUnit) (modify f') :=
  ⟨fun s s' related => .of_modify ⟨h s s' related, trivial⟩ (same s) (blind s) (blind' s')⟩

theorem ite {p : Prop} [Decidable p] (h : InStep R P m m') (h' : InStep R P n n') :
    InStep R P (if p then m else n) (if p then m' else n') := by
  split
  · exact h
  · exact h'

theorem forM {g g' : β → EStateM CompileError σ PUnit} {xs : List β}
    (h : ∀ x ∈ xs, InStep R Whatever (g x) (g' x)) :
    InStep R Whatever (xs.forM g) (xs.forM g') := by
  induction xs with
  | nil => exact of_pure trivial
  | cons x xs ih =>
    exact bind (h x (List.mem_cons_self ..)) fun _ _ =>
      ih fun y hy => h y (List.mem_cons_of_mem _ hy)

theorem mapM {g g' : α → EStateM CompileError σ β} {xs : List α}
    (h : ∀ x ∈ xs, InStep R Whatever (g x) (g' x)) :
    InStep R Whatever (xs.mapM g) (xs.mapM g') := by
  induction xs with
  | nil =>
    rw [List.mapM_nil, List.mapM_nil]
    exact of_pure trivial
  | cons x xs ih =>
    rw [List.mapM_cons, List.mapM_cons]
    exact bind (h x (List.mem_cons_self ..)) fun _ _ =>
      bind (ih fun y hy => h y (List.mem_cons_of_mem _ hy)) fun _ _ => of_pure trivial

end InStep

end NativeExpr
