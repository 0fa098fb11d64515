import NativeExpr.Proofs.Correctness
import NativeExpr.Proofs.Lowering.Room

/-!
# What code generation can refuse

With registers enough for a division, generation fails for two reasons only: the code does
not fit its buffer, or the root needs a node without native code. The registers never run
out and none is ever in the way of another, every branch finds its label, and in a buffer
that is large enough only nodes without native code are left.
-/
namespace NativeExpr

open X64 Buffered

/-! ## Resolving branches -/

namespace X64

theorem field_le_of_mem_patchesFrom {p : Patch} {its : List Item} {offset : Nat}
    (h : p ∈ patchesFrom offset its) : p.field + 4 ≤ offset + (blanks its).length := by
  induction its generalizing offset with
  | nil => cases h
  | cons it its ih =>
    rw [blanks_cons, List.length_append]
    rcases List.mem_append.1 h with here | later
    · cases it with
      | instr i => cases here
      | jump label | jumpIf c label =>
        cases List.mem_singleton.1 here
        simp only [Item.blank, List.length_append, List.length_replicate, List.length_cons,
          List.length_nil]
        omega
    · have := ih later
      rw [Item.size] at this
      omega

namespace CodeBuffer

variable {b : CodeBuffer}

theorem exists_finalize {capacity : Nat} {its : List Item}
    (written : (CodeBuffer.new capacity).Written b its)
    (balanced : (CodeBuffer.new capacity).Balanced b) (anchored : b.Anchored)
    (small : b.size < 2147483648) : ∃ code, b.finalize = .ok code := by
  have near (p : Patch) (hp : p ∈ b.pending.toList) : ∃ d, b.displacement p = .ok d := by
    obtain ⟨t, ht⟩ : ∃ t, b.offset? p.label = some t := by
      rcases balanced.pending p hp with old | ⟨low, high⟩
      · cases old
      · exact Option.ne_none_iff_exists'.1 (balanced.bound p.label low high)
    have target := anchored p.label t ht
    have field : p.field + 4 ≤ b.size := by
      rw [written.pending] at hp
      rw [written.size]
      exact field_le_of_mem_patchesFrom hp
    have fits : fitsSigned 32 ((t : Int) - (p.field + 4 : Nat)) = true :=
      fitsSigned_of_bounds (by omega) (by omega)
    refine ⟨BitVec.ofInt 32 ((t : Int) - (p.field + 4 : Nat)), ?_⟩
    rw [displacement, ht]
    exact if_pos fits
  obtain ⟨bytes, h⟩ := exists_foldlM_applyPatch near b.bytes
  exact ⟨⟨bytes, b.pending.size⟩, by rw [finalize, h]; rfl⟩

end CodeBuffer

end X64

/-! ## The frame around a body -/

namespace Frame

variable {f : Frame} {is : List Instruction} {body : Code}

theorem emitFunction_of_assemble (keeps : f.Keeps) (valid : ∀ i ∈ is, i.refused? = none)
    (hb : body.bytes.toList = blanks (is.map .instr)) {capacity : Nat} {e : CompileError}
    (h : f.assemble body capacity = .error e) :
    ∃ a, f.emitFunction body.bytes (.new capacity) = .error e a ∧ e.IsOverflow := by
  have emitted := yields_emitFunction (a := .new capacity) keeps rfl rfl valid hb
  cases he : f.emitFunction body.bytes (.new capacity) with
  | error e' a =>
    rw [assemble, he] at h
    cases h
    exact ⟨a, rfl, emitted.error he⟩
  | ok prologue last =>
    rw [assemble, he] at h
    dsimp only at h
    rw [Wraps.finalize (emitted.ok he)] at h
    cases h

/-- In a buffer that is large enough there is room for the frame. -/
theorem exists_assemble (keeps : f.Keeps) (valid : ∀ i ∈ is, i.refused? = none)
    (hb : body.bytes.toList = blanks (is.map .instr)) :
    ∃ room, ∀ capacity, room ≤ capacity → ∃ image, f.assemble body capacity = .ok image := by
  have start : (Buffered.buffer (Assembler.new 0)).Anchored := fun label t h => by cases h
  obtain ⟨room, settled⟩ := ((settles_emitFunction (f := f) body.bytes).settled _ start).exists_room
  refine ⟨room, fun capacity enough => ?_⟩
  cases h : f.assemble body capacity with
  | ok image => exact ⟨image, rfl⟩
  | error e =>
    obtain ⟨a, refused, full⟩ := emitFunction_of_assemble keeps valid hb h
    rcases settled with ⟨x, a', runs⟩ | ⟨e', a', cause, runs⟩
    · cases (runs capacity enough).symm.trans refused
    · cases (runs capacity enough).symm.trans refused
      exact absurd full cause

end Frame

namespace Graph

open Lowering

variable {g : Graph} {root : NodeId} {o : Options} {s : Lowering.State} {body : Code}

/-- The body of a function stays below 2^31 bytes. -/
def Brief (g : Graph) (root : NodeId) (o : Options) : Prop :=
  ∀ capacity s, g.lowering root (o.withCapacity capacity) = some (.ok () s) →
    s.asm.size < 2147483648

def bodySize (g : Graph) (root : NodeId) (o : Options) : Nat :=
  match g.lowering root o with
  | some (.ok _ s) => s.asm.size
  | _ => 0

theorem generate_eq_error {e : CompileError} (inside : root < g.size)
    (h : g.generate root o = .error e) :
    (∃ s, g.lowering root o = some (.error e s)) ∨
      ∃ s, g.lowering root o = some (.ok () s) ∧ (s.asm.finalize = .error e ∨
        ∃ body, s.asm.finalize = .ok body ∧
          s.finalFrame.assemble body o.codeCapacity = .error e) := by
  obtain ⟨n, hn⟩ := node?_of_lt inside
  unfold generate at h
  unfold lowering
  rw [node_eq_ok.2 hn] at h ⊢
  rcases bind_eq_error.1 h with h | ⟨_, -, h⟩
  · cases h
  cases hb : lowerBody ⟨g, root, o.fuseCompares⟩ (.initial g root o) with
  | error e' s =>
    rw [hb] at h
    cases h
    exact .inl ⟨s, rfl⟩
  | ok u s =>
    rw [hb] at h
    refine .inr ⟨s, rfl, ?_⟩
    rcases bind_eq_error.1 h with h | ⟨body, fin, h⟩
    · exact .inl h
    rcases bind_eq_error.1 h with h | ⟨image, -, h⟩
    · exact .inr ⟨body, fin, h⟩
    · cases h

/-! ## Every capacity at once -/

theorem anchored_initial : (Buffered.buffer (State.initial g root o)).Anchored :=
  fun label t h => by cases h

theorem lowering_withCapacity (inside : root < g.size) (capacity : Nat) :
    g.lowering root (o.withCapacity capacity) = some
      (lowerBody ⟨g, root, o.fuseCompares⟩ (within (State.initial g root o) capacity)) := by
  obtain ⟨n, hn⟩ := node?_of_lt inside
  rw [lowering, node_eq_ok.2 hn]
  rfl

/-- A body is the same for every buffer it fits, and its labels are bound to offsets in it. -/
theorem lowered_alike (lowered : g.lowering root o = some (.ok () s)) :
    s.asm.buffer.Anchored ∧ ∀ capacity t,
      g.lowering root (o.withCapacity capacity) = some (.ok () t) → t = within s capacity := by
  have inside := (exists_lowering lowered).1
  have run {capacity : Nat} {t : Lowering.State}
      (h : g.lowering root (o.withCapacity capacity) = some (.ok () t)) :
      lowerBody ⟨g, root, o.fuseCompares⟩ (within (State.initial g root o) capacity) = .ok () t :=
    Option.some.inj ((lowering_withCapacity inside capacity).symm.trans h)
  rcases settles_lowerBody.settled _ anchored_initial with
    ⟨_, s', room, anchored, runs⟩ | ⟨e, s', room, cause, runs⟩
  · have same {capacity : Nat} {t : Lowering.State}
        (h : g.lowering root (o.withCapacity capacity) = some (.ok () t)) :
        t = within s' capacity := by
      rcases runs capacity with same | ⟨-, e, s'', full, -⟩
      · cases (run h).symm.trans same
        rfl
      · cases (run h).symm.trans full
    obtain rfl : s = within s' o.codeCapacity := same lowered
    exact ⟨anchored, fun _ _ h => same h⟩
  · rcases runs o.codeCapacity with same | ⟨-, e, s'', full, -⟩
    · cases (run lowered).symm.trans same
    · cases (run lowered).symm.trans full

theorem brief_of_lowering (lowered : g.lowering root o = some (.ok () s))
    (small : g.bodySize root o < 2147483648) : g.Brief root o := fun capacity t h => by
  rw [bodySize, lowered] at small
  rw [(lowered_alike lowered).2 capacity t h]
  exact small

theorem Built.exists_body (built : g.Built) (brief : g.Brief root o)
    (lowered : g.lowering root o = some (.ok () s)) :
    ∃ (body : Code) (is : List Instruction), s.asm.finalize = .ok body ∧ s.finalFrame.Keeps ∧
      (∀ i ∈ is, i.refused? = none) ∧ body.bytes.toList = blanks (is.map .instr) := by
  obtain ⟨E, finished⟩ := built.finished lowered
  obtain ⟨D, stage⟩ := finished.stage
  obtain ⟨its, written⟩ := stage.grows.written
  obtain ⟨body, fin⟩ := CodeBuffer.exists_finalize written stage.grows.balanced
    (lowered_alike lowered).1 (brief o.codeCapacity s lowered)
  obtain ⟨bytes, -⟩ := written.finalize .refl fin
  obtain ⟨is, instructions, valid⟩ :=
    exists_instructions s.asm.buffer.labelOffset 0 fun it hit => written.valid it hit
  refine ⟨body, is, fin, keeps_finalFrame stage.inv.saved, valid, ?_⟩
  rw [bytes, show resolved _ _ [] = [] from rfl, List.append_nil]
  exact instructions

/-- With registers enough, a lowering that fails for another reason than room is that of a root
with a node without native code. -/
theorem Built.refused (built : g.Built) (general : 4 ≤ o.maxGeneral) (float : 2 ≤ o.maxFloat)
    {e : CompileError} (lowered : g.lowering root o = some (.error e s)) :
    (∃ requested capacity, e = .bufferOverflow requested capacity) ∨
      (∃ fault, e = .unsupported fault) ∧ ∃ x, g.Reaches root x ∧ ¬ Expressible g x := by
  have permitted := (built.permitted lowered).1
  cases e with
  | bufferOverflow requested capacity => exact .inl ⟨requested, capacity, rfl⟩
  | registerAllocation fault => exact absurd ⟨general, float⟩ permitted
  | unsupported fault =>
    obtain ⟨x, below, missing⟩ := permitted
    exact .inr ⟨⟨fault, rfl⟩, x,
      (built.wellFormed.mem_below (exists_lowering lowered).1).1 below, missing⟩
  | _ => exact permitted.elim

/-- With registers enough, a function that was not generated does not fit its buffer or needs a
node without native code. -/
theorem Built.generate_refused (built : g.Built) (inside : root < g.size)
    (general : 4 ≤ o.maxGeneral) (float : 2 ≤ o.maxFloat) (brief : g.Brief root o)
    {e : CompileError} (h : g.generate root o = .error e) :
    (∃ requested capacity, e = .bufferOverflow requested capacity) ∨
      (∃ fault, e = .unsupported fault) ∧ ∃ x, g.Reaches root x ∧ ¬ Expressible g x := by
  rcases generate_eq_error inside h with ⟨s, lowered⟩ | ⟨s, lowered, failed⟩
  · exact built.refused general float lowered
  obtain ⟨body, is, fin, keeps, valid, bytes⟩ := built.exists_body brief lowered
  rcases failed with failed | ⟨_, same, failed⟩
  · cases fin.symm.trans failed
  cases fin.symm.trans same
  obtain ⟨-, -, full⟩ := Frame.emitFunction_of_assemble keeps valid bytes failed
  cases e with
  | bufferOverflow requested capacity => exact .inl ⟨requested, capacity, rfl⟩
  | _ => exact full.elim

/-- A body that is lowered in all large buffers gives a function in all that are larger still. -/
theorem Built.exists_generate (built : g.Built) (inside : root < g.size) (brief : g.Brief root o)
    {room : Nat} (lowers : ∀ capacity, room ≤ capacity →
      g.lowering root (o.withCapacity capacity) = some (.ok () (within s capacity))) :
    ∃ room, ∀ capacity, room ≤ capacity →
      ∃ c, g.generate root (o.withCapacity capacity) = .ok c := by
  obtain ⟨body, is, fin, keeps, valid, bytes⟩ :=
    built.exists_body (o := o.withCapacity room) brief (lowers room (Nat.le_refl _))
  obtain ⟨room', frames⟩ := Frame.exists_assemble keeps valid bytes
  refine ⟨max room room', fun capacity enough => ?_⟩
  have lowered := lowers capacity (Nat.max_le.1 enough).1
  cases h : g.generate root (o.withCapacity capacity) with
  | ok c => exact ⟨c, rfl⟩
  | error e =>
    exfalso
    rcases generate_eq_error inside h with ⟨s', failed⟩ | ⟨s', lowered', failed⟩
    · cases lowered.symm.trans failed
    cases lowered.symm.trans lowered'
    rcases failed with failed | ⟨body', same, failed⟩
    · cases fin.symm.trans failed
    cases fin.symm.trans same
    obtain ⟨image, assembled⟩ := frames capacity (Nat.max_le.1 enough).2
    cases assembled.symm.trans failed

/-- With at least four general and two vector registers, whatever spills, conditionals, calls
and divisions a function has, generation fails only where the code does not fit or where the
root needs a float remainder or a conversion between unsigned 64-bit integers and floats. In a
buffer that is large enough the function is generated just if it needs none of these. -/
theorem generates_expressible (built : g.Built) (inside : root < g.size)
    (general : 4 ≤ o.maxGeneral) (float : 2 ≤ o.maxFloat) (brief : g.Brief root o) :
    (∀ e, g.generate root o = .error e →
      (∃ requested capacity, e = .bufferOverflow requested capacity) ∨
        (∃ fault, e = .unsupported fault) ∧ ∃ x, g.Reaches root x ∧ ¬ Expressible g x) ∧
      ∃ room, ∀ capacity, room ≤ capacity →
        ((∃ c, g.generate root (o.withCapacity capacity) = .ok c) ↔
          ∀ x, g.Reaches root x → Expressible g x) := by
  refine ⟨fun e h => built.generate_refused inside general float brief h, ?_⟩
  obtain ⟨room, settled⟩ :=
    (settles_lowerBody.settled (State.initial g root o) anchored_initial).exists_room
  rcases settled with ⟨_, s, runs⟩ | ⟨e, s, cause, runs⟩
  · have lowers (capacity : Nat) (enough : room ≤ capacity) :
        g.lowering root (o.withCapacity capacity) = some (.ok () (within s capacity)) :=
      (lowering_withCapacity inside capacity).trans (congrArg some (runs capacity enough))
    obtain ⟨room', generates⟩ := built.exists_generate inside brief lowers
    refine ⟨room', fun capacity enough => iff_of_true (generates capacity enough) fun x hx => ?_⟩
    obtain ⟨c, hc⟩ := generates capacity enough
    exact built.expressible hc x ((built.wellFormed.mem_below inside).2 hx)
  · have fails {capacity : Nat} (enough : room ≤ capacity) :
        g.lowering root (o.withCapacity capacity) = some (.error e (within s capacity)) :=
      (lowering_withCapacity inside capacity).trans (congrArg some (runs capacity enough))
    refine ⟨room, fun capacity enough => iff_of_false ?_ ?_⟩
    · rintro ⟨c, hc⟩
      obtain ⟨s', -, -, lowered, -⟩ := generate_eq_ok hc
      cases (fails enough).symm.trans lowered
    · rcases built.refused (o := o.withCapacity capacity) general float (fails enough) with
        ⟨requested, capacity, rfl⟩ | ⟨-, x, reaches, missing⟩
      · exact absurd trivial cause
      · exact fun all => missing (all x reaches)

/-- Three values are spilled, one of them for want of registers. -/
theorem generates_expressible_weigh : ∃ room, ∀ capacity, room ≤ capacity →
    ∃ c, weigh.generate 7 ((⟨65536, 4, 2, false⟩ : Options).withCapacity capacity) = .ok c := by
  obtain ⟨c, hc, -⟩ := @exists_loaded_weigh ⟨65536, 4, 2, false⟩ (by decide +kernel)
  obtain ⟨s, _, _, lowered, -⟩ := generate_eq_ok hc
  have small : weigh.bodySize 7 ⟨65536, 4, 2, false⟩ < 2147483648 := by decide +kernel
  obtain ⟨-, room, generates⟩ := @generates_expressible weigh 7 ⟨65536, 4, 2, false⟩ built_weigh
    (by decide) (by decide) (by decide) (brief_of_lowering lowered small)
  have plain : ∀ n ∈ weigh.nodes, (∀ x y, n.kind ≠ .arith .rem x y) ∧ ∀ v, n.kind ≠ .cast v := by
    simp [weigh]
  refine ⟨room, fun capacity enough => (generates capacity enough).2 fun x _ n hn => ?_⟩
  obtain ⟨noRem, noCast⟩ := plain n (Array.mem_of_getElem? hn)
  split
  · next x y kind => exact absurd kind (noRem x y)
  · next v kind => exact absurd kind (noCast v)
  · trivial

end Graph

end NativeExpr
