import NativeExpr.Lowering.Conditional
import NativeExpr.Proofs.Lowering.Values

/-!
# The tables around two arms

The second arm starts from the tables that the first one started from. Where the arms
meet, a value has been read by one of them: the reads to come are those before the
branch less what either arm made.
-/
namespace NativeExpr.Lowering

open NativeExpr X64

variable {S : Setting} {σ σ' τ τ' : State} {p p' : Pose} {D D' : Finset NodeId}
variable {x y : NodeId} {r q : Reg} {rest : List NodeId} {thenUses : Array Nat}

/-- The tables of an earlier state, in the frame and behind the code of a later one. -/
theorem Inv.restore (h : Inv S D σ p) (h' : Inv S D' τ p') (first : Precedes σ τ) :
    Inv S D { τ with regs := τ.regs.restore σ.regs.snapshot, values := σ.values } p := by
  have becomes := h.regular.restore h'.regular first.touched
  have owner {q : Reg} (hq : q.Valid) : (τ.regs.restore σ.regs.snapshot).owner q =
      σ.regs.owner q := becomes.owner_eq hq
  refine { h with
    regular := becomes.regular
    locks := fun hr => (becomes.lockCount_eq hr).trans (h.locks hr)
    held := fun hr hp => (owner hr).trans (h.held hr hp)
    temp := fun hr ht => h.temp hr ((owner hr).symm.trans ht)
    owned := fun hr hp => by
      rw [owner hr]
      exact h.owned hr hp
    stack := fun hpl => (h.stack hpl).imp (fun hs => hs) fun hs => ⟨hs.1, first.stackParams hs.2⟩
    slot_eq := fun hs => ?_
    saved := h'.saved
    residue := h'.residue
    begun := h'.begun
    clean := h'.clean }
  obtain ⟨j, hj, ho⟩ := h.slot_eq hs
  exact ⟨j, Nat.lt_of_lt_of_le hj first.spills, ho⟩

/-- The reads of the values in `rest` are yet to be combined. -/
structure Merging (S : Setting) (D : Finset NodeId) (σ σ₁ : State) (p : Pose)
    (thenUses : Array Nat) (rest : List NodeId) (τ : State) : Prop where
  inv : Inv S D τ p
  asm : τ.asm = σ₁.asm
  frame : τ.frame = σ₁.frame
  tally : τ.tally = σ₁.tally
  touched : ∀ q, σ₁.regs.touched.contains q = true → τ.regs.touched.contains q = true
  journal : σ₁.journal <:+ τ.journal
  reads : ∀ x, τ.readsOf x = σ₁.readsOf x
  place : ∀ x, τ.place x = σ₁.place x
  left : ∀ x ∈ rest, τ.uses x = σ₁.uses x
  merged : ∀ x, x ∉ rest → τ.uses x = thenUses.getD x 0 + σ₁.uses x - σ.uses x

/-- The state in which the reads of a value that two arms left are combined, with what became of
the registers. -/
def State.afterMerge (τ : State) (x : NodeId) (saved thenLeft merged : Nat)
    (regs : RegisterFile) : State :=
  { τ with
    regs
    values := τ.values.update x fun a => { a with usesLeft := merged }
    journal := .merged x saved thenLeft (τ.uses x) :: τ.journal }

section

variable {σ₁ : State} (h : Merging S D σ σ₁ p thenUses (x :: rest) τ)
include h

theorem Merging.left_tail (hy : y ∈ rest) : τ.uses y = σ₁.uses y :=
  h.left y (List.mem_cons_of_mem _ hy)

theorem Merging.merged_tail (hy : y ∉ rest) (ne : y ≠ x) :
    τ.uses y = thenUses.getD y 0 + σ₁.uses y - σ.uses y :=
  h.merged y fun hm => (List.mem_cons.1 hm).elim ne hy

theorem Merging.left_head : τ.uses x = σ₁.uses x := h.left x (List.mem_cons_self ..)

/-- Whatever becomes of the register of a value, its reads are combined. -/
theorem Merging.combine (fresh : x ∉ rest) (live : 0 < τ.uses x)
    (sum : σ.uses x ≤ thenUses.getD x 0 + τ.uses x) {merged : Nat}
    (total : merged = thenUses.getD x 0 + τ.uses x - σ.uses x) {regs : RegisterFile}
    (released : Released S τ p x merged none regs p) :
    Merging S D σ σ₁ p thenUses rest
      (τ.afterMerge x (σ.uses x) (thenUses.getD x 0) merged regs) := by
  have updated : Updated τ (τ.afterMerge x (σ.uses x) (thenUses.getD x 0) merged regs) x
      (τ.place x) (τ.slot x) merged :=
    updated_update (uses_lt_size live) (fun a => { a with usesLeft := merged }) rfl
  have clean : (τ.afterMerge x (σ.uses x) (thenUses.getD x 0) merged regs).Clean S.graph
      S.ctx.root :=
    h.inv.clean.cons (n := .merged x (σ.uses x) (thenUses.getD x 0) (τ.uses x)) sum rfl rfl nofun
  refine ⟨h.inv.read live updated rfl rfl released h.inv.knownValid clean, h.asm, h.frame, h.tally,
    fun q hq => released.touched q (h.touched q hq), h.journal.trans (List.suffix_cons ..), h.reads,
    fun y => (updated.place_same y).trans (h.place y), fun y hy => ?_, fun y hy => ?_⟩
  · rw [updated.uses_eq, if_neg fun he : y = x => fresh (he ▸ hy), h.left_tail hy]
  · rw [updated.uses_eq]
    split
    · next he => rw [he, total, h.left_head]
    · next he => exact h.merged_tail hy he

theorem Merging.mergeUses (fresh : x ∉ rest) (unlocked : p.locks = fun _ => 0)
    (first : thenUses.getD x 0 ≤ σ.uses x)
    (sum : σ.uses x ≤ thenUses.getD x 0 + σ₁.uses x) :
    Generates S (mergeUses σ.values thenUses x) τ fun _ τ' =>
      Merging S D σ σ₁ p thenUses rest τ' := by
  have sum : σ.uses x ≤ thenUses.getD x 0 + τ.uses x := h.left_head ▸ sum
  unfold Lowering.mergeUses
  refine .bind (yields_assignment ?_)
  dsimp only
  split
  · next same =>
    refine .of_pure { h with left := fun y hy => h.left_tail hy, merged := fun y hy => ?_ }
    by_cases he : y = x
    · rw [he, h.left_head, show thenUses.getD x 0 = σ.uses x from same]
      omega
    · exact h.merged_tail hy he
  generalize hm : thenUses.getD x 0 + (τ.values.entry x).usesLeft - (σ.values.entry x).usesLeft =
    merged
  have total : merged = thenUses.getD x 0 + τ.uses x - σ.uses x := hm.symm
  refine .bind (.of_modify (.bind (yields_modifyValues ?_)))
  by_cases live : τ.uses x = 0
  · -- Nothing is left to be read in the table either.
    have zero : merged = 0 := by omega
    have same : τ.values.update x (fun a => { a with usesLeft := merged }) = τ.values := by
      refine ValueTable.update_self ?_
      have entry : (τ.values.entry x).usesLeft = merged := live.trans zero.symm
      rw [← entry]
    have clean : State.Clean { τ with
        journal := .merged x (σ.uses x) (thenUses.getD x 0) (τ.uses x) :: τ.journal }
        S.graph S.ctx.root :=
      h.inv.clean.cons (n := .merged x (σ.uses x) (thenUses.getD x 0) (τ.uses x)) sum rfl rfl nofun
    simp only [same]
    rw [if_neg fun hn => Nat.ne_of_gt hn.2 live]
    refine .of_pure ⟨{ h.inv with clean := clean }, h.asm, h.frame, h.tally, h.touched,
      h.journal.trans (List.suffix_cons ..), h.reads, h.place, fun y hy => h.left_tail hy,
      fun y hy => ?_⟩
    by_cases he : y = x
    · show τ.uses y = _
      rw [he, ← h.left_head, ← total, zero, live]
    · exact h.merged_tail hy he
  have live : 0 < τ.uses x := Nat.pos_of_ne_zero live
  split
  · next dies =>
    have same : (τ.afterMerge x (σ.uses x) (thenUses.getD x 0) merged τ.regs).regs = τ.regs := rfl
    refine h.inv.release live dies.1 (fun r _ => congrFun unlocked r) rfl same
      fun regs released => ?_
    exact h.combine fresh live sum total released
  · next survives =>
    exact .of_pure (h.combine fresh live sum total
      (h.inv.released_self fun q hq => survives ⟨hq.1, live⟩))

end

/-- At first no reads are combined, and behind the tables there are none. -/
theorem Merging.start (inv : Inv S D τ p) (size : τ.values.size = σ.values.size)
    (first : ∀ x, thenUses.getD x 0 ≤ σ.uses x) :
    Merging S D σ τ p thenUses (List.range σ.values.size) τ := by
  refine ⟨inv, rfl, rfl, rfl, fun _ hq => hq, List.suffix_rfl, fun _ => rfl, fun _ => rfl,
    fun _ _ => rfl, fun x hx => ?_⟩
  rw [List.mem_range, Nat.not_lt] at hx
  have none : τ.uses x = 0 := Nat.eq_zero_of_not_pos fun hu =>
    Nat.not_lt_of_le hx (size ▸ uses_lt_size hu)
  have le := first x
  omega

theorem Inv.mergeAll (inv : Inv S D τ p) (size : τ.values.size = σ.values.size)
    (unlocked : p.locks = fun _ => 0) (first : ∀ x, thenUses.getD x 0 ≤ σ.uses x)
    (sum : ∀ x, σ.uses x ≤ thenUses.getD x 0 + τ.uses x) :
    Generates S ((List.range σ.values.size).forM (Lowering.mergeUses σ.values thenUses)) τ
      fun _ τ' => Merging S D σ τ p thenUses [] τ' := by
  refine (Yields.forM (fun rest τ' => Merging S D σ τ p thenUses rest τ' ∧ rest.Nodup) ?_ _ τ
    ⟨.start inv size first, List.nodup_range⟩).mono (fun _ _ h => h.1) fun _ _ he => he
  rintro x rest τ' ⟨h, nodup⟩
  rw [List.nodup_cons] at nodup
  exact (h.mergeUses nodup.1 unlocked (first x) (sum x)).mono (fun _ _ h' => ⟨h', nodup.2⟩)
    fun _ _ he => he

end NativeExpr.Lowering
