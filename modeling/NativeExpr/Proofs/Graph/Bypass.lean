import NativeExpr.Proofs.Playing

/-!
# Ways around an arm

Some nodes are needed through one arm of a conditional only: every way that leads to them from
the root goes through that arm. Such a node is left to the arm, and to every arm around it that
the conditional is left to. So it is never found ahead of a branch of which the arm is a part.
-/
namespace NativeExpr.Graph

open NativeExpr Finset Lowering

/-- The nodes to which a way leads from the root that leaves one node only through some of its
operands. -/
inductive Bypasses (g : Graph) (y : NodeId) (kept : List NodeId) (root : NodeId) : NodeId → Prop
  | refl : Bypasses g y kept root root
  | step {b z : NodeId} (before : Bypasses g y kept root b)
    (operand : z ∈ if b = y then kept else g.operandsOf b) : Bypasses g y kept root z

/-- The operands of a conditional that remain if one of its arms is left out. -/
def keptBy (c a b : NodeId) (taken : Bool) : List NodeId := [c, if taken then b else a]

variable {g : Graph} {a b c x y z s arm root : Nat} {D : Finset Nat} {kept : List Nat}
variable {taken : Bool}

theorem Bypasses.operand (h : g.Bypasses y kept root b) (ne : b ≠ y) (hz : z ∈ g.operandsOf b) :
    g.Bypasses y kept root z := .step h (by rwa [if_neg ne])

theorem Bypasses.of_mem (h : g.Bypasses y kept root y) (hz : z ∈ kept) :
    g.Bypasses y kept root z := .step h (by rwa [if_pos rfl])

theorem count_of_notMem_keptBy (hz : z ∉ keptBy c a b taken) (out : arm ∉ keptBy c a b taken)
    (mem : arm ∈ [c, a, b]) : [c, a, b].count z = if z = arm then 1 else 0 := by
  cases taken with
  | true =>
    simp only [keptBy, if_true, List.mem_cons, List.not_mem_nil, or_false, not_or] at hz out
    obtain rfl : arm = a := by simpa [out.1, out.2] using mem
    simp [List.count_cons, Ne.symm hz.1, Ne.symm hz.2, @eq_comm _ arm]
  | false =>
    simp only [keptBy, Bool.false_eq_true, if_false, List.mem_cons, List.not_mem_nil, or_false,
      not_or] at hz out
    obtain rfl : arm = b := by simpa [out.1, out.2] using mem
    simp [List.count_cons, Ne.symm hz.1, Ne.symm hz.2, @eq_comm _ arm]

/-- Nodes that are not before the one that is left that way are reached anyhow. -/
theorem WellFormed.bypasses_of_le (w : g.WellFormed) (reaches : g.Reaches root z) (le : y ≤ z) :
    g.Bypasses y kept root z := by
  induction reaches with
  | refl => exact .refl
  | step before operand ih =>
    have lt := w.operandsOf_lt operand
    exact (ih (Nat.le_of_lt (Nat.lt_of_le_of_lt le lt))).operand
      (Nat.ne_of_gt (Nat.lt_of_le_of_lt le lt)) operand

namespace Arm

variable (w : g.WellFormed) (h : g.Arm root D s arm)
include w h

/-- A node that the conditional reads as this arm only, and else only nodes read that are left to
the arm, is left to it, too. -/
theorem mem_exclusive (hx : x ∈ g.below root) (hD : x ∉ D) (ne : x ≠ root)
    (own : g.edges s x = if x = arm then 1 else 0)
    (readers : ∀ r ∈ g.below root, r ∉ D → r ≠ s → x ∈ g.operandsOf r →
      r ∈ g.exclusive root D arm) : x ∈ g.exclusive root D arm := by
  have inside := lt_size_of_mem_below hx
  have rest : ∑ r ∈ (g.below root \ D) \ g.exclusive root D arm, g.edges r x = g.edges s x :=
    sum_eq_single_of_mem s (h.user_mem w) fun r hr other => by
      obtain ⟨hr, out⟩ := mem_sdiff.1 hr
      obtain ⟨hr, open_⟩ := mem_sdiff.1 hr
      exact edges_eq_zero fun operand => out (readers r hr open_ other operand)
  have same : (g.armUses (g.remaining root D) arm).getD x 0 = g.pending root D x := by
    rw [w.getD_armUses inside, h.pending_eq w, rest, own, if_neg ne]
    omega
  have pos : 0 < (g.armUses (g.remaining root D) arm).getD x 0 :=
    same ▸ w.pending_pos h.root_lt h.closed hx hD
  refine mem_filter.2 ⟨mem_range.2 (Nat.lt_succ_of_le ?_), pos, ?_⟩
  · rcases w.armUses_pos inside pos with rfl | ⟨r, hr, operand⟩
    · exact Nat.le_refl _
    · exact Nat.le_trans (Nat.le_of_lt (w.operandsOf_lt operand)) (le_of_mem_exclusive hr)
  · rw [same, remaining, if_neg hD]

/-- What is left to an arm that has a way around is reached around, too. -/
theorem bypasses_of_mem (free : g.Bypasses y kept root arm) (out : y ∉ g.exclusive root D arm)
    (hx : x ∈ g.exclusive root D arm) : g.Bypasses y kept root x := by
  induction hk : arm - x using Nat.strongRecOn generalizing x with
  | ind k ih =>
    have le := le_of_mem_exclusive hx
    rcases w.armUses_pos (Nat.lt_of_le_of_lt le (h.lt_size w)) (mem_filter.1 hx).2.1 with
      rfl | ⟨r, hr, operand⟩
    · exact free
    · have lt := w.operandsOf_lt operand
      have le := le_of_mem_exclusive hr
      exact (ih (arm - r) (by omega) hr rfl).operand (fun same => out (same ▸ hr)) operand

/-- A node without a way around is left to the arm that the conditional is left to, or whose
conditional it is. -/
theorem mem_of_not_bypasses
    (own : ∀ z, ¬ g.Bypasses y kept root z → z ∉ g.exclusive root D arm →
      (∀ r, z < r → ¬ g.Bypasses y kept root r → r ∈ g.below root → r ∉ D →
        r ∈ g.exclusive root D arm) →
      g.edges s z = (if z = arm then 1 else 0) ∧ (s = y ∨ y ∈ g.exclusive root D arm))
    (hx : x ∈ g.below root) (hD : x ∉ D) (not : ¬ g.Bypasses y kept root x) :
    x ∈ g.exclusive root D arm := by
  induction hk : root - x using Nat.strongRecOn generalizing x with
  | ind k ih =>
    by_contra out
    have above (r : NodeId) (lt : x < r) (guarded : ¬ g.Bypasses y kept root r)
        (hr : r ∈ g.below root) (open_ : r ∉ D) : r ∈ g.exclusive root D arm :=
      ih (root - r) (by have := w.le_of_mem_below h.root_lt hr; omega) hr open_ guarded rfl
    obtain ⟨edges, at_⟩ := own x not out above
    refine out (h.mem_exclusive w hx hD (fun he => not (he ▸ .refl)) edges
      fun r hr open_ ne operand => ?_)
    by_cases same : r = y
    · exact same ▸ at_.resolve_left fun (he : s = y) => ne (same.trans he.symm)
    · exact above r (w.operandsOf_lt operand) (fun free => not (free.operand same operand)) hr open_

/-- What an arm shares with other nodes has a way around if the conditional of the arm has. -/
theorem bypasses_of_isShared (operands : g.operandsOf y = [c, a, b])
    (free : g.Bypasses y (keptBy c a b taken) root s)
    (hx : x ∈ g.below root) (hD : x ∉ D)
    (shared : isShared (g.remaining root D) (g.armUses (g.remaining root D) arm) x = true) :
    g.Bypasses y (keptBy c a b taken) root x := by
  rw [isShared, Bool.and_eq_true, decide_eq_true_eq, decide_eq_true_eq, remaining, if_neg hD]
    at shared
  obtain ⟨pos, less⟩ := shared
  have out : x ∉ g.exclusive root D arm := fun hm =>
    Nat.lt_irrefl _ (pending_of_mem_exclusive hm ▸ less)
  by_contra not
  have through (away : g.Bypasses y (keptBy c a b taken) root arm)
      (apart : y ∉ g.exclusive root D arm) : False := by
    rcases w.armUses_pos (lt_size_of_mem_below hx) pos with rfl | ⟨r, hr, operand⟩
    · exact not away
    · exact not ((h.bypasses_of_mem w away apart hr).operand (fun same => apart (same ▸ hr))
        operand)
  by_cases inner : y ∈ g.exclusive root D arm
  · refine out (h.mem_of_not_bypasses w (fun z guarded outside above => ⟨?_, .inr inner⟩) hx hD not)
    -- a conditional that reads the node would be without a way around itself
    have notSelf : s ≠ y := fun (same : s = y) => h.user_notMem w (same ▸ inner)
    have unread : z ∉ g.operandsOf s := fun operand => guarded (free.operand notSelf operand)
    rw [edges_eq_zero unread, if_neg fun (same : z = arm) => unread (same ▸ h.operand)]
  · by_cases away : g.Bypasses y (keptBy c a b taken) root arm
    · exact through away inner
    · have same : s = y := by
        by_contra ne
        exact away (free.operand ne h.operand)
      subst same
      refine out (h.mem_of_not_bypasses w (fun z guarded _ _ => ⟨?_, .inl rfl⟩) hx hD not)
      -- the conditional reads the node as its arm only, since its other operands have a way around
      rw [edges, operands]
      exact count_of_notMem_keptBy (fun hm => guarded (free.of_mem hm))
        (fun hm => away (free.of_mem hm)) (operands ▸ h.operand)

end Arm

/-- What is found ahead of a branch has a way around an arm if the conditional of the branch
has. -/
theorem Fork.bypasses_ahead {c' a' b' : NodeId} (w : g.WellFormed) (h : g.Fork root D s c' a' b')
    (operands : g.operandsOf y = [c, a, b]) (free : g.Bypasses y (keptBy c a b taken) root s)
    (hx : x ∈ World.ahead g root D c' a' b') : g.Bypasses y (keptBy c a b taken) root x := by
  have below := h.ahead_mem_below w hx
  rcases List.mem_append.1 hx with hx | hx
  · rw [sharedNodes, List.mem_filter, Bool.or_eq_true] at hx
    obtain ⟨-, shared⟩ := hx
    have fresh : x ∉ D := fun hD => by
      have none : g.remaining root D x = 0 := if_pos hD
      simp [isShared, none] at shared
    rcases shared with shared | shared
    · exact h.first.bypasses_of_isShared w operands free below fresh shared
    · exact h.second.bypasses_of_isShared w operands free below fresh shared
  · rw [List.mem_singleton] at hx
    subst hx
    by_cases same : s = y
    · subst same
      have first := operands.symm.trans h.operands
      cases first
      exact free.of_mem (by simp [keptBy])
    · exact free.operand same (by simp [h.operands])

/-! ## What is left to an arm -/

def armBy (a b : NodeId) (taken : Bool) : NodeId := if taken then a else b

theorem Bypasses.reaches (sub : kept ⊆ g.operandsOf y) (h : g.Bypasses y kept root z) :
    g.Reaches root z := by
  induction h with
  | refl => exact .refl
  | step _ operand ih =>
    split at operand
    · next same => exact ih.step (same ▸ sub operand)
    · exact ih.step operand

theorem count_operands (taken : Bool) : [c, a, b].count z =
    (if z = (armBy a b taken) then 1 else 0) + (keptBy c a b taken).count z := by
  cases taken <;> simp [keptBy, armBy, List.count_cons, @eq_comm _ z] <;> omega

theorem keptBy_subset : keptBy c a b taken ⊆ [c, a, b] := by
  cases taken <;> simp [keptBy]

theorem Arm.not_bypasses (w : g.WellFormed) (h : g.Arm root D s (armBy a b taken))
    (operands : g.operandsOf s = [c, a, b])
    (hx : x ∈ g.exclusive root D (armBy a b taken)) :
    ¬ g.Bypasses s (keptBy c a b taken) root x := by
  intro way
  induction way with
  | refl => exact (h.edges_of_mem_exclusive w hx).1 rfl
  | @step y z before operand ih =>
    obtain ⟨-, own, readers⟩ := h.edges_of_mem_exclusive w hx
    split at operand
    · -- the conditional reads the node as this arm only
      have more := List.count_pos_iff.2 operand
      rw [edges, operands, count_operands taken] at own
      omega
    · next other =>
      have reached : y ∈ g.below root :=
        (w.mem_below h.root_lt).2 (before.reaches (operands ▸ keptBy_subset))
      by_cases hD : y ∈ D
      · exact notMem_of_mem_exclusive hx (h.closed y hD _ operand)
      · exact ih (readers y reached hD other operand)

namespace Fork

variable (w : g.WellFormed) (h : g.Fork root D s c a b) (taken : Bool)
include h

theorem arm_of : g.Arm root D s (armBy a b taken) := by
  cases taken with
  | true => exact h.first
  | false => exact h.second

include w

/-- What is done ahead of a branch has a way around either arm. -/
theorem bypasses_of_mem_ahead (hx : x ∈ g.doneAfter D (World.ahead g root D c a b)) (hD : x ∉ D) :
    g.Bypasses s (keptBy c a b taken) root x := by
  obtain ⟨z, hz, below⟩ := (mem_doneAfter.1 hx).resolve_left hD
  have free : g.Bypasses s (keptBy c a b taken) root s :=
    w.bypasses_of_le ((w.mem_below h.root_lt).1 h.user) (Nat.le_refl s)
  have lt := w.lt_of_mem_ahead h.lt_size h.operands hz
  have way := h.bypasses_ahead w h.operands free hz
  have reaches := (w.mem_below (Nat.lt_trans lt h.lt_size)).1 below
  clear below hx hD
  induction reaches with
  | refl => exact way
  | step before operand ih =>
    exact ih.operand (Nat.ne_of_lt (Nat.lt_of_le_of_lt (before.le w) lt)) operand

/-- What an arm needs that is not done ahead of the branch is exclusive to it. -/
theorem mem_exclusive (hx : g.Reaches (armBy a b taken) x)
    (hD : x ∉ g.doneAfter D (World.ahead g root D c a b)) :
    x ∈ g.exclusive root D (armBy a b taken) := by
  have below := (w.mem_below ((h.arm_of taken).lt_size w)).2 hx
  cases taken with
  | true => exact h.mem_first w below hD
  | false => exact h.mem_second w below hD

/-- The branch comes before a node that an arm needs and that is not done if, and only if,
there is no way around the arm to it. -/
theorem notMem_ahead_iff (hx : g.Reaches (armBy a b taken) x) (hD : x ∉ D) :
    x ∉ g.doneAfter D (World.ahead g root D c a b) ↔
      ¬ g.Bypasses s (keptBy c a b taken) root x :=
  ⟨fun out => (h.arm_of taken).not_bypasses w h.operands (h.mem_exclusive w taken hx out),
    fun not hm => not (h.bypasses_of_mem_ahead w taken hm hD)⟩

/-- So it is if, and only if, all that reads the node is such a node too, or is the conditional
that reads it as this arm only. -/
theorem notMem_ahead_iff_readers (hx : g.Reaches (armBy a b taken) x) (hD : x ∉ D) :
    x ∉ g.doneAfter D (World.ahead g root D c a b) ↔ x ≠ root ∧
      ∀ y, g.Reaches root y → x ∈ g.operandsOf y →
        (g.Reaches (armBy a b taken) y ∧
          y ∉ g.doneAfter D (World.ahead g root D c a b)) ∨
        y = s ∧ x = (armBy a b taken) ∧ (g.operandsOf s).count x = 1 := by
  have arm := h.arm_of taken
  have lt := arm.lt_size w
  constructor
  · intro out
    obtain ⟨ne, own, readers⟩ := arm.edges_of_mem_exclusive w (h.mem_exclusive w taken hx out)
    refine ⟨ne, fun y hy operand => ?_⟩
    by_cases same : y = s
    · subst same
      by_cases he : x = armBy a b taken
      · rw [if_pos he] at own
        exact .inr ⟨rfl, he, own⟩
      · rw [if_neg he] at own
        exact absurd own (Nat.ne_of_gt (edges_pos.2 operand))
    · have mem := readers y ((w.mem_below h.root_lt).2 hy)
        (fun hy => hD (h.closed y hy x operand)) same operand
      have reaches := w.reaches_of_mem_exclusive lt mem
      exact .inl ⟨reaches, (h.notMem_ahead_iff w taken reaches (notMem_of_mem_exclusive mem)).2
        (arm.not_bypasses w h.operands mem)⟩
  · rintro ⟨ne, readers⟩
    refine (h.notMem_ahead_iff w taken hx hD).2 (arm.not_bypasses w h.operands ?_)
    have below := arm.below_subset w ((w.mem_below lt).2 hx)
    refine arm.mem_exclusive w below hD ne ?_ fun y hy _ other operand => ?_
    · by_cases operand : x ∈ g.operandsOf s
      · rcases readers s ((w.mem_below h.root_lt).1 h.user) operand with inner | ⟨-, he, once⟩
        · exact absurd (inner.1.le w) (Nat.not_le.2 (arm.lt w))
        · rw [if_pos he]
          exact once
      · rw [edges_eq_zero operand, if_neg fun (he : x = _) => operand (he ▸ arm.operand)]
    · rcases readers y ((w.mem_below h.root_lt).1 hy) operand with inner | ⟨same, -⟩
      · exact h.mem_exclusive w taken inner.1 inner.2
      · exact absurd same other

end Fork

end NativeExpr.Graph
