import NativeExpr.Lowering.Conditional
import NativeExpr.Proofs.Graph.Counting

/-!
# The arms of a conditional

A node is exclusive to an arm if all reads of it that are still to come are made
in the arm. Nodes that an arm reaches and that are not exclusive to it are
generated ahead of the branch. What is left of the two arms then has no node in
common, and outside its arm nothing reads a node that is left.
-/
namespace NativeExpr.Graph

open NativeExpr Finset Lowering

variable {g : Graph} {a b c d x y z id root s arm : Nat} {D D' : Finset Nat}

/-- Reads of a node that are still to come, none of a node that is done. -/
def remaining (g : Graph) (root : NodeId) (done : Finset NodeId) (x : NodeId) : Nat :=
  if x ∈ done then 0 else g.pending root done x

/-- Whether a set of nodes has the operands of its members. -/
def Closed (g : Graph) (done : Finset NodeId) : Prop :=
  ∀ y ∈ done, ∀ x ∈ g.operandsOf y, x ∈ done

theorem Closed.of_reaches (h : g.Closed D) (hy : y ∈ D) (r : g.Reaches y x) : x ∈ D := by
  induction r with
  | refl => exact hy
  | step _ operand ih => exact h _ ih _ operand

theorem Closed.union (h : g.Closed D) (h' : g.Closed D') : g.Closed (D ∪ D') := by
  intro y hy x hx
  rcases mem_union.1 hy with hy | hy
  · exact mem_union_left _ (h y hy x hx)
  · exact mem_union_right _ (h' y hy x hx)

theorem WellFormed.closed_below (w : g.WellFormed) (hid : id < g.size) : g.Closed (g.below id) := by
  intro y hy x hx
  rw [w.mem_below hid] at hy ⊢
  exact hy.step hx

theorem WellFormed.self_mem_below (w : g.WellFormed) (hid : id < g.size) : id ∈ g.below id :=
  (w.mem_below hid).2 .refl

theorem WellFormed.le_of_mem_below (w : g.WellFormed) (hid : id < g.size) (h : x ∈ g.below id) :
    x ≤ id :=
  ((w.mem_below hid).1 h).le w

theorem WellFormed.below_subset (w : g.WellFormed) (hr : root < g.size) (h : id ∈ g.below root) :
    g.below id ⊆ g.below root := by
  intro x hx
  rw [w.mem_below (lt_size_of_mem_below h)] at hx
  rw [w.mem_below hr] at h ⊢
  exact h.trans hx

theorem WellFormed.operand_mem_below (w : g.WellFormed) (hr : root < g.size)
    (h : y ∈ g.below root) (hx : x ∈ g.operandsOf y) : x ∈ g.below root := by
  rw [w.mem_below hr] at h ⊢
  exact h.step hx

theorem WellFormed.mem_below_iff (w : g.WellFormed) (hid : id < g.size) :
    x ∈ g.below id ↔ x = id ∨ ∃ y ∈ g.operandsOf id, x ∈ g.below y := by
  rw [w.mem_below hid]
  constructor
  · intro h
    induction h with
    | refl => exact .inl rfl
    | step before operand ih =>
      rcases ih with rfl | ⟨y, hy, hb⟩
      · have hlt := Nat.lt_trans (w.operandsOf_lt operand) hid
        exact .inr ⟨_, operand, w.self_mem_below hlt⟩
      · have hlt := Nat.lt_trans (w.operandsOf_lt hy) hid
        rw [w.mem_below hlt] at hb
        exact .inr ⟨y, hy, (w.mem_below hlt).2 (hb.step operand)⟩
  · rintro (rfl | ⟨y, hy, hx⟩)
    · exact .refl
    · rw [w.mem_below (Nat.lt_trans (w.operandsOf_lt hy) hid)] at hx
      exact (Reaches.of_operand hy).trans hx

/-! ## Reads to come -/

theorem WellFormed.pending_pos (w : g.WellFormed) (hr : root < g.size) (closed : g.Closed D)
    (hx : x ∈ g.below root) (hD : x ∉ D) : 0 < g.pending root D x := by
  rw [w.mem_below hr] at hx
  cases hx with
  | refl => simp [pending]
  | @step y _ before operand =>
    have hy : y ∈ g.below root \ D :=
      mem_sdiff.2 ⟨(w.mem_below hr).2 before, fun h => hD (closed y h x operand)⟩
    have := single_le_sum (f := fun y => g.edges y x) (fun _ _ => Nat.zero_le _) hy
    have := edges_pos.2 operand
    unfold pending
    omega

theorem Closed.pending_eq (closed : g.Closed D) (hD : x ∉ D) :
    g.pending root D x = g.pending root ∅ x := by
  rw [pending, pending, sdiff_empty]
  congr 1
  refine sum_subset sdiff_subset fun y hy done => edges_eq_zero fun operand => hD ?_
  exact closed y (Classical.byContradiction fun open_ => done (mem_sdiff.2 ⟨hy, open_⟩)) x operand

theorem pending_union {B : Finset Nat} (hB : B ⊆ g.below root) :
    g.pending root D x = g.pending root (D ∪ B) x + ∑ y ∈ B \ D, g.edges y x := by
  have split : g.below root \ D = (g.below root \ (D ∪ B)) ∪ (B \ D) := by
    ext y
    simp only [mem_sdiff, mem_union]
    constructor
    · rintro ⟨h, hD⟩
      by_cases hyB : y ∈ B
      · exact .inr ⟨hyB, hD⟩
      · exact .inl ⟨h, fun h => h.elim hD hyB⟩
    · rintro (⟨h, hD⟩ | ⟨h, hD⟩)
      · exact ⟨h, fun h => hD (.inl h)⟩
      · exact ⟨hB h, hD⟩
  have disj : Disjoint (g.below root \ (D ∪ B)) (B \ D) :=
    disjoint_left.2 fun y h h' =>
      (mem_sdiff.1 h).2 (mem_union_right _ (mem_sdiff.1 h').1)
  rw [pending, pending, split, sum_union disj, Nat.add_assoc]

theorem edges_le_pending (hy : y ∈ g.below root) (hD : y ∉ D) :
    g.edges y x ≤ g.pending root D x := by
  have := single_le_sum (f := fun y => g.edges y x) (fun _ _ => Nat.zero_le _)
    (mem_sdiff.2 ⟨hy, hD⟩)
  unfold pending
  omega

theorem pending_insert (hs : s ∈ g.below root) (hD : s ∉ D) :
    g.pending root D x = g.pending root (insert s D) x + g.edges s x := by
  have := pending_union (D := D) (x := x) (singleton_subset_iff.2 hs)
  rw [sdiff_eq_self_of_disjoint (disjoint_singleton_left.2 hD), sum_singleton] at this
  rw [this, union_comm, insert_eq]

/-- Two further sets that have nothing in common that is still to be done. -/
theorem pending_merge {A B : Finset Nat} (hB : B ⊆ g.below root)
    (apart : ∀ y ∈ A, y ∈ B → y ∈ D) :
    g.pending root (D ∪ A) x + g.pending root (D ∪ B) x =
      g.pending root D x + g.pending root (D ∪ A ∪ B) x := by
  have hAB : B \ (D ∪ A) = B \ D := by
    ext y
    simp only [mem_sdiff, mem_union, not_or]
    exact ⟨fun h => ⟨h.1, h.2.1⟩, fun h => ⟨h.1, h.2, fun hy => h.2 (apart y hy h.1)⟩⟩
  have h := pending_union (D := D ∪ A) (x := x) hB
  have h' := pending_union (D := D) (x := x) hB
  rw [hAB] at h
  omega

/-! ## Nodes that only one arm needs -/

/-- The nodes all of whose remaining uses come from one arm. -/
def exclusive (g : Graph) (root : NodeId) (done : Finset NodeId) (arm : NodeId) : Finset NodeId :=
  (range (arm + 1)).filter fun x =>
    0 < (g.armUses (g.remaining root done) arm).getD x 0 ∧
      (g.armUses (g.remaining root done) arm).getD x 0 = g.remaining root done x

theorem WellFormed.getD_armUses (w : g.WellFormed) (hx : x < g.size) :
    (g.armUses (g.remaining root D) arm).getD x 0 = (if x = arm then 1 else 0) +
      ∑ y ∈ g.exclusive root D arm, g.edges y x := by
  have := w.getD_countUses (fun id n => 0 < n && n == g.remaining root D id) (arm + 1)
    (addUses (Array.replicate g.size 0) [arm]) (x := x)
    (by rwa [size_addUses, Array.size_replicate])
  rw [getD_start hx] at this
  rw [armUses, this]
  congr 1
  refine sum_congr (filter_congr fun y _ => ?_) fun _ _ => rfl
  rw [Bool.and_eq_true, decide_eq_true_eq, beq_iff_eq]
  rfl

theorem le_of_mem_exclusive (h : x ∈ g.exclusive root D arm) : x ≤ arm :=
  Nat.le_of_lt_succ (mem_range.1 (mem_filter.1 h).1)

theorem notMem_of_mem_exclusive (h : x ∈ g.exclusive root D arm) : x ∉ D := by
  obtain ⟨-, hpos, heq⟩ := mem_filter.1 h
  intro hD
  rw [remaining, if_pos hD] at heq
  omega

theorem pending_of_mem_exclusive (h : x ∈ g.exclusive root D arm) :
    (g.armUses (g.remaining root D) arm).getD x 0 = g.pending root D x := by
  rw [(mem_filter.1 h).2.2, remaining, if_neg (notMem_of_mem_exclusive h)]

/-- A node with a use in the arm is its result or an operand of an exclusive node. -/
theorem WellFormed.armUses_pos (w : g.WellFormed) (hx : x < g.size)
    (h : 0 < (g.armUses (g.remaining root D) arm).getD x 0) :
    x = arm ∨ ∃ y ∈ g.exclusive root D arm, x ∈ g.operandsOf y := by
  rw [w.getD_armUses hx] at h
  by_cases harm : x = arm
  · exact .inl harm
  · rw [if_neg harm, Nat.zero_add] at h
    obtain ⟨y, hy, hyx⟩ := exists_ne_zero_of_sum_ne_zero (Nat.pos_iff_ne_zero.1 h)
    exact .inr ⟨y, hy, edges_pos.1 (Nat.pos_of_ne_zero hyx)⟩

theorem WellFormed.reaches_of_mem_exclusive (w : g.WellFormed) (harm : arm < g.size)
    (h : x ∈ g.exclusive root D arm) : g.Reaches arm x := by
  induction hk : arm - x using Nat.strongRecOn generalizing x with
  | ind k ih =>
    have hle := le_of_mem_exclusive h
    rcases w.armUses_pos (Nat.lt_of_le_of_lt hle harm) (mem_filter.1 h).2.1 with rfl | ⟨y, hy, hyx⟩
    · exact .refl
    · have hlt := w.operandsOf_lt hyx
      have hle := le_of_mem_exclusive hy
      exact (ih (arm - y) (by omega) hy rfl).step hyx

/-- An arm of a conditional that is not done yet. -/
structure Arm (g : Graph) (root : NodeId) (D : Finset NodeId) (s arm : NodeId) : Prop where
  root_lt : root < g.size
  closed : g.Closed D
  user : s ∈ g.below root
  open_ : s ∉ D
  operand : arm ∈ g.operandsOf s

namespace Arm

variable (w : g.WellFormed) (h : g.Arm root D s arm)
include w h

theorem lt : arm < s := w.operandsOf_lt h.operand

theorem lt_size : arm < g.size := Nat.lt_trans (h.lt w) (lt_size_of_mem_below h.user)

theorem below_subset : g.below arm ⊆ g.below root :=
  w.below_subset h.root_lt (w.operand_mem_below h.root_lt h.user h.operand)

theorem user_notMem : s ∉ g.exclusive root D arm := fun hs =>
  absurd (le_of_mem_exclusive hs) (Nat.not_le.2 (h.lt w))

theorem exclusive_subset : g.exclusive root D arm ⊆ g.below root \ D := by
  intro x hx
  have hb := (w.mem_below (h.lt_size w)).2 (w.reaches_of_mem_exclusive (h.lt_size w) hx)
  exact mem_sdiff.2 ⟨h.below_subset w hb, notMem_of_mem_exclusive hx⟩

/-- Reads to come, split into those of exclusive nodes and the others. -/
theorem pending_eq : g.pending root D x = (if x = root then 1 else 0) +
    (∑ y ∈ g.exclusive root D arm, g.edges y x +
      ∑ y ∈ (g.below root \ D) \ g.exclusive root D arm, g.edges y x) := by
  rw [pending, add_comm (∑ y ∈ g.exclusive root D arm, g.edges y x),
    sum_sdiff (h.exclusive_subset w)]

theorem user_mem : s ∈ (g.below root \ D) \ g.exclusive root D arm :=
  mem_sdiff.2 ⟨mem_sdiff.2 ⟨h.user, h.open_⟩, h.user_notMem w⟩

theorem armUses_le (hx : x < g.size) :
    (g.armUses (g.remaining root D) arm).getD x 0 ≤ g.pending root D x := by
  have := single_le_sum (f := fun y => g.edges y x) (fun _ _ => Nat.zero_le _) (h.user_mem w)
  rw [w.getD_armUses hx, h.pending_eq w]
  by_cases hxa : x = arm
  · have : 0 < g.edges s x := edges_pos.2 (hxa ▸ h.operand)
    rw [if_pos hxa]
    omega
  · rw [if_neg hxa]
    omega

/-- The readers of an exclusive node: the conditional reads it as this arm only,
and any other reader is exclusive too. -/
theorem edges_of_mem_exclusive (hx : x ∈ g.exclusive root D arm) :
    x ≠ root ∧ g.edges s x = (if x = arm then 1 else 0) ∧
      ∀ y ∈ g.below root, y ∉ D → y ≠ s → x ∈ g.operandsOf y → y ∈ g.exclusive root D arm := by
  have hlt := Nat.lt_of_le_of_lt (le_of_mem_exclusive hx) (h.lt_size w)
  have eq := pending_of_mem_exclusive hx
  rw [w.getD_armUses hlt, h.pending_eq w] at eq
  have most := single_le_sum (f := fun y => g.edges y x) (fun _ _ => Nat.zero_le _) (h.user_mem w)
  have least : (if x = arm then 1 else 0) ≤ g.edges s x := by
    split
    · next hxa => exact edges_pos.2 (hxa ▸ h.operand)
    · exact Nat.zero_le _
  refine ⟨fun hroot => ?_, by omega, fun y hy hD hys operand => ?_⟩
  · rw [if_pos hroot] at eq
    omega
  · by_contra hE
    have hmem : y ∈ (g.below root \ D) \ g.exclusive root D arm :=
      mem_sdiff.2 ⟨mem_sdiff.2 ⟨hy, hD⟩, hE⟩
    have both := sum_le_sum_of_subset (f := fun y => g.edges y x)
      (insert_subset (h.user_mem w) (singleton_subset_iff.2 hmem))
    rw [sum_pair (Ne.symm hys)] at both
    have := edges_pos.2 operand
    omega

/-- When everything shared is done, what an arm still reaches is exclusive to it. -/
theorem mem_exclusive_of_reaches (le : D ⊆ D') (closed : g.Closed D')
    (shared : ∀ x < g.size,
      isShared (g.remaining root D) (g.armUses (g.remaining root D) arm) x = true → x ∈ D')
    (r : g.Reaches arm x) (hx : x ∉ D') : x ∈ g.exclusive root D arm := by
  have used (z : Nat) (hz : g.Reaches arm z) (hD : z ∉ D')
      (pos : 0 < (g.armUses (g.remaining root D) arm).getD z 0) :
      z ∈ g.exclusive root D arm := by
    have hlt := hz.lt_size w (h.lt_size w)
    have hle := h.armUses_le w hlt
    have hrem : g.remaining root D z = g.pending root D z := if_neg fun hz => hD (le hz)
    refine mem_filter.2 ⟨mem_range.2 (Nat.lt_succ_of_le (hz.le w)), pos, ?_⟩
    by_contra hne
    refine hD (shared z hlt ?_)
    rw [isShared, Bool.and_eq_true, decide_eq_true_eq, decide_eq_true_eq]
    exact ⟨pos, by omega⟩
  induction r with
  | refl =>
    refine used arm .refl hx ?_
    rw [w.getD_armUses (h.lt_size w), if_pos rfl]
    omega
  | @step b c before operand ih =>
    have hb : b ∈ g.exclusive root D arm := ih fun hb => hx (closed b hb c operand)
    refine used c (before.step operand) hx ?_
    rw [w.getD_armUses ((before.step operand).lt_size w (h.lt_size w))]
    have := single_le_sum (f := fun y => g.edges y c) (fun _ _ => Nat.zero_le _) hb
    have := edges_pos.2 operand
    omega

/-- After the arm a node that was left to it has no reads but that of the arm's result. -/
theorem pending_after (le : D ⊆ D') (hs : s ∉ D') (hx : x ∈ g.exclusive root D arm) :
    g.pending root (D' ∪ g.below arm) x = if x = arm then 1 else 0 := by
  obtain ⟨hroot, hedges, users⟩ := h.edges_of_mem_exclusive w hx
  have hsb : s ∉ g.below arm := fun hb =>
    absurd (w.le_of_mem_below (h.lt_size w) hb) (Nat.not_le.2 (h.lt w))
  rw [pending, if_neg hroot, Nat.zero_add, ← hedges]
  refine sum_eq_single_of_mem s
    (mem_sdiff.2 ⟨h.user, fun hm => (mem_union.1 hm).elim hs hsb⟩) fun y hy hys => ?_
  obtain ⟨hy, hm⟩ := mem_sdiff.1 hy
  refine edges_eq_zero fun operand => hm (mem_union_right _ ?_)
  have hyE := users y hy (fun hD => hm (mem_union_left _ (le hD))) hys operand
  exact (w.mem_below (h.lt_size w)).2 (w.reaches_of_mem_exclusive (h.lt_size w) hyE)

end Arm

/-- The two arms of a conditional have no exclusive node in common. -/
theorem WellFormed.exclusive_disjoint (w : g.WellFormed) (hroot : root < g.size)
    (closed : g.Closed D) (hs : s ∈ g.below root) (hD : s ∉ D) (hops : g.operandsOf s = [c, a, b])
    (hxa : x ∈ g.exclusive root D a) : x ∉ g.exclusive root D b := by
  have ha : g.Arm root D s a := ⟨hroot, closed, hs, hD, by simp [hops]⟩
  have hb : g.Arm root D s b := ⟨hroot, closed, hs, hD, by simp [hops]⟩
  intro hxb
  induction hk : s - x using Nat.strongRecOn generalizing x with
  | ind k ih =>
    have hle := le_of_mem_exclusive hxa
    have hlt := ha.lt w
    rcases w.armUses_pos (Nat.lt_of_le_of_lt hle (ha.lt_size w)) (mem_filter.1 hxa).2.1 with
      rfl | ⟨y, hy, hyx⟩
    · have := (hb.edges_of_mem_exclusive w hxb).2.1
      rw [edges, hops] at this
      simp only [List.count_cons, List.count_nil, beq_iff_eq, if_true, Nat.zero_add] at this
      by_cases hxb' : b = x
      · rw [if_pos hxb', if_pos hxb'.symm] at this
        omega
      · rw [if_neg hxb', if_neg (Ne.symm hxb')] at this
        omega
    · have hyle := le_of_mem_exclusive hy
      have := w.operandsOf_lt hyx
      obtain ⟨hyb, hyD⟩ := mem_sdiff.1 (ha.exclusive_subset w hy)
      have := (hb.edges_of_mem_exclusive w hxb).2.2 y hyb hyD
        (Nat.ne_of_lt (Nat.lt_of_le_of_lt hyle hlt)) hyx
      exact ih (s - y) (by omega) hy this rfl

end NativeExpr.Graph
