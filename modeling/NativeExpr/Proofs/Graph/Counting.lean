import Mathlib.Algebra.BigOperators.Group.Finset.Basic
import Mathlib.Algebra.Order.BigOperators.Group.Finset
import NativeExpr.Graph.Uses
import NativeExpr.Proofs.Graph.Typing

/-!
# Counting the uses of nodes

A walk from the last node to the first meets every node after all of its users.
So when it decides whether to open a node, the count it looks at is final, and
the counts it ends with are those of the operand entries of the opened nodes.
For the walk from a root the opened nodes are those that the root reaches.
-/
namespace NativeExpr.Graph

open NativeExpr Finset

/-- How often a node has another as an operand. -/
def edges (g : Graph) (y x : NodeId) : Nat := (g.operandsOf y).count x

/-- Whether a node is among the operands of another, or of its operands, and so on. -/
inductive Reaches (g : Graph) (a : NodeId) : NodeId → Prop
  | refl : Reaches g a a
  | step {b c : NodeId} (before : Reaches g a b) (operand : c ∈ g.operandsOf b) : Reaches g a c

variable {g : Graph} {a b c x y id root : Nat}

theorem Reaches.trans (h : g.Reaches a b) (h' : g.Reaches b c) : g.Reaches a c := by
  induction h' with
  | refl => exact h
  | step _ operand ih => exact ih.step operand

theorem Reaches.of_operand (h : c ∈ g.operandsOf a) : g.Reaches a c := .step .refl h

theorem edges_pos : 0 < g.edges y x ↔ x ∈ g.operandsOf y := List.count_pos_iff

theorem edges_eq_zero (h : x ∉ g.operandsOf y) : g.edges y x = 0 := List.count_eq_zero.2 h

theorem WellFormed.operandsOf_lt (w : g.WellFormed) (h : x ∈ g.operandsOf y) : x < y := by
  unfold operandsOf at h
  cases hn : g.node? y with
  | none => simp [hn] at h
  | some n =>
    simp only [hn, Option.map_some, Option.getD_some] at h
    exact w.operands_lt hn x h

theorem WellFormed.edges_eq_zero_of_le (w : g.WellFormed) (h : y ≤ x) : g.edges y x = 0 :=
  edges_eq_zero fun hx => absurd (w.operandsOf_lt hx) (Nat.not_lt.2 h)

theorem Reaches.le (w : g.WellFormed) (h : g.Reaches a b) : b ≤ a := by
  induction h with
  | refl => exact Nat.le_refl _
  | step _ operand ih => exact Nat.le_trans (Nat.le_of_lt (w.operandsOf_lt operand)) ih

theorem Reaches.lt_size (w : g.WellFormed) (ha : a < g.size) (h : g.Reaches a b) : b < g.size :=
  Nat.lt_of_le_of_lt (h.le w) ha

/-! ## The walk -/

theorem size_addUses (uses : Array Nat) (ops : List NodeId) :
    (addUses uses ops).size = uses.size := by
  induction ops generalizing uses with
  | nil => rfl
  | cons id ops ih => exact (ih _).trans Array.size_modify

theorem getD_addUses (uses : Array Nat) (ops : List NodeId) (hx : x < uses.size) :
    (addUses uses ops).getD x 0 = uses.getD x 0 + ops.count x := by
  induction ops generalizing uses with
  | nil => rfl
  | cons id ops ih =>
    have bumped : (uses.modify id (· + 1)).getD x 0 = uses.getD x 0 + if id = x then 1 else 0 := by
      simp only [Array.getD_eq_getD_getElem?, Array.getElem?_modify, Array.getElem?_eq_getElem hx]
      split <;> simp
    rw [show addUses uses (id :: ops) = addUses (uses.modify id (· + 1)) ops from rfl,
      ih _ (by rwa [Array.size_modify]), bumped, List.count_cons]
    simp only [beq_iff_eq]
    omega

theorem size_countUses (opens : NodeId → Nat → Bool) (bound : Nat) (uses : Array Nat) :
    (g.countUses opens bound uses).size = uses.size := by
  induction bound generalizing uses with
  | zero => rfl
  | succ id ih =>
    rw [countUses, ih]
    split
    · exact size_addUses ..
    · rfl

/-- The counts a walk ends with: those it began with and the operand entries of
the nodes it opened, which the final counts tell. -/
theorem WellFormed.getD_countUses (w : g.WellFormed) (opens : NodeId → Nat → Bool) (bound : Nat)
    (uses : Array Nat) (hx : x < uses.size) :
    (g.countUses opens bound uses).getD x 0 = uses.getD x 0 +
      ∑ y ∈ (range bound).filter fun y => opens y ((g.countUses opens bound uses).getD y 0),
        g.edges y x := by
  induction bound generalizing uses x with
  | zero => rfl
  | succ id ih =>
    rw [countUses]
    generalize hu : (if opens id (uses.getD id 0) = true then addUses uses (g.operandsOf id)
      else uses) = uses'
    have size : uses'.size = uses.size := by
      by_cases hop : opens id (uses.getD id 0) = true
      · rw [← hu, if_pos hop, size_addUses]
      · rw [← hu, if_neg hop]
    have added : ∀ z < uses.size, uses'.getD z 0 = uses.getD z 0 +
        if opens id (uses.getD id 0) = true then g.edges id z else 0 := by
      intro z hz
      by_cases hop : opens id (uses.getD id 0) = true
      · rw [← hu, if_pos hop, if_pos hop, getD_addUses _ _ hz, edges]
      · rw [← hu, if_neg hop, if_neg hop, Nat.add_zero]
    have fixed : (g.countUses opens id uses').getD id 0 = uses.getD id 0 := by
      by_cases hid : id < uses.size
      · rw [ih _ (size ▸ hid), added id hid, w.edges_eq_zero_of_le (Nat.le_refl id), ite_self,
          Nat.add_zero, sum_eq_zero fun y hy => ?_, Nat.add_zero]
        exact w.edges_eq_zero_of_le (Nat.le_of_lt (mem_range.1 (mem_filter.1 hy).1))
      · -- past the end of the table the walk counts nothing
        have outside : ∀ t : Array Nat, t.size = uses.size → t.getD id 0 = 0 := fun t ht => by
          simp [Array.getD, show ¬ id < t.size by omega]
        rw [outside _ ((size_countUses ..).trans size), outside _ rfl]
    rw [ih _ (size ▸ hx), added x hx, range_add_one, filter_insert, fixed]
    by_cases hop : opens id (uses.getD id 0) = true
    · rw [if_pos hop, if_pos hop, sum_insert (by simp), Nat.add_assoc]
    · rw [if_neg hop, if_neg hop, Nat.add_zero]

/-! ## Reachable nodes -/

theorem size_reachableUses : (g.reachableUses root).size = g.size := by
  rw [reachableUses, size_countUses, size_addUses, Array.size_replicate]

theorem getD_start (hx : x < g.size) :
    (addUses (Array.replicate g.size 0) [root]).getD x 0 = if x = root then 1 else 0 := by
  have zero : (Array.replicate g.size 0).getD x 0 = 0 := by
    rw [Array.getD_eq_getD_getElem?, Array.getElem?_replicate, if_pos hx, Option.getD_some]
  rw [getD_addUses _ _ (by rwa [Array.size_replicate]), List.count_singleton, zero, Nat.zero_add]
  by_cases h : x = root
  · rw [if_pos h, if_pos (by rw [h, beq_self_eq_true])]
  · rw [if_neg h, if_neg (by rw [beq_iff_eq]; exact fun e => h e.symm)]

theorem WellFormed.getD_reachableUses (w : g.WellFormed) (hx : x < g.size) :
    (g.reachableUses root).getD x 0 = (if x = root then 1 else 0) +
      ∑ y ∈ (range (root + 1)).filter fun y => 0 < (g.reachableUses root).getD y 0,
        g.edges y x := by
  have := w.getD_countUses (fun _ n => 0 < n) (root + 1)
    (addUses (Array.replicate g.size 0) [root]) (x := x)
    (by rwa [size_addUses, Array.size_replicate])
  rw [getD_start hx] at this
  rw [reachableUses, this]
  congr 1
  exact sum_congr (filter_congr fun y _ => by rw [decide_eq_true_eq]) fun _ _ => rfl

theorem WellFormed.reachableUses_pos (w : g.WellFormed) (hr : root < g.size) (hx : x < g.size) :
    0 < (g.reachableUses root).getD x 0 ↔ g.Reaches root x := by
  constructor
  · -- a counted node is the root or an operand of a counted node, which stands behind it
    intro h
    induction hk : root + 1 - x using Nat.strongRecOn generalizing x with
    | ind k ih =>
      rw [w.getD_reachableUses hx] at h
      by_cases hroot : x = root
      · exact hroot ▸ .refl
      · rw [if_neg hroot, Nat.zero_add] at h
        obtain ⟨y, hy, hyx⟩ := exists_ne_zero_of_sum_ne_zero (Nat.pos_iff_ne_zero.1 h)
        obtain ⟨hy, hy0⟩ := mem_filter.1 hy
        have hy := mem_range.1 hy
        have operand := edges_pos.1 (Nat.pos_of_ne_zero hyx)
        have hlt := w.operandsOf_lt operand
        exact (ih (root + 1 - y) (by omega) (by omega) hy0 rfl).step operand
  · intro h
    induction h with
    | refl =>
      rw [w.getD_reachableUses hx]
      simp
    | @step b c hb operand ih =>
      have hlt := w.operandsOf_lt operand
      have hb' := hb.le w
      rw [w.getD_reachableUses hx]
      refine Nat.lt_of_lt_of_le (edges_pos.2 operand) (Nat.le_trans ?_ (Nat.le_add_left _ _))
      exact single_le_sum (f := fun y => g.edges y c) (fun _ _ => Nat.zero_le _)
        (mem_filter.2 ⟨mem_range.2 (by omega), ih (by omega)⟩)

/-- The nodes that a node reaches, itself included. -/
def below (g : Graph) (id : NodeId) : Finset NodeId :=
  (range g.size).filter fun x => 0 < (g.reachableUses id).getD x 0

theorem WellFormed.mem_below (w : g.WellFormed) (hid : id < g.size) :
    x ∈ g.below id ↔ g.Reaches id x := by
  rw [below, mem_filter, mem_range]
  constructor
  · rintro ⟨hx, hpos⟩
    exact (w.reachableUses_pos hid hx).1 hpos
  · intro h
    have hx := h.lt_size w hid
    exact ⟨hx, (w.reachableUses_pos hid hx).2 h⟩

theorem lt_size_of_mem_below (h : x ∈ g.below id) : x < g.size :=
  mem_range.1 (mem_filter.1 h).1

/-- Reads of a node that are still to come when the nodes of `done` have made
theirs: operand entries of the other nodes that the root reaches, and the return. -/
def pending (g : Graph) (root : NodeId) (done : Finset NodeId) (x : NodeId) : Nat :=
  (if x = root then 1 else 0) + ∑ y ∈ g.below root \ done, g.edges y x

/-- Before anything is generated the counted uses are all reads to come. -/
theorem WellFormed.reachableUses_eq_pending (w : g.WellFormed) (hr : root < g.size)
    (hx : x < g.size) : (g.reachableUses root).getD x 0 = g.pending root ∅ x := by
  rw [w.getD_reachableUses hx, pending, sdiff_empty]
  congr 1
  refine sum_congr (ext fun y => ?_) fun _ _ => rfl
  simp only [below, mem_filter, mem_range]
  constructor
  · exact fun h => ⟨by omega, h.2⟩
  · exact fun h => ⟨Nat.lt_succ_of_le (((w.reachableUses_pos hr h.1).1 h.2).le w), h.2⟩

end NativeExpr.Graph
