import NativeExpr.Lowering.Conditional
import NativeExpr.Proofs.Graph.Construction
import NativeExpr.Proofs.Graph.Evaluation

/-!
# Graphs that grew

Factory calls leave the first nodes of a graph and its parameters as they are. So everything that
is found from one of these nodes on stays the same: the uses that a walk counts, the nodes two
arms share, and the value of the node. The counts of parents are no part of this.
-/
namespace NativeExpr

namespace Graph

/-- Whether a graph begins with the nodes of another one and has the same parameters. -/
structure Begins (g g' : Graph) : Prop where
  params : g'.params = g.params
  size_le : g.size ≤ g'.size
  node? : ∀ id < g.size, g'.node? id = g.node? id

variable {g g' : Graph} {id root x : NodeId}

theorem begins_extend (g : Graph) (calls : List (Session × Factory)) :
    g.Begins (g.extend calls) := by
  have admits : Admits g.Begins := fun {h n} begins _ _ _ => by
    refine ⟨begins.params, ?_, fun id inside => ?_⟩
    · rw [size_push]
      exact Nat.le_succ_of_le begins.size_le
    · rw [node?_push, if_neg (Nat.ne_of_lt (Nat.lt_of_lt_of_le inside begins.size_le))]
      exact begins.node? id inside
  exact admits.extend ⟨rfl, Nat.le_refl _, fun _ _ => rfl⟩ calls

/-! ## Counted uses -/

/-- Whether a longer table has the same counts, and none behind the end of the shorter one. -/
structure Pads (uses uses' : Array Nat) : Prop where
  size_le : uses.size ≤ uses'.size
  getD_eq : ∀ x, uses'.getD x 0 = uses.getD x 0

theorem getD_of_le {uses : Array Nat} (h : uses.size ≤ x) : uses.getD x 0 = 0 := by
  rw [Array.getD_eq_getD_getElem?, Array.getElem?_eq_none h, Option.getD_none]

theorem Pads.addUses {uses uses' : Array Nat} (h : Pads uses uses') {ops : List NodeId}
    (inside : ∀ x ∈ ops, x < uses.size) :
    Pads (Graph.addUses uses ops) (Graph.addUses uses' ops) where
  size_le := by
    rw [size_addUses, size_addUses]
    exact h.size_le
  getD_eq := fun x => by
    by_cases hx : x < uses.size
    · rw [getD_addUses _ _ hx, getD_addUses _ _ (Nat.lt_of_lt_of_le hx h.size_le), h.getD_eq]
    · have none : ops.count x = 0 := List.count_eq_zero.2 fun hm => hx (inside x hm)
      have same (uses : Array Nat) : (Graph.addUses uses ops).getD x 0 = uses.getD x 0 := by
        by_cases hx : x < uses.size
        · rw [getD_addUses _ _ hx, none, Nat.add_zero]
        · have outside := Nat.not_lt.1 hx
          rw [getD_of_le outside, getD_of_le (by rwa [size_addUses])]
      rw [same, same, h.getD_eq]

theorem pads_replicate {m n : Nat} (le : m ≤ n) :
    Pads (Array.replicate m 0) (Array.replicate n 0) where
  size_le := by rwa [Array.size_replicate, Array.size_replicate]
  getD_eq := fun x => by
    have zero (n : Nat) : (Array.replicate n 0).getD x 0 = 0 := by
      rw [Array.getD_eq_getD_getElem?, Array.getElem?_replicate]
      split <;> rfl
    rw [zero, zero]

namespace Begins

variable (h : g.Begins g')
include h

theorem node_eq (inside : id < g.size) : g'.node id = g.node id := by
  rw [node, node, h.node? id inside]

theorem operandsOf_eq (inside : id < g.size) : g'.operandsOf id = g.operandsOf id := by
  rw [operandsOf, operandsOf, h.node? id inside]

theorem paramTypes_eq (w : g.WellFormed) : g'.paramTypes = g.paramTypes := by
  rw [paramTypes, paramTypes, h.params]
  refine List.filterMap_congr fun id hid => ?_
  obtain ⟨i, hi⟩ := List.mem_iff_getElem?.1 hid
  obtain ⟨ty, hn⟩ := w.bound hi
  rw [h.node? id (node?_lt hn)]

/-- A walk from a node that was there before goes the same way. -/
theorem pads_countUses (w : g.WellFormed) {opens : NodeId → Nat → Bool} {bound : Nat}
    (inside : bound ≤ g.size) {uses uses' : Array Nat} (size : uses.size = g.size)
    (pads : Pads uses uses') :
    Pads (g.countUses opens bound uses) (g'.countUses opens bound uses') := by
  induction bound generalizing uses uses' with
  | zero => exact pads
  | succ id ih =>
    rw [countUses, countUses, pads.getD_eq, h.operandsOf_eq inside]
    split
    · refine ih (Nat.le_of_succ_le inside) (by rw [size_addUses, size])
        (pads.addUses fun x hx => ?_)
      exact size ▸ Nat.lt_trans (w.operandsOf_lt hx) inside
    · exact ih (Nat.le_of_succ_le inside) size pads

/-- Whatever a walk opens, it starts with one use of its first node. -/
theorem pads_walk (w : g.WellFormed) (opens : NodeId → Nat → Bool) (inside : root < g.size) :
    Pads (g.countUses opens (root + 1) (Graph.addUses (Array.replicate g.size 0) [root]))
      (g'.countUses opens (root + 1) (Graph.addUses (Array.replicate g'.size 0) [root])) := by
  refine h.pads_countUses w inside (by rw [size_addUses, Array.size_replicate])
    ((pads_replicate h.size_le).addUses fun x hx => ?_)
  rw [Array.size_replicate, List.mem_singleton.1 hx]
  exact inside

theorem pads_reachableUses (w : g.WellFormed) (inside : root < g.size) :
    Pads (g.reachableUses root) (g'.reachableUses root) := h.pads_walk w _ inside

theorem pads_armUses (w : g.WellFormed) (remaining : NodeId → Nat) (inside : x < g.size) :
    Pads (g.armUses remaining x) (g'.armUses remaining x) := h.pads_walk w _ inside

/-- The same nodes are needed in both of two arms or outside of them. -/
theorem sharedNodes_eq (w : g.WellFormed) {a b : NodeId} (ha : a < g.size) (hb : b < g.size)
    (remaining : NodeId → Nat) :
    Lowering.sharedNodes g' remaining a b = Lowering.sharedNodes g remaining a b := by
  have same {arm : NodeId} (inside : arm < g.size) (id : NodeId) :
      Lowering.isShared remaining (g'.armUses remaining arm) id =
        Lowering.isShared remaining (g.armUses remaining arm) id := by
    rw [Lowering.isShared, Lowering.isShared, (h.pads_armUses w remaining inside).getD_eq]
  have outside {arm id : NodeId} (le : g.size ≤ id) :
      Lowering.isShared remaining (g.armUses remaining arm) id = false := by
    have size : (g.armUses remaining arm).size = g.size := by
      rw [armUses, size_countUses, size_addUses, Array.size_replicate]
    simp [Lowering.isShared, getD_of_le (size ▸ le)]
  obtain ⟨more, hm⟩ := Nat.exists_eq_add_of_le h.size_le
  rw [Lowering.sharedNodes, Lowering.sharedNodes, hm, List.range_add, List.filter_append]
  simp only [same ha, same hb]
  refine (congrArg _ (List.filter_eq_nil_iff.2 fun id hid => ?_)).trans (List.append_nil _)
  obtain ⟨i, -, rfl⟩ := List.mem_map.1 hid
  simp [outside (Nat.le_add_right g.size i)]

/-! ## Values -/

theorem value_eq (w : g.WellFormed) (w' : g'.WellFormed) (args : List Value)
    (memory : Option Memory) (inside : id < g.size) :
    Scope.value ⟨g', args, memory⟩ id = Scope.value ⟨g, args, memory⟩ id := by
  induction id using Nat.strong_induction_on with
  | h id ih =>
    obtain ⟨n, hn⟩ := node?_of_lt inside
    have hn' : g'.node? id = some n := (h.node? id inside).trans hn
    refine (Scope.value_eq w' hn').trans (Eq.trans ?_ (Scope.value_eq w hn).symm)
    refine Scope.nodeValue_congr fun x hx => ?_
    have before := w.operands_lt hn x hx
    exact ih x before (Nat.lt_trans before inside)

/-- A node that was there before is evaluated to the same value or error. -/
theorem eval_eq (w : g.WellFormed) (w' : g'.WellFormed) (args : List Value)
    (memory : Option Memory) (inside : root < g.size) :
    Scope.eval ⟨g', args, memory⟩ root = Scope.eval ⟨g, args, memory⟩ root := by
  have checks : Scope.checkArgs ⟨g', args, memory⟩ = Scope.checkArgs ⟨g, args, memory⟩ := by
    rw [Scope.checkArgs, Scope.checkArgs, h.paramTypes_eq w]
  cases checked : Scope.checkArgs ⟨g, args, memory⟩ with
  | error e => rw [Scope.eval, Scope.eval, checks, checked]; rfl
  | ok u =>
    obtain ⟨found, -⟩ := Scope.eval_eq w checked inside
    obtain ⟨found', -⟩ := Scope.eval_eq w' (checks.trans checked)
      (Nat.lt_of_lt_of_le inside h.size_le)
    rw [found, found', h.value_eq w w' args memory inside]

end Begins

end Graph

end NativeExpr
