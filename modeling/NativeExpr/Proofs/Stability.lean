import NativeExpr.Proofs.Capacity
import NativeExpr.Proofs.Graph.Extension

/-!
# Functions of growing graphs

A graph may grow after a function was generated for one of its nodes. The nodes that are added can
use the ones that were there, but nothing that is generated or evaluated for these looks at
them: the lowering of both graphs goes in step.
-/
namespace NativeExpr

open Buffered

namespace Graph

variable {g g' : Graph} {root : NodeId} {o : Options}

namespace Begins

variable (h : g.Begins g') (w : g.WellFormed)
include h w

/-- Lowering knows both graphs by the nodes they have in common. -/
theorem kindred (root : NodeId) (fuse : Bool) :
    Lowering.Context.Kindred (· < g.size) ⟨g, root, fuse⟩ ⟨g', root, fuse⟩ where
  root := rfl
  fuse := rfl
  node := fun inside => h.node_eq inside
  operands := fun {id n} inside hn x hx =>
    Nat.lt_trans (w.operands_lt (node_eq_ok.1 hn) x hx) inside
  shared := fun ha hb remaining => ⟨h.sharedNodes_eq w ha hb remaining, fun x hx =>
    List.mem_range.1 (List.mem_filter.1 hx).1⟩
  incoming := fun {t t'} covers => by
    refine ⟨?_, fun p hp => ?_⟩
    · simp only [Lowering.incoming, h.paramTypes_eq w, h.params, covers.entry_eq]
    · obtain ⟨q, hq, rfl⟩ := List.mem_map.1 (List.mem_filter.1 hp).1
      obtain ⟨i, hi⟩ := List.mem_iff_getElem?.1 (List.of_mem_zip hq).1
      obtain ⟨ty, hn⟩ := w.bound hi
      exact node?_lt hn

/-- All that differs at first are the tables, in their lengths. -/
theorem twin_initial (inside : root < g.size) :
    Lowering.Twin (· < g.size) (fun _ => True) (.initial g root o) (.initial g' root o) where
  asm := rfl
  regs := rfl
  frame := rfl
  stats := rfl
  values := by
    have pads := h.pads_reachableUses w inside
    have size : (Lowering.State.initial g root o).values.size = g.size := by
      rw [Lowering.State.initial, Array.size_map, size_reachableUses]
    refine ⟨?_, fun id known _ => size ▸ known, fun id lt => size ▸ lt, fun id => ?_⟩
    · rw [Lowering.State.initial, Lowering.State.initial, Array.size_map, Array.size_map]
      exact pads.size_le
    · rw [Lowering.entry_initial, Lowering.entry_initial, pads.getD_eq]
  held := RegisterFile.holds_new _ _
  assembled := trivial

theorem generate_eq (inside : root < g.size) : g'.generate root o = g.generate root o := by
  have inside' := Nat.lt_of_lt_of_le inside h.size_le
  have step := (Lowering.inStep_lowerBody (I := fun _ => True) (h.kindred w root o.fuseCompares)
    inside).at_ _ _ (h.twin_initial (o := o) w inside)
  have lowered {r r' : EStateM.Result CompileError Lowering.State Unit}
      (run : Lowering.lowerBody ⟨g, root, o.fuseCompares⟩ (.initial g root o) = r)
      (run' : Lowering.lowerBody ⟨g', root, o.fuseCompares⟩ (.initial g' root o) = r')
      (same : finish o.codeCapacity r' = finish o.codeCapacity r) :
      g'.generate root o = g.generate root o := by
    rw [generate_eq_finish inside, generate_eq_finish inside', run, run', same]
  rcases step.outcome o.codeCapacity with ⟨x, t, t', ⟨twin, -⟩, run, run'⟩ | ⟨e, t, t', run, run'⟩
  · exact lowered run run' (finish_congr (congrArg (within · o.codeCapacity) twin.asm) twin.regs
      twin.frame twin.stats)
  · exact lowered run run' rfl

end Begins

/-- Whatever is built after a node of a graph, the function that is generated for the node, its
frame, its counters or the error stay the same for all options, and so does the value of the
node for all arguments, with and without a memory. -/
theorem extend_stable (built : g.Built) (inside : root < g.size)
    (calls : List (Session × Factory)) :
    (∀ o, (g.extend calls).generate root o = g.generate root o) ∧
      (∀ args, (g.extend calls).evaluate root args = g.evaluate root args) ∧
      ∀ memory args, (g.extend calls).evaluateIn memory root args = g.evaluateIn memory root args :=
  have begins := g.begins_extend calls
  have w := built.wellFormed
  have w' := (built.extend calls).wellFormed
  ⟨fun _ => begins.generate_eq w inside, fun args => begins.eval_eq w w' args none inside,
    fun memory args => begins.eval_eq w w' args (some memory) inside⟩

/-- The distance of two numbers, multiplied by itself later on; a conditional on a number is
refused. -/
theorem extend_stable_distance : ∃ c, distance.generate 5 .default = .ok c ∧
    let grown := distance.extend [(roomy, .arith .mul 5 5), (roomy, .select 0 1 2)]
    distance.useCount 5 = .ok 0 ∧ grown.useCount 5 = .ok 1 ∧ grown.generate 5 .default = .ok c ∧
      grown.evaluate 5 [⟨.i64, 3⟩, ⟨.i64, 5⟩] = .ok ⟨.i64, 2⟩ := by
  obtain ⟨c, hc⟩ := exists_generate_distance
  obtain ⟨generates, evaluates, -⟩ := extend_stable built_distance
    (show 5 < distance.size by decide) [(roomy, .arith .mul 5 5), (roomy, .select 0 1 2)]
  exact ⟨c, hc, rfl, by decide +kernel, (generates _).trans hc,
    (evaluates _).trans (by decide +kernel)⟩

end Graph

end NativeExpr
