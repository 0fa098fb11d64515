import NativeExpr.Proofs.Graph.Bypass
import NativeExpr.Proofs.Lowering.Journal

/-!
# What is left to an arm

Of a conditional one arm runs. So a node may get its code in an arm only if nothing outside the
arm reads it. That is so if every way to the node from the root goes through the arm. Any other
node that an arm needs has its code before the branch.
-/
namespace NativeExpr

open NativeExpr.Graph Lowering

namespace Lowering

variable {journal : List Note} {m m' : Mark} {x : NodeId}

/-- Whether a value is still to be found, and then to be read. -/
def Mark.Owes (m : Mark) (x : NodeId) : Prop := 0 < remainingUses m.tables.values x

instance : Decidable (m.Owes x) := inferInstanceAs (Decidable (0 < remainingUses _ _))

namespace Meeting

variable (m : Meeting) (taken : Bool)

def armStart : Mark := if taken then m.branch else m.thenEnd

def armEnd : Mark := if taken then m.thenEnd else m.elseEnd

/-- The nodes that got their code in an arm. -/
def emitted (journal : List Note) : List NodeId :=
  loweredBetween journal (m.armStart taken) (m.armEnd taken)

end Meeting

/-- Between two points are all reads of a value that are as many there as in the whole journal. -/
theorem bounds_of_count_readBetween (le : m.noted ≤ m'.noted)
    (all : (readBetween journal m m').count x = (journal.filterMap Note.read?).count x)
    {i left : Nat} (read : journal.reverse[i]? = some (.read x left)) :
    m.noted ≤ i ∧ i < m'.noted := by
  have parts : journal.reverse = journal.reverse.take m.noted ++ between journal m m' ++
      journal.reverse.drop m'.noted := by
    have first := List.take_append_drop m.noted (journal.reverse.take m'.noted)
    rw [List.take_take, Nat.min_eq_left le] at first
    rw [between, first, List.take_append_drop]
  have total := all
  rw [← List.count_reverse (l := journal.filterMap _), ← List.filterMap_reverse, parts,
    List.filterMap_append, List.filterMap_append, List.count_append, List.count_append,
    readBetween] at total
  have none (notes : List Note) (zero : (notes.filterMap Note.read?).count x = 0) :
      .read x left ∉ notes := fun mem =>
    List.count_eq_zero.1 zero (List.mem_filterMap.2 ⟨_, mem, rfl⟩)
  constructor
  · refine Nat.not_lt.1 fun lt => none (journal.reverse.take m.noted) (by omega) ?_
    refine List.mem_of_getElem? (i := i) ?_
    rwa [List.getElem?_take_of_lt lt]
  · refine Nat.not_le.1 fun ge => none (journal.reverse.drop m'.noted) (by omega) ?_
    refine List.mem_of_getElem? (i := i - m'.noted) ?_
    rwa [List.getElem?_drop, Nat.add_sub_cancel' ge]

end Lowering

namespace Graph

variable {g : Graph} {root s c a b x : NodeId} {o : Options} {D : Finset NodeId}
variable {start branch : Mark} {earlier : List Note}

/-- What becomes of a node that an arm needs and whose value is to be found when the lowering of
the conditional `s` begins. All its reads are to come. It is left to the arm if, and only if, these
are made by nodes that are left to the arm or by the conditional once and as this arm. So it is if,
and only if, there is no way to it around the arm. Otherwise it gets its code before the branch. -/
structure Sorted (g : Graph) (root s a b : NodeId) (kept : List NodeId) (taken : Bool)
    (start branch : Mark) (journal : List Note) (x : NodeId) : Prop where
  uses : remainingUses start.tables.values x = g.pending root ∅ x
  left_iff_readers : branch.Owes x ↔ x ≠ root ∧ ∀ y, g.Reaches root y → x ∈ g.operandsOf y →
    (g.Reaches (armBy a b taken) y ∧ branch.Owes y) ∨
      y = s ∧ x = armBy a b taken ∧ (g.operandsOf s).count x = 1
  left_iff_ways : branch.Owes x ↔ ¬ g.Bypasses s kept root x
  hoisted : ¬ branch.Owes x → x ∈ loweredBetween journal start branch

theorem WellFormed.owes_iff (w : g.WellFormed) (hr : root < g.size) (closed : g.Closed D) {m : Mark}
    (remaining : remainingUses m.tables.values = g.remaining root D) (hx : g.Reaches root x) :
    m.Owes x ↔ x ∉ D := by
  rw [Mark.Owes, remaining, Graph.remaining]
  constructor
  · intro owes hD
    rw [if_pos hD] at owes
    exact Nat.lt_irrefl 0 owes
  · intro hD
    rw [if_neg hD]
    exact w.pending_pos hr closed ((w.mem_below hr).2 hx) hD

end Graph

/-! ## At the branch -/

namespace Lowering.Parted

variable {g : Graph} {root s c a b x : NodeId} {D : Finset NodeId} {start branch : Mark}
variable {earlier : List Note} (h : Parted g root D s c a b start branch earlier)
include h

theorem reaches (w : g.WellFormed) (taken : Bool) (hx : g.Reaches (armBy a b taken) x) :
    g.Reaches root x := by
  have arm := h.fork.arm_of taken
  exact (((w.mem_below h.fork.root_lt).1 h.fork.user).step arm.operand).trans hx

theorem sorted (w : g.WellFormed) (taken : Bool) (hx : g.Reaches (armBy a b taken) x)
    (owed : start.Owes x) :
    g.Sorted root s a b (keptBy c a b taken) taken start branch earlier x := by
  have fork := h.fork
  have reached := h.reaches w taken hx
  have hD : x ∉ D := (w.owes_iff fork.root_lt fork.closed h.start reached).1 owed
  have left {y : NodeId} (hy : g.Reaches root y) :=
    w.owes_iff fork.root_lt (fork.closed_ahead w) h.branch hy
  refine ⟨?_, ?_, ?_, fun out => (h.lowered x).2 (Finset.mem_sdiff.2 ⟨?_, hD⟩)⟩
  · rw [h.start, Graph.remaining, if_neg hD]
    exact fork.closed.pending_eq hD
  · rw [left reached, fork.notMem_ahead_iff_readers w taken hx hD]
    refine and_congr_right fun _ => forall_congr' fun y => forall_congr' fun hy =>
      forall_congr' fun _ => or_congr_left (and_congr_right fun _ => (left hy).symm)
  · rw [left reached]
    exact fork.notMem_ahead_iff w taken hx hD
  · rwa [left reached, not_not] at out

end Lowering.Parted

/-! ## In the arms -/

namespace Lowering.Rejoined

variable {g : Graph} {root s c a b x : NodeId} {D : Finset NodeId} {m : Meeting}
variable {earlier journal : List Note} (h : Rejoined g root D s c a b m earlier)
include h

theorem arm_order (taken : Bool) : (m.armStart taken).noted ≤ (m.armEnd taken).noted ∧
    (m.armEnd taken).noted ≤ earlier.length := by
  obtain ⟨first, second, last⟩ := h.order
  cases taken with
  | true => exact ⟨first, second.trans last⟩
  | false => exact ⟨second, last⟩

/-- In an arm just those nodes get code that it needs and that were not done at the branch. -/
theorem mem_emitted (suffix : earlier <:+ journal) (taken : Bool) :
    x ∈ m.emitted taken journal ↔ x ∈ g.below (armBy a b taken) \ D := by
  rw [Meeting.emitted, loweredBetween, between_of_suffix suffix (h.arm_order taken).2]
  cases taken with
  | true => exact h.first x
  | false => exact h.second x

theorem count_readBetween (suffix : earlier <:+ journal) (taken : Bool)
    (hx : x ∈ g.below (armBy a b taken) \ D) :
    (readBetween journal (m.armStart taken) (m.armEnd taken)).count x = g.pending root D x := by
  rw [readBetween, between_of_suffix suffix (h.arm_order taken).2]
  cases taken with
  | true => exact h.firstReads x hx
  | false => exact h.secondReads x hx

end Lowering.Rejoined

namespace Graph

variable {g : Graph} {root x : NodeId} {o : Options} {k : Generated}

/-- A generated function reads every value as often as its root needs it. -/
theorem Built.count_reads (built : g.Built) (generated : g.generate root o = .ok k)
    (hx : x < g.size) :
    ((g.journal root o).filterMap Note.read?).count x = g.pending root ∅ x := by
  obtain ⟨σ, _, _, lowered, -⟩ := generate_eq_ok generated
  obtain ⟨E, finished⟩ := built.finished lowered
  obtain ⟨D, stage⟩ := finished.stage
  have reads := stage.grows.reads x
  have uses : (State.initial g root o).uses x = (g.reachableUses root).getD x 0 := by
    rw [State.uses, entry_initial]
  rw [finished.uses, uses, built.wellFormed.reachableUses_eq_pending (exists_lowering lowered).1 hx,
    Nat.zero_add] at reads
  rw [journal, lowered]
  exact reads

/-- A conditional that came to its branch sorted the nodes that its arms need: what is left to an
arm is what no way leads to around the arm, and anything else has its code. Where the arms met,
each arm has code for just what was left to it. So no node has code in both, and in a generated
function all reads of a node with code in an arm are made in the arm. Every conditional that a
generated function needs came to its branch, and its arms met. -/
theorem arms_exclusive (built : g.Built) :
    (∀ {s start branch}, .forked s start branch ∈ g.journal root o →
      ∃ n c a b, g.node? s = some n ∧ n.kind = .select c a b ∧ g.Reaches root s ∧
        ∀ taken x, g.Reaches (armBy a b taken) x → start.Owes x →
          g.Sorted root s a b (keptBy c a b taken) taken start branch (g.journal root o) x) ∧
    (∀ {s m}, .joined s m ∈ g.journal root o →
      (∃ start, .forked s start m.branch ∈ g.journal root o) ∧
      ∃ n c a b, g.node? s = some n ∧ n.kind = .select c a b ∧
        (∀ taken x, x ∈ m.emitted taken (g.journal root o) ↔
          g.Reaches (armBy a b taken) x ∧ m.branch.Owes x) ∧
        (∀ x ∈ m.emitted true (g.journal root o), x ∉ m.emitted false (g.journal root o)) ∧
        ∀ k, g.generate root o = .ok k → ∀ taken, ∀ x ∈ m.emitted taken (g.journal root o),
          ∀ i left, (g.journal root o).reverse[i]? = some (.read x left) →
            (m.armStart taken).noted ≤ i ∧ i < (m.armEnd taken).noted) ∧
    ∀ k, g.generate root o = .ok k → ∀ s n c a b, g.Reaches root s → g.node? s = some n →
      n.kind = .select c a b → ∃ m, .joined s m ∈ g.journal root o := by
  have w := built.wellFormed
  refine ⟨fun {s start branch} noted => ?_, fun {s m} noted => ?_,
    fun k generated s n c a b reaches hn kind => built.exists_joined generated reaches hn kind⟩
  · obtain ⟨earlier, suffix, D, c, a, b, parted⟩ := built.sound noted
    obtain ⟨n, hn, kind⟩ := parted.node
    refine ⟨n, c, a, b, hn, kind, (w.mem_below parted.fork.root_lt).1 parted.fork.user,
      fun taken x hx owed => ?_⟩
    have sorted := parted.sorted w taken hx owed
    have later : earlier <:+ g.journal root o := (List.suffix_cons ..).trans suffix
    refine { sorted with hoisted := fun out => ?_ }
    rw [loweredBetween, between_of_suffix later (Nat.le_of_eq parted.noted)]
    exact sorted.hoisted out
  · obtain ⟨earlier, suffix, -, D, c, a, b, joined⟩ := built.sound noted
    have fork := joined.fork
    have later : earlier <:+ g.journal root o := (List.suffix_cons ..).trans suffix
    obtain ⟨n, hn, kind⟩ := joined.node
    obtain ⟨start, before⟩ := joined.forked
    refine ⟨⟨start, later.subset before⟩, n, c, a, b, hn, kind, fun taken x => ?_,
      fun x hx hx' => ?_, fun k generated taken x hx i left read => ?_⟩
    · have arm := fork.arm_of taken
      have reached := w.mem_below (x := x) (arm.lt_size w)
      rw [joined.mem_emitted later, Finset.mem_sdiff, reached]
      refine and_congr_right fun hx => (w.owes_iff fork.root_lt fork.closed joined.branch ?_).symm
      exact (w.mem_below fork.root_lt).1 (arm.below_subset w (reached.2 hx))
    · obtain ⟨first, hD⟩ := Finset.mem_sdiff.1 ((joined.mem_emitted later true).1 hx)
      have new := (Finset.mem_sdiff.1 ((joined.mem_emitted later false).1 hx')).1
      exact hD (joined.apart x first new)
    · have mem := (joined.mem_emitted later taken).1 hx
      obtain ⟨below, hD⟩ := Finset.mem_sdiff.1 mem
      refine bounds_of_count_readBetween (joined.arm_order taken).1 ?_ read
      rw [joined.count_readBetween later taken mem, fork.closed.pending_eq hD,
        built.count_reads generated (lt_size_of_mem_below below)]

/-- The product of two numbers and the lesser one, or the product less the greater one. -/
def offset : Graph where
  nodes := #[⟨.parameter 0, .i64⟩, ⟨.parameter 1, .i64⟩, ⟨.arith .mul 0 1, .i64⟩,
    ⟨.compare .lt 0 1, .bool⟩, ⟨.arith .add 2 0, .i64⟩, ⟨.arith .sub 2 1, .i64⟩,
    ⟨.select 3 4 5, .i64⟩]
  params := [0, 1]
  parents := #[3, 3, 2, 1, 1, 1, 0]

theorem built_offset : offset.Built :=
  .of_built? [.i64, .i64]
    [.arith .mul 0 1, .compare .lt 0 1, .arith .add 2 0, .arith .sub 2 1, .select 3 4 5]
    (by decide +kernel)

theorem exists_forked_offset : ∃ start branch, .forked 6 start branch ∈ offset.journal 6 .default ∧
    start.Owes 2 ∧ ¬ branch.Owes 2 ∧ start.Owes 4 ∧ branch.Owes 4 := by
  have found : (offset.journal 6 .default).any (fun
      | .forked 6 start branch =>
        decide (start.Owes 2 ∧ ¬ branch.Owes 2 ∧ start.Owes 4 ∧ branch.Owes 4)
      | _ => false) = true := by decide +kernel
  obtain ⟨entry, noted, holds⟩ := List.any_eq_true.1 found
  split at holds
  · exact ⟨_, _, noted, of_decide_eq_true holds⟩
  · cases holds

theorem exists_joined_offset : ∃ m, .joined 6 m ∈ offset.journal 6 .default ∧
    4 ∈ m.emitted true (offset.journal 6 .default) := by
  have found : (offset.journal 6 .default).any (fun
      | .joined 6 m => decide (4 ∈ m.emitted true (offset.journal 6 .default))
      | _ => false) = true := by decide +kernel
  obtain ⟨entry, noted, holds⟩ := List.any_eq_true.1 found
  split at holds
  · exact ⟨_, noted, of_decide_eq_true holds⟩
  · cases holds

/-- The product is read in both arms and so found before the branch, the sum is left to its arm. -/
theorem arms_exclusive_offset :
    (∃ start branch, .forked 6 start branch ∈ offset.journal 6 .default ∧
      offset.Bypasses 6 [3, 5] 6 2 ∧ 2 ∈ loweredBetween (offset.journal 6 .default) start branch ∧
      ¬ offset.Bypasses 6 [3, 5] 6 4) ∧
    ∃ m, .joined 6 m ∈ offset.journal 6 .default ∧ 4 ∈ m.emitted true (offset.journal 6 .default) ∧
      4 ∉ m.emitted false (offset.journal 6 .default) := by
  obtain ⟨forks, joins, -⟩ := @arms_exclusive offset 6 .default built_offset
  constructor
  · obtain ⟨start, branch, noted, owed, found, sumOwed, sumLeft⟩ := exists_forked_offset
    obtain ⟨n, c, a, b, hn, kind, -, sorted⟩ := forks noted
    cases hn
    cases kind
    have product := sorted true 2 (.of_operand (List.mem_cons_self ..)) owed
    have sum := sorted true 4 .refl sumOwed
    refine ⟨start, branch, noted, ?_, product.hoisted found, sum.left_iff_ways.1 sumLeft⟩
    exact Classical.not_not.1 fun no => found (product.left_iff_ways.2 no)
  · obtain ⟨m, noted, mem⟩ := exists_joined_offset
    obtain ⟨-, n, c, a, b, -, -, -, apart, -⟩ := joins noted
    exact ⟨m, noted, mem, apart 4 mem⟩

end Graph

end NativeExpr
