import NativeExpr.Proofs.Graph.Construction
import NativeExpr.Proofs.Lowering.Body

/-!
# Counting uses with a stack

Uses can be counted in the order in which nodes are met. The nodes that are still to be looked
at lie on a stack, some of them several times; a node is opened when it is taken off for the
first time, and each of its operand entries then counts one use. Such a traversal ends, whatever
is shared, with the counts that code generation starts from: one for every operand entry of a
node that the root reaches, and one for the root.
-/
namespace NativeExpr.Graph

open NativeExpr Finset Lowering

/-- A traversal on its way. -/
structure Traversal where
  uses : Array Nat
  opened : Array Bool
  /-- The nodes to be looked at, the next one first. -/
  stack : List NodeId

namespace Traversal

def isOpened (t : Traversal) (x : NodeId) : Bool := t.opened.getD x false

def start (g : Graph) (root : NodeId) : Traversal where
  uses := addUses (Array.replicate g.size 0) [root]
  opened := Array.replicate g.size false
  stack := [root]

/-- Counts one operand entry. A node that is opened already need not be looked at again. -/
def meet (g : Graph) (t : Traversal) (x : NodeId) : Except CompileError Traversal := do
  let _ ← g.node x
  return { t with
    uses := t.uses.modify x (· + 1)
    stack := if t.isOpened x then t.stack else x :: t.stack }

def next (g : Graph) (t : Traversal) : Except CompileError Traversal :=
  match t.stack with
  | [] => return t
  | x :: rest =>
    if t.isOpened x then return { t with stack := rest }
    else do
      let n ← g.node x
      n.operands.foldlM (meet g) { t with opened := t.opened.setIfInBounds x true, stack := rest }

def after (g : Graph) : Nat → Traversal → Except CompileError Traversal
  | 0, t => return t
  | looks + 1, t => do
    let t ← t.next g
    after g looks t

end Traversal

/-- Traverses what `root` reaches, with so many looks at nodes. -/
def traverse (g : Graph) (root : NodeId) (looks : Nat) : Except CompileError Traversal := do
  let _ ← g.node root
  Traversal.after g looks (.start g root)

open Classical in
/-- The nodes that a node reaches. -/
noncomputable def reachable (g : Graph) (root : NodeId) : Finset NodeId :=
  (range g.size).filter fun x => g.Reaches root x

variable {g : Graph} {t t' : Traversal} {root x y : NodeId} {rest ops : List NodeId}

theorem WellFormed.below_eq (w : g.WellFormed) (inside : root < g.size) :
    g.below root = g.reachable root := by
  ext x
  simp only [reachable, mem_filter, mem_range, w.mem_below inside]
  constructor
  · intro reached
    exact ⟨reached.lt_size w inside, reached⟩
  · intro h
    exact h.2

namespace Traversal

def nodes (t : Traversal) : Finset NodeId := (range t.opened.size).filter fun x => t.isOpened x

/-- Whether a node has been met: it is opened, or it will be looked at. -/
def Met (t : Traversal) (x : NodeId) : Prop := x ∈ t.stack ∨ x ∈ t.nodes

theorem mem_nodes : x ∈ t.nodes ↔ t.isOpened x = true := by
  simp only [nodes, mem_filter, mem_range, and_iff_right_iff_imp]
  intro opened
  by_contra outside
  simp [isOpened, Array.getD, outside] at opened

/-! ## One look -/

def withOpened (t : Traversal) (g : Graph) (x : NodeId) (rest : List NodeId) : Traversal :=
  let opened := t.opened.setIfInBounds x true
  { uses := addUses t.uses (g.operandsOf x)
    opened
    stack := ((g.operandsOf x).filter fun y => !opened.getD y false).reverse ++ rest }

theorem meet_eq (inside : x < g.size) : meet g t x = .ok { t with
    uses := t.uses.modify x (· + 1)
    stack := if t.isOpened x then t.stack else x :: t.stack } := by
  obtain ⟨n, hn⟩ := node?_of_lt inside
  simp [meet, node_eq_ok.2 hn, pure, Except.pure, bind, Except.bind]

theorem foldlM_meet (inside : ∀ x ∈ ops, x < g.size) :
    ops.foldlM (meet g) t = .ok { t with
      uses := addUses t.uses ops
      stack := (ops.filter fun x => !t.isOpened x).reverse ++ t.stack } := by
  induction ops generalizing t with
  | nil => rfl
  | cons x ops ih =>
    rw [List.foldlM_cons, meet_eq (inside x (List.mem_cons_self ..))]
    refine (ih fun y hy => inside y (List.mem_cons_of_mem _ hy)).trans ?_
    -- what is opened does not change on the way
    show Except.ok (Traversal.mk _ _ ((ops.filter fun y => !t.isOpened y).reverse ++ _)) = _
    by_cases opened : t.isOpened x = true
    · simp [opened, addUses]
    · simp [opened, addUses]

theorem next_of_opened (top : t.stack = x :: rest) (opened : t.isOpened x = true) :
    t.next g = .ok { t with stack := rest } := by
  simp [next, top, opened, pure, Except.pure]

theorem next_of_closed (w : g.WellFormed) (top : t.stack = x :: rest) (inside : x < g.size)
    (closed : t.isOpened x = false) : t.next g = .ok (t.withOpened g x rest) := by
  obtain ⟨n, hn⟩ := node?_of_lt inside
  have operands : g.operandsOf x = n.operands := by simp [operandsOf, hn]
  have earlier : ∀ y ∈ n.operands, y < g.size := by
    intro y hy
    exact Nat.lt_trans (w.operands_lt hn y hy) inside
  have looked : t.next g = n.operands.foldlM (meet g)
      { t with opened := t.opened.setIfInBounds x true, stack := rest } := by
    simp [next, top, closed, node_eq_ok.2 hn, bind, Except.bind]
  rw [looked, foldlM_meet earlier, withOpened, operands]
  rfl

theorem nodes_withOpened (rest : List NodeId) (size : t.opened.size = g.size)
    (inside : x < g.size) :
    (t.withOpened g x rest).nodes = insert x t.nodes := by
  ext y
  simp only [mem_nodes, mem_insert, withOpened, isOpened, Array.getD_eq_getD_getElem?,
    Array.getElem?_setIfInBounds, size]
  by_cases same : x = y
  · subst same
    simp [inside]
  · simp [same, Ne.symm same]

theorem mem_stack_withOpened : y ∈ (t.withOpened g x rest).stack ↔
    y ∈ g.operandsOf x ∧ y ∉ (t.withOpened g x rest).nodes ∨ y ∈ rest := by
  simp [mem_nodes, withOpened, isOpened]

/-! ## The invariant -/

/-- What a traversal knows: it has met nodes only that the root reaches, among them the root and
the operands of all nodes it has opened, and has counted the operand entries of these. -/
structure Tells (g : Graph) (root : NodeId) (t : Traversal) : Prop where
  uses_size : t.uses.size = g.size
  opened_size : t.opened.size = g.size
  reached : ∀ x, t.Met x → g.Reaches root x
  root_met : t.Met root
  operands_met : ∀ y ∈ t.nodes, ∀ x ∈ g.operandsOf y, t.Met x
  counts : ∀ x < g.size,
    t.uses.getD x 0 = (if x = root then 1 else 0) + ∑ y ∈ t.nodes, g.edges y x

/-- A bound on the looks that are left: the entries of the stack, and the operand entries of the
nodes that are not opened. -/
def left (g : Graph) (root : NodeId) (t : Traversal) : Nat :=
  t.stack.length + ∑ y ∈ g.below root \ t.nodes, (g.operandsOf y).length

@[simp] theorem stack_start : (start g root).stack = [root] := rfl

@[simp] theorem nodes_start : (start g root).nodes = ∅ := by
  ext x
  simp [mem_nodes, start, isOpened, Array.getD_eq_getD_getElem?, Array.getElem?_replicate]
  split <;> rfl

theorem tells_start : (start g root).Tells g root where
  uses_size := by simp [start, size_addUses]
  opened_size := by simp [start]
  reached := by
    intro x met
    have self : x = root := by simpa [Met] using met
    exact self ▸ .refl
  root_met := .inl (List.mem_singleton.2 rfl)
  operands_met := by simp [nodes_start]
  counts := by
    intro x hx
    simp only [nodes_start, sum_empty, Nat.add_zero]
    exact getD_start hx

theorem left_start :
    (start g root).left g root = 1 + ∑ y ∈ g.below root, (g.operandsOf y).length := by
  simp [left]

theorem Tells.drop (h : t.Tells g root) (top : t.stack = x :: rest) (opened : t.isOpened x = true) :
    ({ t with stack := rest } : Traversal).Tells g root := by
  have met (y : NodeId) : ({ t with stack := rest } : Traversal).Met y ↔ t.Met y := by
    have self : x ∈ t.nodes := mem_nodes.2 opened
    simp only [Met, top, List.mem_cons]
    constructor
    · rintro (hy | hy)
      · exact .inl (.inr hy)
      · exact .inr hy
    · rintro ((rfl | hy) | hy)
      · exact .inr self
      · exact .inl hy
      · exact .inr hy
  exact {
    uses_size := h.uses_size
    opened_size := h.opened_size
    reached := fun y hy => h.reached y ((met y).1 hy)
    root_met := (met root).2 h.root_met
    operands_met := fun y hy z hz => (met z).2 (h.operands_met y hy z hz)
    counts := h.counts }

/-- A node that is opened makes its operands met, and its operand entries are counted. -/
theorem Tells.enter (w : g.WellFormed) (inside : root < g.size) (h : t.Tells g root)
    (top : t.stack = x :: rest) (closed : t.isOpened x = false) :
    (t.withOpened g x rest).Tells g root := by
  have reached : g.Reaches root x := h.reached x (.inl (by simp [top]))
  have lt := reached.lt_size w inside
  have nodes := nodes_withOpened rest h.opened_size lt
  have fresh : x ∉ t.nodes := by simp [mem_nodes, closed]
  have met (y : NodeId) : (t.withOpened g x rest).Met y ↔ t.Met y ∨ y ∈ g.operandsOf x := by
    simp only [Met, mem_stack_withOpened, nodes, mem_insert, top, List.mem_cons]
    tauto
  exact {
    uses_size := (size_addUses ..).trans h.uses_size
    opened_size := by simp [withOpened, h.opened_size]
    reached := by
      intro y hy
      rcases (met y).1 hy with old | operand
      · exact h.reached y old
      · exact reached.step operand
    root_met := (met root).2 (.inl h.root_met)
    operands_met := by
      intro y hy z hz
      rw [nodes] at hy
      rcases mem_insert.1 hy with rfl | hy
      · exact (met z).2 (.inr hz)
      · exact (met z).2 (.inl (h.operands_met y hy z hz))
    counts := by
      intro y hy
      have counted : (t.withOpened g x rest).uses.getD y 0 = t.uses.getD y 0 + g.edges x y :=
        getD_addUses _ _ (h.uses_size ▸ hy)
      rw [counted, h.counts y hy, nodes, sum_insert fresh]
      omega }

/-- Opening a node puts no more on the stack than it has operand entries. -/
theorem Tells.left_enter (w : g.WellFormed) (inside : root < g.size) (h : t.Tells g root)
    (top : t.stack = x :: rest) (closed : t.isOpened x = false) :
    (t.withOpened g x rest).left g root < t.left g root := by
  have reached : g.Reaches root x := h.reached x (.inl (by simp [top]))
  have open_ : x ∈ g.below root \ t.nodes := by
    simp [w.mem_below inside, reached, mem_nodes, closed]
  have fewer : g.below root \ insert x t.nodes = (g.below root \ t.nodes).erase x := by
    ext y
    simp only [mem_sdiff, mem_insert, mem_erase]
    tauto
  have split := add_sum_erase _ (fun y => (g.operandsOf y).length) open_
  have pushed := List.length_filter_le
    (fun y => !(t.opened.setIfInBounds x true).getD y false) (g.operandsOf x)
  have height : (t.withOpened g x rest).stack.length ≤ (g.operandsOf x).length + rest.length := by
    simp only [withOpened, List.length_append, List.length_reverse]
    omega
  simp only [left, nodes_withOpened rest h.opened_size (reached.lt_size w inside), fewer,
    top, List.length_cons]
  omega

/-! ## Many looks -/

/-- As long as there is something to look at, a look succeeds, and there is less to come. -/
theorem Tells.next (w : g.WellFormed) (inside : root < g.size) (h : t.Tells g root)
    (more : t.stack ≠ []) :
    ∃ t', t.next g = .ok t' ∧ t'.Tells g root ∧ t'.left g root < t.left g root := by
  obtain ⟨x, rest, top⟩ := List.exists_cons_of_ne_nil more
  by_cases opened : t.isOpened x = true
  · refine ⟨_, next_of_opened top opened, h.drop top opened, ?_⟩
    simp [left, top, nodes, isOpened]
  · have closed : t.isOpened x = false := by simpa using opened
    have lt := (h.reached x (.inl (by simp [top]))).lt_size w inside
    exact ⟨_, next_of_closed w top lt closed, h.enter w inside top closed,
      h.left_enter w inside top closed⟩

theorem after_of_done (done : t.stack = []) (looks : Nat) : Traversal.after g looks t = .ok t := by
  induction looks with
  | zero => rfl
  | succ looks ih =>
    have stays : t.next g = .ok t := by simp [Traversal.next, done, pure, Except.pure]
    simp [Traversal.after, stays, ih, bind, Except.bind]

theorem Tells.after (w : g.WellFormed) (inside : root < g.size) {looks : Nat}
    (h : t.Tells g root) (enough : t.left g root ≤ looks) :
    ∃ t', Traversal.after g looks t = .ok t' ∧ t'.stack = [] ∧ t'.Tells g root := by
  induction looks generalizing t with
  | zero =>
    have empty : t.stack = [] := List.length_eq_zero_iff.1 (by unfold left at enough; omega)
    exact ⟨t, rfl, empty, h⟩
  | succ looks ih =>
    by_cases empty : t.stack = []
    · exact ⟨t, after_of_done empty _, empty, h⟩
    · obtain ⟨t₁, looked, tells, less⟩ := h.next w inside empty
      obtain ⟨t', run, done, tells⟩ := ih tells (by omega)
      exact ⟨t', by simp [Traversal.after, looked, run, bind, Except.bind], done, tells⟩

/-- In the end what the root reaches has been opened, and nothing else. -/
theorem Tells.nodes_eq (w : g.WellFormed) (inside : root < g.size) (h : t.Tells g root)
    (done : t.stack = []) : t.nodes = g.below root := by
  have opened {x : NodeId} (met : t.Met x) : x ∈ t.nodes := by simpa [Met, done] using met
  ext x
  rw [w.mem_below inside]
  constructor
  · intro hx
    exact h.reached x (.inr hx)
  · intro reached
    induction reached with
    | refl => exact opened h.root_met
    | step _ operand ih => exact opened (h.operands_met _ ih _ operand)

theorem Tells.uses_eq (w : g.WellFormed) (inside : root < g.size) (h : t.Tells g root)
    (done : t.stack = []) : t.uses = g.reachableUses root := by
  have size : t.uses.size = (g.reachableUses root).size := by
    rw [h.uses_size, size_reachableUses]
  apply Array.ext size
  intro x hx hx'
  have lt : x < g.size := h.uses_size ▸ hx
  have counts : t.uses.getD x 0 = (g.reachableUses root).getD x 0 := by
    rw [h.counts x lt, h.nodes_eq w inside done, w.reachableUses_eq_pending inside lt, pending,
      sdiff_empty]
  simpa [hx, hx'] using counts

end Traversal

theorem uses_initial (o : Options) (x : NodeId) :
    (State.initial g root o).uses x = (g.reachableUses root).getD x 0 := by
  rw [State.uses, entry_initial]

/-- However the nodes that a root reaches are shared, a traversal with a stack looks at no more
than their operand entries and the root, and ends with the counts that code generation starts
from. These are the operand entries for a node in the nodes that the root reaches, one more for
the root itself, and nothing for a node that the root does not reach. -/
theorem counts_edges (built : g.Built) (inside : root < g.size) (o : Options) :
    (∃ t, g.traverse root (1 + ∑ y ∈ g.reachable root, (g.operandsOf y).length) = .ok t ∧
      t.stack = [] ∧ (State.initial g root o).values = t.uses.map fun n => ⟨none, n, none⟩) ∧
    (∀ x, (State.initial g root o).uses x =
      (if x = root then 1 else 0) + ∑ y ∈ g.reachable root, g.edges y x) ∧
    ∀ x, ¬g.Reaches root x → (State.initial g root o).uses x = 0 := by
  have w := built.wellFormed
  have edges (x : NodeId) : (State.initial g root o).uses x =
      (if x = root then 1 else 0) + ∑ y ∈ g.reachable root, g.edges y x := by
    rw [uses_initial, ← w.below_eq inside]
    by_cases lt : x < g.size
    · rw [w.reachableUses_eq_pending inside lt, pending, sdiff_empty]
    · -- no node has an operand that the graph lacks
      have apart : x ≠ root := by
        rintro rfl
        exact lt inside
      have none : ∑ y ∈ g.below root, g.edges y x = 0 := by
        apply sum_eq_zero
        intro y hy
        have before := Nat.lt_of_lt_of_le (lt_size_of_mem_below hy) (Nat.not_lt.1 lt)
        exact w.edges_eq_zero_of_le (Nat.le_of_lt before)
      simp [Array.getD, size_reachableUses, lt, apart, none]
  refine ⟨?_, edges, ?_⟩
  · obtain ⟨n, hn⟩ := node?_of_lt inside
    have enough : (Traversal.start g root).left g root ≤
        1 + ∑ y ∈ g.reachable root, (g.operandsOf y).length := by
      rw [Traversal.left_start, w.below_eq inside]
    obtain ⟨t, run, done, tells⟩ := Traversal.tells_start.after w inside enough
    refine ⟨t, ?_, done, ?_⟩
    · simp [traverse, node_eq_ok.2 hn, run, bind, Except.bind]
    · rw [tells.uses_eq w inside done]
      rfl
  · intro x unreached
    have apart : x ≠ root := by
      rintro rfl
      exact unreached .refl
    have none : ∑ y ∈ g.reachable root, g.edges y x = 0 := by
      apply sum_eq_zero
      intro y hy
      apply edges_eq_zero
      intro operand
      rw [← w.below_eq inside, w.mem_below inside] at hy
      exact unreached (hy.step operand)
    rw [edges, none, if_neg apart]

/-- A call that is given a square twice and the number itself, and a sum behind it. -/
def repeated : Graph where
  nodes := #[⟨.parameter 0, .i64⟩, ⟨.arith .mul 0 0, .i64⟩,
    ⟨.call 0x100000200000 [1, 1, 0], .i64⟩, ⟨.arith .add 1 0, .i64⟩]
  params := [0]
  parents := #[3, 2, 0, 0]

theorem built_repeated : repeated.Built :=
  .of_built? [.i64]
    [.arith .mul 0 0, .call 0x100000200000 [1, 1, 0] .i64, .arith .add 1 0] (by decide +kernel)

/-- The number is read three times, the square twice, and the sum is not looked at. -/
theorem counts_edges_repeated : repeated.Built ∧ 2 < repeated.size ∧
    (∃ t, repeated.traverse 2 6 = .ok t ∧ t.stack = [] ∧ t.uses = #[3, 2, 1, 0]) ∧
    ∑ y ∈ repeated.reachable 2, repeated.edges y 0 = 3 ∧
    (¬repeated.Reaches 2 3 ∧ (State.initial repeated 2 .default).uses 3 = 0) := by
  have inside : 2 < repeated.size := by decide
  have w := built_repeated.wellFormed
  obtain ⟨⟨t, run, done, -⟩, edges, unread⟩ := counts_edges built_repeated inside .default
  have entries : ∑ y ∈ repeated.below 2, (repeated.operandsOf y).length = 5 := by decide +kernel
  rw [← w.below_eq inside, entries] at run
  have counted : repeated.traverse 2 6 = .ok ⟨#[3, 2, 1, 0], #[true, true, true, false], []⟩ := by
    rfl
  have number : (State.initial repeated 2 .default).uses 0 = 3 := by decide +kernel
  have behind : ¬repeated.Reaches 2 3 := fun reached => absurd (reached.le w) (by decide)
  refine ⟨built_repeated, inside, ⟨t, run, done, ?_⟩, ?_, behind, unread 3 behind⟩
  · rw [← Except.ok.inj (counted.symm.trans run)]
  · simpa [number] using (edges 0).symm

end NativeExpr.Graph
