import NativeExpr.Proofs.Graph.Evaluation

/-!
# The plain lazy rule

The rule has no table and no measure: the value of a node is what its kind makes of the values
of its operands, found one after the other from left to right, of two arms only the selected
one, and anew for every use. One function follows it, and evaluation with a table gives the
result of that function, value or error. A value found without a memory is found in any.
-/
namespace NativeExpr.Scope

variable {s : Scope} {g : Graph} {n : Node} {id root : NodeId} {v : Value}
  {f f' plain : NodeId → Except CompileError Value}

/-! ## The rule -/

/-- Whether the result for every node follows from the results for its operands. -/
def Plain (s : Scope) (f : NodeId → Except CompileError Value) : Prop :=
  ∀ id, f id = do
    let n ← s.graph.node id
    s.nodeValue f n

theorem plain_value (w : s.graph.WellFormed) : s.Plain s.value := by
  intro id
  cases hn : s.graph.node id with
  | ok n => exact value_eq w (Graph.node_eq_ok.1 hn)
  | error e =>
    rw [value, valueWithin, hn]
    rfl

/-- Operands stand before their users, so the rule leaves no choice. -/
theorem Plain.eq_value (w : s.graph.WellFormed) (h : s.Plain f) : f = s.value := by
  funext id
  induction id using Nat.strong_induction_on with
  | h id ih =>
    rw [h id, plain_value w id]
    cases hn : s.graph.node id with
    | error e => rfl
    | ok n => exact nodeValue_congr fun x hx => ih x (w.operands_lt (Graph.node_eq_ok.1 hn) x hx)

theorem existsUnique_plain (w : s.graph.WellFormed) : ∃! f, s.Plain f :=
  ⟨s.value, plain_value w, fun _ h => h.eq_value w⟩

/-! ## Evaluation -/

/-- Evaluation checks the arguments and then gives what the plain rule gives, for a root that
the graph does not have, too. -/
theorem eval_eq_value (w : s.graph.WellFormed) :
    s.eval root = (do s.checkArgs; s.value root) := by
  cases checked : s.checkArgs with
  | error e =>
    rw [eval, checked]
    rfl
  | ok u =>
    have finds := finds_evalWithin w (Nat.lt_succ_self root) _ (tabled_empty (s := s))
    rw [eval_of_checked checked]
    unfold Yields at finds
    cases hr : s.evalWithin (root + 1) root (Array.replicate s.graph.size none) with
    | ok v t | error e t =>
      rw [hr] at finds
      exact finds.1.symm

theorem Plain.eval_eq (w : s.graph.WellFormed) (h : s.Plain plain) :
    s.eval root = (do s.checkArgs; plain root) := by
  rw [h.eq_value w]
  exact eval_eq_value w

/-! ## Without a memory -/

def blind (s : Scope) : Scope := { s with memory := none }

/-- A node that has a value without a memory has it in one, if its operands do. -/
theorem nodeValue_of_blind (operands : ∀ x ∈ n.operands, ∀ u, f x = .ok u → f' x = .ok u)
    (h : s.blind.nodeValue f n = .ok v) : s.nodeValue f' n = .ok v := by
  obtain ⟨kind, ty⟩ := n
  cases kind with
  | immediate value => cases value <;> exact h
  | parameter | call => exact h
  | arith op lhs rhs | logic op lhs rhs | compare op lhs rhs =>
    obtain ⟨left, right⟩ : (∀ u, f lhs = .ok u → f' lhs = .ok u) ∧
        ∀ u, f rhs = .ok u → f' rhs = .ok u := by
      simpa [Node.operands, NodeKind.operands] using operands
    obtain ⟨a, ha, h⟩ := bind_eq_ok.1 h
    obtain ⟨b, hb, h⟩ := bind_eq_ok.1 h
    exact bind_eq_ok.2 ⟨a, left a ha, bind_eq_ok.2 ⟨b, right b hb, h⟩⟩
  | select cond thenValue elseValue =>
    obtain ⟨first, left, right⟩ : (∀ u, f cond = .ok u → f' cond = .ok u) ∧
        (∀ u, f thenValue = .ok u → f' thenValue = .ok u) ∧
          ∀ u, f elseValue = .ok u → f' elseValue = .ok u := by
      simpa [Node.operands, NodeKind.operands] using operands
    obtain ⟨c, hc, h⟩ := bind_eq_ok.1 h
    apply bind_eq_ok.2 ⟨c, first c hc, ?_⟩
    split at h
    · next true =>
      rw [if_pos true]
      exact left v h
    · next false =>
      rw [if_neg false]
      exact right v h
  | field base offset =>
    -- without a memory no load has a value
    obtain ⟨b, -, h⟩ := bind_eq_ok.1 h
    cases h
  | element base index =>
    obtain ⟨b, -, h⟩ := bind_eq_ok.1 h
    obtain ⟨i, -, h⟩ := bind_eq_ok.1 h
    cases h
  | cast operand =>
    have only : ∀ u, f operand = .ok u → f' operand = .ok u := by
      simpa [Node.operands, NodeKind.operands] using operands
    obtain ⟨a, ha, h⟩ := bind_eq_ok.1 h
    exact bind_eq_ok.2 ⟨a, only a ha, h⟩

theorem value_of_blind (w : s.graph.WellFormed) (h : s.blind.value id = .ok v) :
    s.value id = .ok v := by
  induction id using Nat.strong_induction_on generalizing v with
  | h id ih =>
    rw [plain_value (s := s.blind) w] at h
    rw [plain_value w]
    obtain ⟨n, hn, h⟩ := bind_eq_ok.1 h
    apply bind_eq_ok.2 ⟨n, hn, ?_⟩
    exact nodeValue_of_blind (fun x hx u => ih x (w.operands_lt (Graph.node_eq_ok.1 hn) x hx)) h

/-- Evaluation follows the plain lazy rule, which one function satisfies: it gives the same
value or the same error. What it finds without a memory it finds in every memory. -/
theorem evaluation_plain (built : g.Built) (root : NodeId) (args : List Value) :
    (∀ memory, ∃! plain, Plain ⟨g, args, memory⟩ plain) ∧
    (∀ plain, Plain ⟨g, args, none⟩ plain →
      g.evaluate root args = (do checkArgs ⟨g, args, none⟩; plain root)) ∧
    (∀ memory plain, Plain ⟨g, args, some memory⟩ plain →
      g.evaluateIn memory root args = (do checkArgs ⟨g, args, some memory⟩; plain root)) ∧
    ∀ v, g.evaluate root args = .ok v → ∀ memory, g.evaluateIn memory root args = .ok v := by
  have w := built.wellFormed
  refine ⟨fun memory => existsUnique_plain w, fun plain h => h.eval_eq w,
    fun memory plain h => h.eval_eq w, ?_⟩
  intro v h memory
  rw [Graph.evaluate, eval_eq_value w] at h
  rw [Graph.evaluateIn, eval_eq_value w]
  obtain ⟨u, checked, h⟩ := bind_eq_ok.1 h
  exact bind_eq_ok.2 ⟨u, checked, value_of_blind (s := ⟨g, args, some memory⟩) w h⟩

/-- The number, used twice by its quotient, asks for no memory, so its value is that in any. -/
theorem evaluation_plain_ratio :
    ratio.evaluate 3 [⟨.i8, 6⟩, ⟨.bool, 1⟩] = .ok ⟨.i8, 1⟩ ∧
    ∀ memory, ratio.evaluateIn memory 3 [⟨.i8, 6⟩, ⟨.bool, 1⟩] = .ok ⟨.i8, 1⟩ := by
  obtain ⟨-, -, -, kept⟩ := evaluation_plain built_ratio 3 [⟨.i8, 6⟩, ⟨.bool, 1⟩]
  have found : ratio.evaluate 3 [⟨.i8, 6⟩, ⟨.bool, 1⟩] = .ok ⟨.i8, 1⟩ := by decide
  exact ⟨found, kept _ found⟩

end NativeExpr.Scope
