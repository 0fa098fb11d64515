import NativeExpr.Proofs.Alike
import NativeExpr.Proofs.Canonical
import NativeExpr.Proofs.Determined
import NativeExpr.Proofs.Graph.Answers

/-!
# Schedules and evaluation

What a schedule finds for a node is the value of the node by the plain rule, with the answers
that outside functions give, or another NaN where the value is one. It finds nodes that evaluation
does not come to, where both arms of a conditional or other nodes share them, and so may fail in a
division that evaluation leaves out. What is still to be read of the nodes that are done has
always been found.
-/
namespace NativeExpr

open Lowering

/-! ## Single operations -/

namespace Value

variable {ty source target : ScalarType} {w : Word}

theorem logic_eq (op : LogicOp) (a b : Value) :
    logic op ty a b = ofRaw ty (op.word ty.isSigned a.bits b.bits) := by
  cases op <;> rfl

theorem cast_eq (allowed : source.castAllowed target = true)
    (exists_ : source.lacksConversion target = false)
    (settled : source.isFloat = false → source.Settled w) :
    (⟨source, w⟩ : Value).cast target = .ok ⟨target, World.convert source target w⟩ := by
  unfold cast World.convert
  dsimp only
  by_cases same : source = target
  · subst same
    rw [if_pos rfl]
    cases hp : source.precision? with
    | some p => simp
    | none =>
      have integer := ScalarType.precision?_eq_none.1 hp
      rw [if_neg fun h => h.2 h.1]
      exact congrArg (fun v => (Except.ok ⟨source, v⟩ : Except CompileError Value))
        (settled integer).symm
  · rw [if_neg same, exists_, if_neg Bool.false_ne_true]
    by_cases bool : target = .bool
    · subst bool
      have imprecise : source.precision? = none := by
        cases source <;> first | rfl | cases allowed
      rw [if_pos rfl, imprecise, if_pos ⟨rfl, same⟩]
      by_cases zero : w = 0
      · simp only [ofBool, zero, bne_self_eq_false, Bool.false_eq_true, if_false]
        rfl
      · simp only [ofBool, bne_iff_ne.2 zero, if_true, if_neg zero]
        rfl
    · rw [if_neg bool]
      cases hp : source.precision? with
      | none =>
        cases hq : target.precision? with
        | none =>
          dsimp only
          rw [if_neg fun h => bool h.1, ofRaw, ScalarType.settle_of_ne bool]
        | some q => rfl
      | some p =>
        cases hq : target.precision? with
        | none =>
          dsimp only
          rw [truncateToInt64_toDouble hp, ofRaw, ScalarType.settle_of_ne bool]
        | some q =>
          have apart : p ≠ q := fun h => same (by
            cases source <;> cases hp <;> cases target <;> cases hq <;> first | rfl | cases h)
          dsimp only
          rw [if_neg apart]

end Value

theorem ScalarType.canonical_word {ty : ScalarType} {op : LogicOp} {x y : Word}
    (typed : ty.isInteger = true ∨ ty = .bool ∧ op.isCommutative = true)
    (hx : ty.Settled x) (hy : ty.Settled y)
    (truths : ty = .bool → (x = 0 ∨ x = 1) ∧ (y = 0 ∨ y = 1)) :
    ty.canonical (op.word ty.isSigned x y) =
      if op = .shl then ty.settle (op.word ty.isSigned x y) else op.word ty.isSigned x y := by
  by_cases bool : ty = .bool
  · have commutative := (typed.resolve_left fun integer => by rw [bool] at integer; cases integer).2
    rw [if_neg fun shift => by rw [shift] at commutative; cases commutative]
    subst bool
    exact ScalarType.canonical_bool_iff.2
      (World.truth_word commutative (truths rfl).1 (truths rfl).2)
  · rw [← ScalarType.settle_of_ne bool]
    split
    · rfl
    · next right => exact LogicOp.settled_word right hx hy

/-! ## Evaluation in the surroundings of a function -/

namespace Scope

variable {s : Scope} {answer : Call → Word} {x : NodeId} {w : Word} {v : Value}

/-- Whether evaluation gives a node a value, or another NaN. -/
def Gives (s : Scope) (answer : Call → Word) (x : NodeId) (v : Value) : Prop :=
  ∃ u, s.answered answer x = .ok u ∧ u.Alike v

theorem Gives.of_eq (h : s.answered answer x = .ok v) : s.Gives answer x v := ⟨v, h, rfl⟩

theorem Gives.eq (h : s.Gives answer x v) {t : ScalarType} (ty : v.ty = t)
    (general : t.precision? = none) : s.answered answer x = .ok v := by
  obtain ⟨u, value, alike⟩ := h
  rw [value, alike.of_ty ty general]

theorem mapM_gives {f : NodeId → Value} {xs : List NodeId}
    (h : ∀ x ∈ xs, s.Gives answer x (f x)) : ∃ values, xs.mapM (s.answered answer) = .ok values ∧
      List.Forall₂ Value.Alike values (xs.map f) := by
  induction xs with
  | nil => exact ⟨[], rfl, .nil⟩
  | cons x xs ih =>
    obtain ⟨u, value, alike⟩ := h x (List.mem_cons_self ..)
    obtain ⟨values, rest, all⟩ := ih fun y hy => h y (List.mem_cons_of_mem _ hy)
    refine ⟨u :: values, ?_, .cons alike all⟩
    rw [List.mapM_cons, value, rest]
    rfl

end Scope

/-- Whether the arguments and the memory of an evaluation and the answers to its calls are those
that a function finds around it. Memory that is loaded from is known and holds no truth values,
and truth values from elsewhere are zeros and ones. -/
structure Scope.Describes (s : Scope) (answer : Call → Word) (ω : World) (root : NodeId) :
    Prop where
  wellFormed : s.graph.WellFormed
  inside : root < s.graph.size
  argument : ∀ {x i ty}, s.graph.node? x = some ⟨.parameter i, ty⟩ →
    s.args[i]? = some ⟨ty, ty.settle (ω.param i)⟩
  memory : ∀ calls, s.memory = some (ω.view calls)
  reply : ∀ {calls k w}, ω.reply calls k w → k.ret.settle w = k.ret.settle (answer k)
  loads : ∀ {x ty address}, x ∈ s.graph.below root →
    s.graph.LoadsFrom (s.answered answer) x ty address → ty ≠ .bool ∧ ω.Covers ty address
  truths : ∀ {x v}, x ∈ s.graph.below root → s.graph.tyOf x = .bool →
    s.graph.isForeign x = true → s.answered answer x = .ok v → v.bits = 0 ∨ v.bits = 1

namespace Moment

variable {m : Moment} {id x : NodeId} {w : Word}

@[simp] theorem word_find_self : (m.find id w).word id = w := by
  rw [word, show (m.find id w).found id = some w from if_pos rfl, Option.getD_some]

theorem found_find_of_ne (ne : x ≠ id) : (m.find id w).found x = m.found x := if_neg ne

theorem word_of_found (h : m.found x = some w) : m.word x = w := by
  rw [word, h, Option.getD_some]

/-- What is known of a moment: the words that were found are the values of their nodes, and
every node that is done and still to be read was found. -/
structure Evaluated (s : Scope) (answer : Call → Word) (root : NodeId) (D : Finset NodeId)
    (m : Moment) : Prop where
  settled : m.Settled s.graph D
  reached : ∀ {x w}, m.found x = some w → x ∈ s.graph.below root
  values : ∀ {x w}, m.found x = some w → s.Gives answer x ⟨s.graph.tyOf x, w⟩
  complete : ∀ {x}, x ∈ D → 0 < s.graph.pending root D x → m.found x ≠ none

variable {s : Scope} {answer : Call → Word} {ω : World} {root : NodeId} {D D' : Finset NodeId}

namespace Evaluated

theorem called (h : m.Evaluated s answer root D) (e : Event) :
    (m.call e).Evaluated s answer root D :=
  ⟨h.settled.called e, h.reached, h.values, h.complete⟩

theorem gives (h : m.Evaluated s answer root D) (found : m.found x ≠ none) :
    s.Gives answer x (m.value s.graph x) := by
  obtain ⟨w, hw⟩ := Option.ne_none_iff_exists'.1 found
  rw [Moment.value, word_of_found hw]
  exact h.values hw

theorem answered (h : m.Evaluated s answer root D) (mem : x ∈ D)
    (pending : 0 < s.graph.pending root D x) : s.Gives answer x (m.value s.graph x) :=
  h.gives (h.complete mem pending)

theorem plain (h : m.Evaluated s answer root D) (describes : s.Describes answer ω root) :
    m.Plain s.graph := fun _ _ found bool foreign =>
  describes.truths (h.reached found) bool foreign ((h.values found).eq bool rfl)

theorem find (h : m.Evaluated s answer root D) (fresh : id ∉ D)
    (below : id ∈ s.graph.below root) (value : s.Gives answer id ⟨s.graph.tyOf id, w⟩)
    (settled : (m.find id w).Settled s.graph D')
    (before : ∀ x ∈ D', x ≠ id → 0 < s.graph.pending root D' x →
      x ∈ D ∧ 0 < s.graph.pending root D x) :
    (m.find id w).Evaluated s answer root D' := by
  refine ⟨settled, fun {x u} found => ?_, fun {x u} found => ?_, fun {x} mem pending => ?_⟩
  · by_cases same : x = id
    · exact same ▸ below
    · rw [found_find_of_ne same] at found
      exact h.reached found
  · by_cases same : x = id
    · subst same
      rw [show (m.find x w).found x = some w from if_pos rfl] at found
      cases found
      exact value
    · rw [found_find_of_ne same] at found
      exact h.values found
  · by_cases same : x = id
    · rw [same, show (m.find id w).found id = some w from if_pos rfl]
      exact Option.some_ne_none w
    · rw [found_find_of_ne same]
      obtain ⟨mem, pending⟩ := before x mem same pending
      exact h.complete mem pending

end Evaluated

end Moment

namespace World

open Moment

variable {ω : World} {s : Scope} {answer : Call → Word} {root id : NodeId} {D : Finset NodeId}
variable {n : Node} {m : Moment} {o : Except (List Event) Moment}

/-- Whether an outcome has found the value of a node, or fails where the node does. -/
def FindsValue (s : Scope) (answer : Call → Word) (id : NodeId) :
    Except (List Event) Moment → Prop
  | .ok m => s.Gives answer id (m.value s.graph id)
  | .error _ => s.graph.FailsAt (s.answered answer) id

theorem load_eq (describes : s.Describes answer ω root) {ty : ScalarType} {address w : Word}
    (from_ : ty ≠ .bool ∧ ω.Covers ty address) (loads : ω.Loads m ty address w) :
    s.load ty address = .ok ⟨ty, w⟩ := by
  obtain ⟨raw, rfl, known⟩ := loads
  obtain ⟨ne, covers⟩ := from_
  rw [Scope.load, describes.memory m.calls, known covers, ScalarType.settle_of_ne ne]
  rfl

/-- A word that is found for a node is its value exactly if the values of its operands give it. -/
theorem findsValue_find {u : Word} (w : s.graph.WellFormed) (hn : s.graph.node? id = some n) :
    FindsValue s answer id (.ok (m.find id u)) ↔
      ∃ v, s.answeredNode answer (s.answered answer) n = .ok v ∧ v.Alike ⟨n.ty, u⟩ := by
  rw [FindsValue, Scope.Gives, Scope.answered_eq w hn, Moment.value, word_find_self,
    (Graph.hasType_of_node? hn).tyOf_eq]

theorem findsValue_arith {op : ArithOp} {lhs rhs : NodeId} {t : ScalarType}
    (w : s.graph.WellFormed) (hn : s.graph.node? id = some ⟨.arith op lhs rhs, t⟩)
    (left : s.Gives answer lhs (m.value s.graph lhs))
    (right : s.Gives answer rhs (m.value s.graph rhs))
    (ho : ω.visit s.graph id ⟨.arith op lhs rhs, t⟩ m o) : FindsValue s answer id o := by
  obtain ⟨tyL, tyR, number⟩ := w.typed hn
  have tyL : s.graph.tyOf lhs = t := tyL.tyOf_eq
  have tyR : s.graph.tyOf rhs = t := tyR.tyOf_eq
  obtain ⟨a, first, alike⟩ := left
  obtain ⟨b, second, alike'⟩ := right
  have value : s.answeredNode answer (s.answered answer) ⟨.arith op lhs rhs, t⟩ =
      Value.arith op t a b := by
    simp only [Scope.answeredNode, Scope.nodeValue, first, second]
    rfl
  simp only [visit] at ho
  split at ho
  · next p precise =>
    split at ho
    · next f hf =>
      obtain ⟨u, result, rfl⟩ := ho
      rw [findsValue_find w hn, value, Value.arith, precise]
      simp only [hf]
      refine ⟨_, rfl, (Value.Alike.float_iff precise).2 ?_⟩
      rw [result, Precision.unifyNaN_apply]
      exact Precision.apply_congr (alike.bits ((congrArg _ tyL).trans precise))
        (alike'.bits ((congrArg _ tyR).trans precise))
    · exact ho.elim
  · next imprecise =>
    have integer := ScalarType.precision?_eq_none.1 imprecise
    have proper : t ≠ .bool := by
      rintro rfl
      rcases number with no | no <;> cases no
    obtain rfl := alike.of_ty tyL imprecise
    obtain rfl := alike'.of_ty tyR imprecise
    split at ho
    · next u hu =>
      cases ho
      rw [findsValue_find w hn, value, Value.arith, imprecise]
      simp only [Moment.value, hu, ScalarType.settle_of_ne proper]
      exact ⟨_, rfl, rfl⟩
    · next e he =>
      cases ho
      have fault := ArithOp.evalInt_eq_error.1 he
      refine .intro hn integer fault.1 first second ?_
      exact fault.2.imp And.left And.left

theorem findsValue_logic {op : LogicOp} {lhs rhs : NodeId} {t : ScalarType}
    (w : s.graph.WellFormed) (hn : s.graph.node? id = some ⟨.logic op lhs rhs, t⟩)
    (settled : m.Settled s.graph D) (plain : m.Plain s.graph)
    (left : s.Gives answer lhs (m.value s.graph lhs))
    (right : s.Gives answer rhs (m.value s.graph rhs))
    (ho : ω.visit s.graph id ⟨.logic op lhs rhs, t⟩ m o) : FindsValue s answer id o := by
  obtain ⟨tyL, tyR, kind⟩ := w.typed hn
  have tyL : s.graph.tyOf lhs = t := tyL.tyOf_eq
  have tyR : s.graph.tyOf rhs = t := tyR.tyOf_eq
  have integer := Graph.isFloat_of_logic kind
  have imprecise := ScalarType.precision?_eq_none.2 integer
  cases ho
  rw [findsValue_find w hn]
  simp only [Scope.answeredNode, Scope.nodeValue, left.eq tyL imprecise, right.eq tyR imprecise]
  refine ⟨_, rfl, .of_eq ((Value.logic_eq op _ _).trans ?_)⟩
  exact congrArg (Value.mk t) (ScalarType.canonical_word kind
    (tyL ▸ settled.word (tyL.symm ▸ integer)) (tyR ▸ settled.word (tyR.symm ▸ integer))
    fun bool => ⟨settled.truth plain (tyL.trans bool), settled.truth plain (tyR.trans bool)⟩)

theorem answered_call (describes : s.Describes answer ω root) {target : Word} {args : List NodeId}
    {t : ScalarType} {u : Word} (hn : s.graph.node? id = some ⟨.call target args, t⟩)
    (operands : ∀ y ∈ args, s.Gives answer y (m.value s.graph y))
    (reply : ω.reply m.calls (callOf s.graph m target args t) u) :
    s.answered answer id = .ok ⟨t, t.settle u⟩ := by
  obtain ⟨values, found, alike⟩ := Scope.mapM_gives operands
  have passed : values.map Value.unify = args.map fun x => (m.value s.graph x).unify := by
    rw [Value.Alike.map_unify alike, List.map_map]
    rfl
  have result : t.settle u = t.settle (answer (callOf s.graph m target args t)) :=
    describes.reply reply
  rw [Scope.answered_eq describes.wellFormed hn]
  simp only [Scope.answeredNode, found]
  rw [result, callOf, ← passed]
  rfl

theorem findsValue_visit (describes : s.Describes answer ω root)
    (hn : s.graph.node? id = some n) (below : id ∈ s.graph.below root)
    (express : Expressible s.graph id) (settled : m.Settled s.graph D) (plain : m.Plain s.graph)
    (operands : ∀ y ∈ n.operands, s.Gives answer y (m.value s.graph y))
    (ho : ω.visit s.graph id n m o) : FindsValue s answer id o := by
  have w := describes.wellFormed
  have typed := w.typed hn
  obtain ⟨kind, t⟩ := n
  cases kind with
  | immediate value =>
    cases value with
    | int v =>
      cases ho
      obtain ⟨-, canonical⟩ := typed
      rw [findsValue_find w hn]
      exact ⟨_, rfl, .of_eq (congrArg (Value.mk t) canonical)⟩
    | float p =>
      cases ho
      have float : (Value.ofDouble t p).ty = t := Value.ty_ofDouble typed p
      rw [findsValue_find w hn]
      exact ⟨_, rfl, .of_eq (congrArg (Value.mk · (Value.ofDouble t p).bits) float)⟩
  | parameter => exact ho.elim
  | select => exact ho.elim
  | arith op lhs rhs =>
    exact findsValue_arith w hn (operands lhs (List.mem_cons_self ..))
      (operands rhs (List.mem_cons_of_mem _ (List.mem_cons_self ..))) ho
  | logic op lhs rhs =>
    exact findsValue_logic w hn settled plain (operands lhs (List.mem_cons_self ..))
      (operands rhs (List.mem_cons_of_mem _ (List.mem_cons_self ..))) ho
  | compare pred lhs rhs =>
    obtain ⟨⟨ty, tyL, tyR⟩, rfl⟩ := typed
    obtain ⟨u, left, alike⟩ := operands lhs (List.mem_cons_self ..)
    obtain ⟨v, right, alike'⟩ := operands rhs (List.mem_cons_of_mem _ (List.mem_cons_self ..))
    cases ho
    rw [findsValue_find w hn]
    simp only [Scope.answeredNode, Scope.nodeValue, left, right]
    refine ⟨_, rfl, .of_eq (congrArg (fun o => Value.ofBool (pred.holds o)) ?_)⟩
    exact alike.order alike' (tyR.tyOf_eq.trans tyL.tyOf_eq.symm)
  | field base offset =>
    obtain ⟨pointer, -⟩ := typed
    have found := (operands base (List.mem_singleton_self _)).eq pointer.tyOf_eq rfl
    obtain ⟨u, loads, rfl⟩ := ho
    rw [findsValue_find w hn]
    simp only [Scope.answeredNode, Scope.nodeValue, found]
    exact ⟨_, load_eq describes (describes.loads below (.field hn found)) loads, rfl⟩
  | element base index =>
    obtain ⟨pointer, ty, number, integer⟩ := typed
    have found := (operands base (List.mem_cons_self ..)).eq pointer.tyOf_eq rfl
    have position := (operands index (List.mem_cons_of_mem _ (List.mem_cons_self ..))).eq
      number.tyOf_eq (ScalarType.precision?_eq_none.2 (ScalarType.isFloat_of_isInteger integer))
    obtain ⟨u, loads, rfl⟩ := ho
    rw [findsValue_find w hn]
    simp only [Scope.answeredNode, Scope.nodeValue, found, position]
    exact ⟨_, load_eq describes (describes.loads below (.element hn found position)) loads, rfl⟩
  | call target args =>
    obtain ⟨u, reply, rfl⟩ := ho
    rw [FindsValue, Moment.value, word_find_self, (Graph.hasType_of_node? hn).tyOf_eq]
    exact .of_eq (answered_call describes hn operands reply)
  | cast x =>
    obtain ⟨source, tyX, allowed⟩ := typed
    have tyX : s.graph.tyOf x = source := tyX.tyOf_eq
    have has : (s.graph.tyOf x).lacksConversion t = false := express _ hn
    obtain ⟨⟨ty, y⟩, found, alike⟩ := operands x (List.mem_singleton_self _)
    obtain rfl : ty = s.graph.tyOf x := alike.ty
    cases ho
    rw [findsValue_find w hn]
    simp only [Scope.answeredNode, Scope.nodeValue, found]
    refine ⟨_, Value.cast_eq (tyX ▸ allowed) has fun integer => ?_, alike.convert⟩
    have same : y = m.word x :=
      congrArg Value.bits (alike.eq (ScalarType.precision?_eq_none.2 integer))
    exact same ▸ settled.word integer

/-- What is still to be read after a conditional was so after the arm that it took, too: of the
arm that it left out nothing is read any more. -/
theorem before_choose {g : Graph} {x y c a b : NodeId} (w : g.WellFormed)
    (fork : g.Fork root D y c a b) (mem : x ∈ D ∪ g.below y) (ne : x ≠ y)
    (pending : 0 < g.pending root (D ∪ g.below y) x) :
    x ∈ g.doneAfter D (ahead g root D c a b) ∪ g.below (arm m c a b) ∧
      0 < g.pending root (g.doneAfter D (ahead g root D c a b) ∪ g.below (arm m c a b)) x := by
  have whole := fork.insert_ahead w
  have arms := fork.notMem_arms w
  rw [← whole] at mem pending
  have shrink {D₁ D₂ : Finset NodeId} (le : D₁ ⊆ D₂) : g.pending root D₂ x ≤ g.pending root D₁ x :=
    Nat.add_le_add_left (Finset.sum_le_sum_of_subset
      (Finset.sdiff_subset_sdiff (Finset.Subset.refl _) le)) _
  have inner := Finset.subset_insert y
    (g.doneAfter D (ahead g root D c a b) ∪ g.below a ∪ g.below b)
  -- a node of one arm only is read by that arm and, if it is the result, by the conditional
  have left {z : NodeId} (operand : z ∈ g.operandsOf y)
      (only : g.pending root (g.doneAfter D (ahead g root D c a b) ∪ g.below z) x =
        if x = z then 1 else 0)
      (le : g.doneAfter D (ahead g root D c a b) ∪ g.below z ⊆
        g.doneAfter D (ahead g root D c a b) ∪ g.below a ∪ g.below b) : False := by
    have last := Graph.pending_insert (x := x) fork.user arms
    have most := shrink le
    rw [only] at most
    split at most
    · next same =>
      have reads := Graph.edges_pos.2 (same ▸ operand)
      omega
    · omega
  have inside : x ∈ g.doneAfter D (ahead g root D c a b) ∪ g.below (arm m c a b) := by
    have mem := (Finset.mem_insert.1 mem).resolve_left ne
    by_contra outside
    rw [Finset.mem_union, not_or] at outside
    rw [Finset.mem_union, Finset.mem_union, or_assoc] at mem
    have mem := mem.resolve_left outside.1
    unfold arm at outside
    split at outside
    · exact left (by simp [fork.operands]) (fork.pending_second w (mem.resolve_left outside.2)
        outside.1) (Finset.union_subset_union Finset.subset_union_left (Finset.Subset.refl _))
    · exact left (by simp [fork.operands]) (fork.pending_first w (mem.resolve_right outside.2)
        outside.1) Finset.subset_union_left
  refine ⟨inside, Nat.lt_of_lt_of_le pending (shrink ?_)⟩
  exact (Graph.Fork.arm_subset m).trans inner

/-- Generated code finds the values of nodes, and fails only at a node that does. -/
theorem maintains_evaluated (describes : s.Describes answer ω root)
    (express : ∀ x ∈ s.graph.below root, Expressible s.graph x) :
    ω.Maintains s.graph root (fun D m => m.Evaluated s answer root D)
      fun _ => ∃ x ∈ s.graph.below root, s.graph.FailsAt (s.answered answer) x where
  visit := by
    intro D id n m o below fresh closed hn operands h ho
    have w := describes.wellFormed
    have reads {x : NodeId} : s.graph.pending root D x =
        s.graph.pending root (insert id D) x + s.graph.edges id x :=
      Graph.pending_insert below fresh
    have found (y : NodeId) (hy : y ∈ n.operands) : s.Gives answer y (m.value s.graph y) := by
      have edge := Graph.edges_pos.2 ((Graph.operandsOf_eq hn).symm ▸ hy)
      refine h.answered (operands y hy) ?_
      rw [reads]
      omega
    have finds := findsValue_visit describes hn below (express id below) h.settled
      (h.plain describes) found ho
    have settled := settled_visit w fresh hn h.settled ho
    have before (x : NodeId) (hx : x ∈ insert id D) (ne : x ≠ id)
        (pending : 0 < s.graph.pending root (insert id D) x) :
        x ∈ D ∧ 0 < s.graph.pending root D x :=
      ⟨(Finset.mem_insert.1 hx).resolve_left ne, by rw [reads]; omega⟩
    rcases visit_cases ho with ⟨u, -, rfl⟩ | ⟨target, args, u, -, -, rfl⟩ | rfl
    · rw [FindsValue, Moment.value, word_find_self] at finds
      exact h.find fresh below finds settled before
    · rw [FindsValue, Moment.value, word_find_self] at finds
      exact (h.called _).find fresh below finds settled before
    · exact ⟨id, below, finds⟩
  choose := by
    intro D y c a b n m m' fork hn kind before keeps h
    have w := describes.wellFormed
    obtain ⟨kind', t⟩ := n
    cases kind
    have settled := (@maintains_settled ω s.graph root w).choose fork hn rfl before.settled keeps
      h.settled
    obtain ⟨bool, -, -⟩ := w.typed hn
    have cond := (before.answered (fork.cond_mem_ahead w)
      (fork.pending_operand (fork.notMem_ahead w) (List.mem_cons_self ..))).eq bool.tyOf_eq rfl
    have later := fun hy => fork.notMem_arms w (Graph.Fork.arm_subset m hy)
    have operand : arm m c a b ∈ [c, a, b] := Graph.Fork.arm_mem m
    have chosen := h.answered (Finset.mem_union_right _ (fork.self_mem_below w operand))
      (fork.pending_operand later operand)
    have same : s.graph.tyOf (arm m c a b) = s.graph.tyOf y := tyOf_arm w hn m
    refine h.find later fork.user ?_ settled fun x hx ne pending =>
      before_choose w fork hx ne pending
    obtain ⟨u, value, alike⟩ := chosen
    rw [← same]
    refine ⟨u, (Scope.answered_eq w hn).trans (Eq.trans ?_ value), alike⟩
    simp only [Scope.answeredNode, Scope.nodeValue, cond]
    show (if (m.word c != 0) = true then _ else _) = _
    unfold arm
    split <;> rfl

/-- The arguments of a function are the values of its parameters. -/
theorem evaluated_enter (describes : s.Describes answer ω root) :
    (ω.enter s.graph (s.graph.inputs root) ⟨fun _ => none, []⟩).Evaluated s answer root
      (s.graph.inputs root) := by
  refine ⟨settled_enter _, fun {x w} found => ?_, fun {x w} found => ?_, fun {x} mem _ => ?_⟩
  · exact (Finset.mem_filter.1 (found_enter found).1).1
  · obtain ⟨-, i, t, hn, rfl⟩ := found_enter found
    refine .of_eq ?_
    rw [Scope.answered_eq describes.wellFormed hn, (Graph.hasType_of_node? hn).tyOf_eq]
    simp only [Scope.answeredNode, Scope.nodeValue, describes.argument hn]
  · obtain ⟨i, t, hn⟩ := Graph.isParameter_iff.1 (Finset.mem_filter.1 mem).2
    show (if x ∈ s.graph.inputs root then ω.paramWord s.graph x else none) ≠ none
    rw [if_pos mem, paramWord, hn]
    exact Option.some_ne_none _

/-- All that a function finds are values of nodes, and the value of its root is among them. -/
theorem evaluated_course (describes : s.Describes answer ω root)
    (express : ∀ x ∈ s.graph.below root, Expressible s.graph x)
    (ho : ω.course s.graph root ⟨fun _ => none, []⟩ o) :
    Meets (fun D m => m.Evaluated s answer root D)
      (fun _ => ∃ x ∈ s.graph.below root, s.graph.FailsAt (s.answered answer) x)
      (s.graph.below root) o :=
  (maintains_evaluated describes express).course describes.wellFormed describes.inside
    (evaluated_enter describes) ho

end World

theorem Moment.Evaluated.root {s : Scope} {answer : Call → Word} {root : NodeId} {m : Moment}
    (h : m.Evaluated s answer root (s.graph.below root)) (w : s.graph.WellFormed)
    (inside : root < s.graph.size) : s.Gives answer root (m.value s.graph root) := by
  refine h.answered (w.self_mem_below inside) ?_
  rw [Graph.pending, if_pos rfl]
  omega

end NativeExpr
