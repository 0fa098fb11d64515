import NativeExpr.Proofs.Lowering.Cast
import NativeExpr.Proofs.Lowering.Binary
import NativeExpr.Proofs.Lowering.Call
import NativeExpr.Proofs.Lowering.Immediate
import NativeExpr.Proofs.Lowering.Memory
import NativeExpr.Proofs.Lowering.Select

/-!
# Generating nodes

A node that is asked for and not done gets its code after those of its operands that
have none, a conditional in an order of its own. By induction on the depth of the
graph the generator then does for every node what the schedule says, and the tables
fit together whenever a node is asked for or done.
-/
namespace NativeExpr.Lowering

open NativeExpr X64

variable {S : Setting} {E : Env} {σ₀ σ σ' τ : State} {p₀ : Pose} {R : Course}
variable {D : Finset NodeId} {o : Opened} {gen : NodeId → Lower Unit} {depth : Nat}
variable {id : NodeId} {n : Node}

/-! ## What native code can express -/

theorem permitted_unsupported (below : id ∈ S.graph.below S.ctx.root)
    (h : ¬ Expressible S.graph id) (cause : Unsupported) : Permitted S (.unsupported cause) :=
  ⟨id, below, h⟩

/-! ## Nodes other than conditionals -/

theorem Made.took (w : S.graph.WellFormed) (hr : S.ctx.root < S.graph.size)
    (hn : S.graph.node? id = some n) (kind : ∀ c a b, n.kind ≠ .select c a b)
    (below : id ∈ S.graph.below S.ctx.root) (fresh : id ∉ D) (other : id ∉ o.nodes)
    (h : Made S E σ₀ p₀ D σ R o (S.graph.doneAfter D n.operands)
      (World.visitAll S.graph (E.world.play S.graph S.ctx.root depth) D n.operands) τ)
    (took : Took S E σ₀ p₀ (S.graph.doneAfter D n.operands) τ
      (R.andThen (World.visitAll S.graph (E.world.play S.graph S.ctx.root depth) D n.operands))
      id n σ') :
    Lowered S E σ₀ p₀ D σ R o id n depth σ' := by
  have stage := took.stage
  rw [w.insert_doneAfter hn, Course.andThen_assoc, ← World.play_node fresh hn kind] at stage
  have counted := h.counted
  rw [w.sdiff_doneAfter hn fresh] at counted
  exact ⟨stage, (h.turn w hr hn below fresh other).ledger w h.ledger other took.spent.uses,
    h.grows.trans took.spent.grows, ⟨τ.tally, counted, took.spent.tally⟩,
    fun c a b select => absurd select (kind c a b)⟩

theorem generates_lowerArith {T : State → Prop} {op : ArithOp} {lhs rhs : NodeId}
    (turn : ∀ τ, T τ → Turn S E σ₀ p₀ D τ R id n) (gens : Operands S gen T [lhs, rhs] σ)
    (kind : n.kind = .arith op lhs rhs) (tyL : S.graph.tyOf lhs = n.ty)
    (tyR : S.graph.tyOf rhs = n.ty) (clean : Clean S.graph S.ctx.root σ.journal)
    (refused : n.ty.precision? ≠ none → op.float? = none → ∀ cause,
      Permitted S (.unsupported cause)) :
    Generates S (lowerArith S.ctx gen id op lhs rhs n.ty) σ fun _ σ' =>
      (∃ τ, T τ ∧ Took S E σ₀ p₀ D τ R id n σ') ∧
        (n.ty.precision? = none ∨ op.float? ≠ none) := by
  have operands : n.operands = [lhs, rhs] := by rw [Node.operands, kind]; rfl
  unfold lowerArith
  cases hq : n.ty.precision? with
  | some q =>
    refine (generates_lowerFloat turn gens kind tyL tyR hq clean fun hf =>
      refused (hq ▸ Option.some_ne_none q) hf).mono (fun _ _ h => ⟨h.1, .inr h.2⟩) fun _ _ he => he
  | none =>
    have plain (t : Tally) : t.turn n = t := by rw [Tally.turn, kind]
    have done {m : Lower Unit}
        (h : Generates S m σ fun _ σ' => ∃ τ, T τ ∧ Took S E σ₀ p₀ D τ R id n σ') :
        Generates S m σ fun _ σ' => (∃ τ, T τ ∧ Took S E σ₀ p₀ D τ R id n σ') ∧
          ((none : Option Precision) = none ∨ op.float? ≠ none) :=
      h.mono (fun _ _ took => ⟨took, .inl rfl⟩) fun _ _ he => he
    cases op with
    | add =>
      exact done (generates_lowerInteger turn gens operands tyL tyR hq (.alu .add) (by decide)
        plain fun A => by simp only [World.visit, kind, hq]; rfl)
    | sub =>
      exact done (generates_lowerInteger turn gens operands tyL tyR hq (.alu .sub) (by decide)
        plain fun A => by simp only [World.visit, kind, hq]; rfl)
    | mul =>
      exact done (generates_lowerInteger turn gens operands tyL tyR hq .mul (by decide)
        plain fun A => by simp only [World.visit, kind, hq]; rfl)
    | div => exact done (generates_lowerDivision true turn gens kind tyL tyR hq)
    | rem => exact done (generates_lowerDivision false turn gens kind tyL tyR hq)

theorem generates_lowerLogic {T : State → Prop} {op : LogicOp} {lhs rhs : NodeId}
    (turn : ∀ τ, T τ → Turn S E σ₀ p₀ D τ R id n) (gens : Operands S gen T [lhs, rhs] σ)
    (kind : n.kind = .logic op lhs rhs) (tyL : S.graph.tyOf lhs = n.ty)
    (tyR : S.graph.tyOf rhs = n.ty) (general : n.ty.precision? = none) :
    Generates S (lowerLogic S.ctx gen id op lhs rhs n.ty) σ fun _ σ' =>
      ∃ τ, T τ ∧ Took S E σ₀ p₀ D τ R id n σ' := by
  have operands : n.operands = [lhs, rhs] := by rw [Node.operands, kind]; rfl
  have plain (t : Tally) : t.turn n = t := by rw [Tally.turn, kind]
  unfold lowerLogic
  cases op with
  | and =>
    exact generates_lowerInteger turn gens operands tyL tyR general (.alu .and) (by decide)
      plain fun A => by simp only [World.visit, kind]; rfl
  | or =>
    exact generates_lowerInteger turn gens operands tyL tyR general (.alu .or) (by decide)
      plain fun A => by simp only [World.visit, kind]; rfl
  | xor =>
    exact generates_lowerInteger turn gens operands tyL tyR general (.alu .xor) (by decide)
      plain fun A => by simp only [World.visit, kind]; rfl
  | shl => exact generates_lowerShift true turn gens kind tyL tyR general
  | shr => exact generates_lowerShift false turn gens kind tyL tyR general

/-- The code of a node other than a conditional gives it its turn. -/
theorem generates_lowerPlain {T : State → Prop} (w : S.graph.WellFormed)
    (hn : S.graph.node? id = some n) (below : id ∈ S.graph.below S.ctx.root)
    (kind : ∀ c a b, n.kind ≠ .select c a b) (bound : ∀ i, n.kind ≠ .parameter i)
    (clean : Clean S.graph S.ctx.root σ.journal) (turn : ∀ τ, T τ → Turn S E σ₀ p₀ D τ R id n)
    (gens : Operands S gen T n.operands σ) :
    Generates S (lowerNode S.ctx gen id n) σ fun _ σ' =>
      (∃ τ, T τ ∧ Took S E σ₀ p₀ D τ R id n σ') ∧ Expressible S.graph id := by
  have typed := w.typed hn
  have expressible := expressible_iff hn
  have plain {m : Lower Unit} (h : Expressible S.graph id)
      (took : Generates S m σ fun _ σ' => ∃ τ, T τ ∧ Took S E σ₀ p₀ D τ R id n σ') :
      Generates S m σ fun _ σ' =>
        (∃ τ, T τ ∧ Took S E σ₀ p₀ D τ R id n σ') ∧ Expressible S.graph id :=
    took.mono (fun _ _ took => ⟨took, h⟩) fun _ _ he => he
  obtain ⟨k, ty⟩ := n
  cases k with
  | immediate value =>
    exact plain (expressible.2 trivial)
      ((generates_lowerImmediate (turn σ gens) rfl).mono (fun _ _ took => ⟨σ, gens, took⟩)
        fun _ _ he => he)
  | parameter i => exact absurd rfl (bound i)
  | arith op lhs rhs =>
    obtain ⟨tyL, tyR, -⟩ := typed
    refine (generates_lowerArith turn gens rfl tyL.tyOf_eq tyR.tyOf_eq clean
      fun float none => ?_).mono (fun _ _ h => ⟨h.1, expressible.2 ?_⟩) fun _ _ he => he
    · refine permitted_unsupported below fun h => float ?_
      obtain rfl : op = .rem := by cases op <;> first | rfl | cases none
      exact ScalarType.precision?_eq_none.2 (expressible.1 h)
    · cases op with
      | rem =>
        exact ScalarType.precision?_eq_none.1 (h.2.resolve_right fun ne => ne rfl)
      | _ => trivial
  | logic op lhs rhs =>
    obtain ⟨tyL, tyR, integral⟩ := typed
    exact plain (expressible.2 trivial) (generates_lowerLogic turn gens rfl tyL.tyOf_eq tyR.tyOf_eq
      (ScalarType.precision?_eq_none.2 (Graph.isFloat_of_logic integral)))
  | compare pred lhs rhs =>
    obtain ⟨⟨t, tyL, tyR⟩, isBool⟩ := typed
    exact plain (expressible.2 trivial)
      (generates_lowerCompare turn gens rfl (tyR.tyOf_eq.trans tyL.tyOf_eq.symm) isBool)
  | select c a b => exact absurd rfl (kind c a b)
  | field base offset =>
    obtain ⟨tyB, v, rfl⟩ := typed
    exact plain (expressible.2 trivial)
      (generates_lowerField turn gens rfl tyB.tyOf_eq (by simp [fitsSigned]))
  | element base index =>
    obtain ⟨tyB, t, tyI, integral⟩ := typed
    refine plain (expressible.2 trivial) (generates_lowerElement turn gens rfl ?_ ?_)
    · rw [tyB.tyOf_eq]
      rfl
    · rw [tyI.tyOf_eq]
      exact if_neg (Bool.eq_false_iff.1 (ScalarType.isFloat_of_isInteger integral))
  | call target args => exact plain (expressible.2 trivial) (generates_lowerCall turn gens rfl)
  | cast value =>
    obtain ⟨source, tyV, allowed⟩ := typed
    have tyV := tyV.tyOf_eq
    refine (generates_lowerCast turn gens rfl (tyV ▸ allowed) fun lacks =>
      permitted_unsupported below fun h => ?_).mono (fun _ _ h => ⟨h.1, expressible.2 h.2⟩)
        fun _ _ he => he
    rw [expressible.1 h] at lacks
    cases lacks

/-! ## All nodes -/

theorem generates_lowerNode (makes : Makes S E gen depth) (w : S.graph.WellFormed)
    (hr : S.ctx.root < S.graph.size) (stage : Stage S E σ₀ p₀ D σ R .idle)
    (ledger : Ledger S D o σ) (hn : S.graph.node? id = some n)
    (below : id ∈ S.graph.below S.ctx.root) (fresh : id ∉ D) (le : id ≤ depth)
    (inner : ∀ y ∈ o.nodes, id < y) :
    Generates S (lowerNode S.ctx gen id n) σ fun _ σ' =>
      Lowered S E σ₀ p₀ D σ R o id n depth σ' ∧ Expressible S.graph id := by
  by_cases kind : ∃ c a b, n.kind = .select c a b
  · obtain ⟨c, a, b, kind⟩ := kind
    have expressible : Expressible S.graph id := (expressible_iff hn).2 (by rw [kind]; trivial)
    unfold lowerNode
    rw [kind]
    exact (generates_lowerSelect makes w hr stage ledger hn kind below fresh le inner).mono
      (fun _ _ lowered => ⟨lowered, expressible⟩) fun _ _ he => he
  · have kind (c a b) : n.kind ≠ .select c a b := fun h => kind ⟨c, a, b, h⟩
    have other : id ∉ o.nodes := fun hm => Nat.lt_irrefl id (inner id hm)
    have gens : Operands S gen (Made S E σ₀ p₀ D σ R o (S.graph.doneAfter D n.operands)
        (World.visitAll S.graph (E.world.play S.graph S.ctx.root depth) D n.operands))
        n.operands σ :=
      makes.operands w hr below (Nat.le_refl id) le stage ledger fresh other
        (fun y hy => Nat.le_of_lt (inner y hy))
        (Graph.askable_operands fun x hx => by
          have hx' : x ∈ S.graph.operandsOf id := Graph.operandsOf_eq hn ▸ hx
          exact ⟨hx', w.operand_mem_below hr below hx', w.operands_lt hn x hx⟩)
        fun _ made => made
    refine (generates_lowerPlain w hn below kind (fun i hi => ?_) stage.inv.clean.sound
      (fun τ made => made.turn w hr hn below fresh other) gens).mono ?_ fun _ _ he => he
    · obtain ⟨_, ty⟩ := n
      obtain rfl : _ = NodeKind.parameter i := hi
      exact fresh (ledger.params below hn)
    · rintro _ σ' ⟨⟨τ, made, took⟩, expressible⟩
      exact ⟨made.took w hr hn kind below fresh other took, expressible⟩

theorem Tally.add_eq_turn (t : Tally) (hn : S.graph.node? id = some n) :
    t.add S.graph [id] [] = { t.turn n with
      nodes := (t.turn n).nodes + 1
      generatedNodes := id :: (t.turn n).generatedNodes } := by
  obtain ⟨kind, ty⟩ := n
  unfold Tally.turn
  cases kind <;> simp [Tally.add, Graph.isSelect, Graph.isCall, hn]

/-- A node with its code and the entry of the journal for it. -/
theorem Lowered.made (w : S.graph.WellFormed) (hn : S.graph.node? id = some n) (fresh : id ∉ D)
    (h : Lowered S E σ₀ p₀ D σ R o id n depth τ) (expressible : Expressible S.graph id) :
    Made S E σ₀ p₀ D σ R o (D ∪ S.graph.below id)
      (E.world.play S.graph S.ctx.root (depth + 1) D id)
      { τ with
        journal := .generated id :: τ.journal
        stats := { τ.stats with nodes := τ.stats.nodes + 1 } } := by
  have met : Note.Sound S.graph S.ctx.root τ.journal (.generated id) := fun n' c a b node kind => by
    rw [hn] at node
    cases node
    exact h.met c a b kind
  refine ⟨(h.stage.note rfl met nofun).count _, h.ledger.of_uses fun _ => rfl,
    h.grows.trans (grows_record _ [.generated id] rfl), ?_⟩
  obtain ⟨t, counted, tally⟩ := h.counted
  have own : Counted S.graph {id} t (t.add S.graph [id] []) := .made expressible
  have mem : id ∈ (D ∪ S.graph.below id) \ D :=
    Finset.mem_sdiff.2 ⟨Finset.mem_union_right _ (w.self_mem_below (Graph.node?_lt hn)), fresh⟩
  have both := counted.trans own (Finset.disjoint_singleton_right.2 (Finset.notMem_erase id _))
  rw [Finset.union_comm, ← Finset.insert_eq, Finset.insert_erase mem, Tally.add_eq_turn t hn,
    ← tally] at both
  exact both

theorem makes_gen (w : S.graph.WellFormed) (hr : S.ctx.root < S.graph.size) :
    ∀ depth, Makes S E (Lowering.gen S.ctx depth) depth := by
  intro depth
  induction depth with
  | zero => exact fun _ _ _ lt => absurd lt (Nat.not_lt_zero _)
  | succ depth ih =>
    intro σ₀ p₀ D σ R o id stage ledger below lt inner wanted
    have agree {D : Finset NodeId} {σ : State} (inv : Inv S D σ .idle) :
        Tables.Agree S.graph ⟨σ.regs, σ.values⟩ := inv.agree rfl rfl
    have entered := stage.note (n := .entered id ⟨σ.regs, σ.values⟩) rfl (agree stage.inv) nofun
    unfold Lowering.gen
    refine .bind (.of_modify (.bind (.bind (.of_get (.of_pure ?_)))))
    have ledger' : Ledger S D o { σ with journal := .entered id ⟨σ.regs, σ.values⟩ :: σ.journal } :=
      ledger.of_uses fun _ => rfl
    -- the journal does not matter for what is found and counted
    have answer {τ : State} {C : Course} {D' : Finset NodeId}
        (made : Made S E σ₀ p₀ D _ R o D' C τ) :
        Yields (noteTables (.answered id)) τ (fun _ σ' => Made S E σ₀ p₀ D σ R o D' C σ')
          fun e σ' => Permitted S e ∧ Clean S.graph S.ctx.root σ'.journal :=
      .of_modify ⟨made.stage.note (n := .answered id ⟨τ.regs, τ.values⟩) rfl
          (agree made.stage.inv) nofun,
        made.ledger.of_uses fun _ => rfl,
        ((grows_record _ [.entered id ⟨σ.regs, σ.values⟩] rfl).trans made.grows).trans
          (grows_record _ [.answered id ⟨τ.regs, τ.values⟩] rfl), made.counted⟩
    have hid := Graph.lt_size_of_mem_below below
    by_cases mem : id ∈ D
    · have generated : (σ.values.entry id).isGenerated = true :=
        Option.isSome_iff_ne_none.2 (stage.inv.done mem wanted)
      have done : D ∪ S.graph.below id = D := Finset.union_eq_left.2 fun x hx =>
        ledger.closed.of_reaches mem ((w.mem_below hid).1 hx)
      rw [generated, done, World.play_of_mem mem]
      exact answer (.refl entered ledger')
    · have generated : (σ.values.entry id).isGenerated = false :=
        Option.isSome_eq_false_iff.2 (Option.isNone_iff_eq_none.2 (stage.inv.notDone mem))
      obtain ⟨n, hn⟩ := Graph.node?_of_lt hid
      have found : S.ctx.graph.node id = .ok n := by rw [Graph.node, hn]
      rw [generated]
      refine .bind (.of_ok found ?_)
      refine .seq (generates_lowerNode ih w hr entered ledger' hn below mem
        (Nat.le_of_lt_succ lt) inner) ?_
      rintro _ τ ⟨lowered, expressible⟩
      exact .bind (.of_modify (.bind (.of_modify
        (answer (lowered.made w hn mem expressible)))))

end NativeExpr.Lowering
