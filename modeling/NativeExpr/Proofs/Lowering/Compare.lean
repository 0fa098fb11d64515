import NativeExpr.Proofs.Arithmetic
import NativeExpr.Proofs.Lowering.Turn
import NativeExpr.Proofs.Widening

/-!
# Comparisons

A comparison leaves flags that the two values determine. One condition on them
decides the predicate, except that equality of floats takes two.
-/
namespace NativeExpr.Lowering

open NativeExpr X64 Convention

variable {S : Setting} {E : Env} {σ₀ σ σ' : State} {A : Moment} {p₀ p p' : Pose}
variable {R : Course} {D : Finset NodeId} {x y id lhs rhs : NodeId} {n : Node}
variable {r dst : Reg} {gen : NodeId → Lower Unit} {T : State → Prop} {pred : Predicate}
variable {g : Graph} {c : RegClass}

/-! ## Flags -/

def comparisonFlags (g : Graph) (pred : Predicate) (x y : NodeId) (A : Moment) : Machine.Flags :=
  match (g.tyOf x).precision? with
  | none => .ofSub (A.word x) (A.word y)
  | some q => match floatComparison pred x y with
    | (first, second, _) => .ofOrder (q.compare (A.word first) (A.word second))

/-- The condition that goes with the flags of a comparison. -/
def comparisonCondition (pred : Predicate) (ty : ScalarType) : Condition :=
  match ty.precision? with
  | none => integerCondition pred ty.isSigned
  | some _ => (floatComparison pred 0 0).2.2

/-- Whether a comparison of two values that have been found holds. -/
def truth (g : Graph) (pred : Predicate) (x y : NodeId) (A : Moment) : Bool :=
  pred.holds ((A.value g x).order (A.value g y))

/-- One condition decides a predicate other than float equality. -/
theorem holds_comparison (same : g.tyOf y = g.tyOf x)
    (single : isSingleCondition pred (g.tyOf x) = true) :
    (comparisonFlags g pred x y A).holds (comparisonCondition pred (g.tyOf x)) =
      truth g pred x y A := by
  unfold comparisonFlags comparisonCondition truth
  cases hq : (g.tyOf x).precision? with
  | none => exact holds_ofSub pred (g.tyOf x) hq _ _ (g.tyOf y)
  | some q =>
    have order : (A.value g x).order (A.value g y) = q.compare (A.word x) (A.word y) :=
      Value.order_of_precision hq same
    have swapped : q.compare (A.word y) (A.word x) =
        (q.compare (A.word x) (A.word y)).map Ordering.swap := q.compare_swap _ _
    rw [isSingleCondition, ScalarType.isFloat_eq_isSome, hq] at single
    rw [order]
    cases pred with
    | gt => exact (holds_ofOrder _).1
    | ge => exact (holds_ofOrder _).2.1
    | lt =>
      show (Machine.Flags.ofOrder (q.compare (A.word y) (A.word x))).holds .a = _
      rw [swapped, (holds_ofOrder _).1]
      exact (holds_swap _).1
    | le =>
      show (Machine.Flags.ofOrder (q.compare (A.word y) (A.word x))).holds .ae = _
      rw [swapped, (holds_ofOrder _).2.1]
      exact (holds_swap _).2
    | eq => simp at single
    | ne => simp at single

theorem holds_float_equality (same : g.tyOf y = g.tyOf x) (float : (g.tyOf x).isFloat = true) :
    ((comparisonFlags g .eq x y A).holds .e && (comparisonFlags g .eq x y A).holds .np) =
        truth g .eq x y A ∧
      ((comparisonFlags g .ne x y A).holds .ne || (comparisonFlags g .ne x y A).holds .p) =
        truth g .ne x y A := by
  unfold comparisonFlags truth
  rw [ScalarType.isFloat_eq_isSome] at float
  obtain ⟨q, hq⟩ := Option.isSome_iff_exists.1 float
  have order : (A.value g x).order (A.value g y) = q.compare (A.word x) (A.word y) :=
    Value.order_of_precision hq same
  rw [order, hq]
  exact ⟨(holds_ofOrder _).2.2.1, (holds_ofOrder _).2.2.2⟩

/-! ## The comparison -/

theorem floatComparison_cases (pred : Predicate) (x y : NodeId) :
    ((floatComparison pred x y).1 = x ∧ (floatComparison pred x y).2.1 = y ∨
        (floatComparison pred x y).1 = y ∧ (floatComparison pred x y).2.1 = x) ∧
      (floatComparison pred x y).2.2 = (floatComparison pred 0 0).2.2 := by
  cases pred <;> simp [floatComparison]

theorem Stage.emitComparison (h : Stage S E σ₀ p₀ D σ R p) (hx : x ∈ D) (hy : y ∈ D)
    (liveX : 0 < σ.uses x) (liveY : 0 < σ.uses y) (same : S.graph.tyOf y = S.graph.tyOf x) :
    Generates S (emitComparison S.ctx pred x y) σ fun cond σ' =>
      cond = comparisonCondition pred (S.graph.tyOf x) ∧ Coded σ σ' ∧ ∃ p', p.Beside p' ∧
        Stage S E σ₀ p₀ D σ' R
          (p'.setFlags fun A f => f = comparisonFlags S.graph pred x y A) := by
  unfold Lowering.emitComparison
  refine .bind (.of_ok (h.inv.typeOf_eq liveX) ?_)
  cases hq : (S.graph.tyOf x).precision? with
  | none =>
    have hc := ScalarType.regClass_of_no_precision hq
    refine .seq (h.generalRegister hx liveX hc) ?_
    rintro a σ₁ ⟨ha, free, coded₁, stage₁⟩
    obtain ⟨pl, placed⟩ := stage₁.inv.placed hy (coded₁.reads.uses_eq y ▸ liveY)
    refine .seq placed.operand ?_
    rintro _ _ ⟨rfl, rfl⟩
    have ready := stage₁.inv.ready placed
    rw [same, hc] at ready
    refine .seq (stage₁.setFlags ((Machine.performs_alu .cmp ha ready).congr fun s => by
      rw [Machine.execAlu_cmp ha]) (P := fun A f => f = comparisonFlags S.graph pred x y A)
      fun sound within A c hm => ?_) ?_
    · rw [hm.named_word hc Pose.known_learn,
        hm.operand_word stage₁.inv sound within placed (same ▸ hc)]
      simp only [comparisonFlags, hq]
    · rintro _ σ₂ ⟨coded₂, stage₂⟩
      refine .of_pure ⟨?_, coded₁.trans coded₂, _, Pose.beside_learn free, stage₂⟩
      simp only [comparisonCondition, hq]
  | some q =>
    have hc := ScalarType.regClass_of_precision hq
    obtain ⟨order, hcond⟩ := floatComparison_cases pred x y
    dsimp only
    generalize hk : floatComparison pred x y = k at order hcond ⊢
    obtain ⟨first, second, cond⟩ := k
    have here {z : NodeId} (hz : z = x ∨ z = y) :
        z ∈ D ∧ 0 < σ.uses z ∧ S.graph.tyOf z = S.graph.tyOf x := by
      rcases hz with rfl | rfl
      · exact ⟨hx, liveX, rfl⟩
      · exact ⟨hy, liveY, same⟩
    obtain ⟨hfirst, liveFirst, tyFirst⟩ := here (z := first) (order.imp And.left And.left)
    obtain ⟨hsecond, liveSecond, tySecond⟩ := here (z := second)
      (order.symm.imp And.right And.right)
    refine .seq (h.floatRegister hfirst liveFirst (tyFirst ▸ hq)) ?_
    rintro a σ₁ ⟨ha, free, coded₁, stage₁⟩
    obtain ⟨pl, placed⟩ := stage₁.inv.placed hsecond (coded₁.reads.uses_eq second ▸ liveSecond)
    refine .seq placed.operand ?_
    rintro _ _ ⟨rfl, rfl⟩
    have ready := stage₁.inv.ready placed
    rw [tySecond, hc] at ready
    refine .seq (stage₁.setFlags (Machine.performs_ucomis q ha ready)
      (P := fun A f => f = comparisonFlags S.graph pred x y A) fun sound within A c hm => ?_) ?_
    · rw [hm.named_scalar (tyFirst ▸ hq) Pose.known_learn,
        hm.scalar_word stage₁.inv sound within placed (tySecond ▸ hq)]
      simp only [comparisonFlags, hq, hk]
    · rintro _ σ₂ ⟨coded₂, stage₂⟩
      refine .of_pure ⟨?_, coded₁.trans coded₂, _, Pose.beside_learn free, stage₂⟩
      simp only [comparisonCondition, hq, ← hcond]

/-! ## The truth value -/

def bit (b : Bool) : Word := if b then 1 else 0

/-- Writing a condition to the low byte of a register, in which the other bytes are
clear or do not matter. -/
theorem Stage.setcc (h : Stage S E σ₀ p₀ D σ R p) (hr : r.Of .general) (writable : Writable σ r)
    {flags : Moment → Machine.Flags} (hf : p.flags = fun A f => f = flags A) (cond : Condition)
    {P : Moment → Word → Prop}
    (hP : ∀ A c w, Matches S.graph E A σ p c →
      w.setWidth 8 = (bit ((flags A).holds cond)).setWidth 8 →
      (c.state.named r = 0 → w = bit ((flags A).holds cond)) → P A w) :
    Generates S (emit (Assembler.setcc cond r)) σ fun _ σ' => Coded σ σ' ∧
      Stage S E σ₀ p₀ D σ' R (p.learn r P) := by
  refine h.perform (Machine.performs_setcc cond hr) rfl rfl (h.inv.knownValid_learn hr.1)
    fun _ _ A c hm => ⟨_, rfl, ?_⟩
  have here : c.state.flags = flags A := by
    have := hm.flags
    rwa [hf] at this
  obtain ⟨w, hw, low, small⟩ := Machine.exists_setLow c.state r
    (if c.state.flags.holds cond then 1 else 0)
  rw [hw]
  rw [here] at low small
  refine hm.setNamed h.inv writable (hP A c w hm ?_ fun zero => ?_)
  · rw [low, bit]
    split <;> rfl
  · rw [small (by rw [zero]; decide), bit]
    split <;> rfl

/-- The word of one condition in a register that was cleared. -/
theorem Stage.setOne (h : Stage S E σ₀ p₀ D σ R p) (hr : r.Of .general)
    (held : p.held r = some .temp) (zero : p.known r = some fun _ w => w = 0)
    {flags : Moment → Machine.Flags} (hf : p.flags = fun A f => f = flags A) (cond : Condition) :
    Generates S (emit (Assembler.setcc cond r)) σ fun _ σ' => Coded σ σ' ∧
      Stage S E σ₀ p₀ D σ' R (p.learn r fun A w => w = bit ((flags A).holds cond)) :=
  h.setcc hr (h.inv.writable hr.1 held) hf cond fun _ _ _ hm _ whole => whole (hm.known zero)

/-- The word of two conditions, the second of which goes through the scratch register. -/
theorem Stage.setTwo (h : Stage S E σ₀ p₀ D σ R p) (hr : r.Of .general)
    (held : p.held r = some .temp) (zero : p.known r = some fun _ w => w = 0)
    {flags : Moment → Machine.Flags} (hf : p.flags = fun A f => f = flags A)
    (cond cond' : Condition) {instr : Asm Unit} {f : Byte → Byte → Byte} (join : Bool → Bool → Bool)
    (meaning : ∀ x y, f ((bit x).setWidth 8) ((bit y).setWidth 8) = (bit (join x y)).setWidth 8)
    (performs : Machine.Performs instr fun s =>
      some (Machine.execByte s f r.num Reg.scratch.num))
    {k : Lower Unit} {post : Unit → State → Prop}
    (next : ∀ σ' p', Coded σ σ' → Stage S E σ₀ p₀ D σ' R p' → p'.held = p.held →
      p'.locks = p.locks → p'.lowered = p.lowered →
      p'.known r = some (fun A w => w = bit (join ((flags A).holds cond) ((flags A).holds cond'))) →
      Generates S k σ' post) :
    Generates S (do
      emit (Assembler.setcc cond r)
      emit (Assembler.setcc cond' .scratch)
      emit instr
      k) σ post := by
  have ne : r ≠ .scratch := by
    rintro rfl
    rw [h.inv.notHeld_scratch (.inl rfl)] at held
    cases held
  refine .seq (h.setOne hr held zero hf cond) ?_
  rintro _ σ₁ ⟨coded₁, stage₁⟩
  refine .seq (stage₁.setcc (r := .scratch) (by decide) (stage₁.inv.writable_scratch (.inl rfl))
    hf cond' (P := fun A w => w.setWidth 8 = (bit ((flags A).holds cond')).setWidth 8)
    fun _ _ _ _ low _ => low) ?_
  rintro _ σ₂ ⟨coded₂, stage₂⟩
  refine .seq (stage₂.compute (stage₂.inv.writable hr.1 held) performs
    (P := fun A w => w = bit (join ((flags A).holds cond) ((flags A).holds cond')))
    fun _ _ A c hm => ?_) ?_
  · obtain ⟨fl, hfl⟩ := Machine.execByte_eq hr (show Reg.scratch.Of .general by decide) f c.state
    obtain ⟨w, hw, -, small⟩ := Machine.exists_setLow c.state r
      (f ((c.state.named r).setWidth 8) ((c.state.named .scratch).setWidth 8))
    refine ⟨w, fl, hfl.trans (by rw [hw]), ?_⟩
    have left : c.state.named r = bit ((flags A).holds cond) := by
      refine hm.known (P := fun A w => w = bit ((flags A).holds cond)) ?_
      rw [Pose.known_learn_of_ne ne]
      exact Pose.known_learn
    have right := hm.known (r := .scratch) Pose.known_learn
    rw [small, left, right, meaning]
    · unfold bit
      split <;> rfl
    · rw [left]
      unfold bit
      split <;> decide
  rintro _ σ₃ ⟨coded₃, stage₃⟩
  exact next σ₃ _ ((coded₁.trans coded₂).trans coded₃) stage₃ rfl rfl rfl (if_pos rfl)

theorem generates_lowerCompare
    (turn : ∀ τ, T τ → Turn S E σ₀ p₀ D τ R id n) (gens : Operands S gen T [lhs, rhs] σ)
    (kind : n.kind = .compare pred lhs rhs) (same : S.graph.tyOf rhs = S.graph.tyOf lhs)
    (ty : n.ty = .bool) :
    Generates S (lowerCompare S.ctx gen id pred lhs rhs) σ fun _ σ' =>
      ∃ τ, T τ ∧ Took S E σ₀ p₀ D τ R id n σ' := by
  have operands : n.operands = [lhs, rhs] := by rw [Node.operands, kind]; rfl
  refine gens.both turn operands fun τ t hl hr uses => ?_
  have liveL : 0 < τ.uses lhs := t.live (by simp [operands])
  have liveR : 0 < τ.uses rhs := t.live (by simp [operands])
  refine .bind (.of_ok (t.stage.inv.typeOf_eq liveL) ?_)
  refine .seq (t.stage.allocBesideTwo liveL liveR (.inl rfl)) ?_
  rintro dst σ₂ ⟨hdst, reads₂, stage₂⟩
  refine .seq (stage₂.assign (stage₂.inv.writable hdst.1 Pose.held_hand)
    (Machine.performs_movImm hdst 0) (P := fun _ w => w = 0) fun _ _ _ _ _ => rfl) ?_
  rintro _ σ₃ ⟨coded₃, stage₃⟩
  have reads : Reads τ σ₃ [] := reads₂.trans coded₃.reads
  refine .seq (stage₃.emitComparison hl hr (reads.uses_eq lhs ▸ liveL)
    (reads.uses_eq rhs ▸ liveR) same) ?_
  rintro cond σ₄ ⟨rfl, coded₄, p, beside, stage₄⟩
  have reads : Reads τ σ₄ [] := reads.trans coded₄.reads
  have held : p.held dst = some .temp := by
    rw [beside.held]
    exact Pose.held_hand
  have zero : p.known dst = some fun _ w => w = 0 :=
    (beside.known dst .temp Pose.held_hand).trans Pose.known_learn
  -- Whatever the condition, the code leads to the truth value in the temporary.
  have rest (σ₅ : State) (p' : Pose) (coded : Coded σ₄ σ₅) (stage : Stage S E σ₀ p₀ D σ₅ R p')
      (held' : p'.held = p.held) (locks : p'.locks = p.locks) (lowered : p'.lowered = p.lowered)
      (known : p'.known dst = some fun A w => w = bit (truth S.graph pred lhs rhs A)) :
      Generates S (do
        Lowering.consume lhs
        Lowering.consume rhs
        define id dst) σ₅ fun _ σ' => Took S E σ₀ p₀ D τ R id n σ' := by
    have unlocked : p'.locks = fun _ => 0 := locks.trans beside.locks
    have reads : Reads τ σ₅ [] := reads.trans coded.reads
    refine stage.consumeBoth unlocked reads uses fun σ₆ reads₆ stage₆ => ?_
    refine t.finish (.of_reads (operands ▸ reads₆) fun t => by rw [Tally.turn, kind]) stage₆
      (fun _ _ h => h) (ty ▸ hdst) (held' ▸ held) known (fun A w hw => ?_)
      (forget_temporary ?_ unlocked ?_)
    · simp only [World.visit, kind, hw, ty]
      rfl
    · rw [held', beside.held]
      rfl
    · rw [lowered, beside.lowered]
      rfl
  have plain (single : isSingleCondition pred (S.graph.tyOf lhs) = true) : Generates S (do
      emit (Assembler.setcc (comparisonCondition pred (S.graph.tyOf lhs)) dst)
      Lowering.consume lhs
      Lowering.consume rhs
      define id dst) σ₄ fun _ σ' => Took S E σ₀ p₀ D τ R id n σ' := by
    refine .seq (stage₄.setOne hdst held zero rfl _) ?_
    rintro _ σ₅ ⟨coded₅, stage₅⟩
    refine rest σ₅ _ coded₅ stage₅ rfl rfl rfl (Pose.known_learn.trans (congrArg some ?_))
    funext A w
    rw [holds_comparison same single]
  cases pred with
  | eq =>
    cases float : (S.graph.tyOf lhs).isFloat with
    | false => exact plain (by simp [isSingleCondition, float])
    | true =>
      refine stage₄.setTwo hdst held zero rfl .e .np and (f := (· &&& ·)) (by decide)
        (Machine.performs_and8 hdst (by decide)) fun σ₅ p' coded stage held' locks lowered known =>
          rest σ₅ p' coded stage held' locks lowered (known.trans (congrArg some ?_))
      funext A w
      rw [(holds_float_equality same float).1]
  | ne =>
    cases float : (S.graph.tyOf lhs).isFloat with
    | false => exact plain (by simp [isSingleCondition, float])
    | true =>
      refine stage₄.setTwo hdst held zero rfl .ne .p or (f := (· ||| ·)) (by decide)
        (Machine.performs_or8 hdst (by decide)) fun σ₅ p' coded stage held' locks lowered known =>
          rest σ₅ p' coded stage held' locks lowered (known.trans (congrArg some ?_))
      funext A w
      rw [(holds_float_equality same float).2]
  | lt => exact plain (by simp [isSingleCondition])
  | le => exact plain (by simp [isSingleCondition])
  | gt => exact plain (by simp [isSingleCondition])
  | ge => exact plain (by simp [isSingleCondition])

end NativeExpr.Lowering
