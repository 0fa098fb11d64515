import NativeExpr.Lowering.Arithmetic
import NativeExpr.Proofs.Lowering.Turn

/-!
# Two-operand instructions

The first operand is in a register that is overwritten, the second is read in place.
When the operands change places, the operation is a commutative one.
-/
namespace NativeExpr.Lowering

open NativeExpr X64 Convention

variable {S : Setting} {E : Env} {σ₀ σ σ' : State} {A : Moment} {p₀ p : Pose}
variable {R : Course} {D : Finset NodeId} {a b x id lhs rhs : NodeId} {n : Node}
variable {ty : ScalarType} {r : Reg} {gen : NodeId → Lower Unit} {T : State → Prop}

/-- An instruction that leaves a result of an operation on two values in the
register of the first. -/
def Computes (ty : ScalarType) (instr : Reg → Operand → Asm Unit) (P : Word → Word → Word → Prop) :
    Prop :=
  ∀ {dst : Reg} {src : Operand}, dst.Of ty.regClass → src.Ready ty.regClass →
    ∃ f : Machine.State → Machine.State, Machine.Performs (instr dst src) (fun s => some (f s)) ∧
      ∀ s y, Holds s ty src y → ∃ w flags, f s = (s.setNamed dst w).setFlags flags ∧
        P (ty.view (s.named dst)) y (ty.view w)

theorem yields_isImmediate {fails : CompileError → State → Prop} :
    Yields (isImmediate x) σ (fun _ σ' => σ = σ') fails := .bind (yields_assignment (.of_pure rfl))

theorem yields_isReusable {fails : CompileError → State → Prop} :
    Yields (isReusable x) σ (fun _ σ' => σ = σ') fails := .bind (yields_assignment (.of_pure rfl))

theorem yields_prefersSwap {fails : CompileError → State → Prop} :
    Yields (prefersSwap lhs rhs) σ (fun _ σ' => σ = σ') fails := by
  refine .seq yields_isImmediate ?_
  rintro swap _ rfl
  cases swap with
  | true =>
    refine .seq yields_isImmediate ?_
    rintro _ _ rfl
    exact .of_pure rfl
  | false =>
    refine .seq yields_isReusable ?_
    rintro _ _ rfl
    refine .seq yields_isReusable ?_
    rintro _ _ rfl
    exact .of_pure rfl

/-- Operands change places only if the operation is commutative. -/
theorem yields_arrange {commutative : Bool} {fails : CompileError → State → Prop} :
    Yields (arrange commutative lhs rhs) σ (fun ab σ' => σ = σ' ∧
      (ab = (lhs, rhs) ∨ commutative = true ∧ ab = (rhs, lhs))) fails := by
  refine .seq yields_prefersSwap ?_
  rintro swap _ rfl
  split
  · next h => exact .of_pure ⟨rfl, .inr ⟨(Bool.and_eq_true_iff.1 h).1, rfl⟩⟩
  · exact .of_pure ⟨rfl, .inl rfl⟩

theorem Stage.overwrite (h : Stage S E σ₀ p₀ D σ R .idle) (ha : a ∈ D) (hb : b ∈ D)
    (uses : ∀ x, [a, b].count x ≤ σ.uses x) (tyA : S.graph.tyOf a = ty)
    (tyB : S.graph.tyOf b = ty) {instr : Reg → Operand → Asm Unit}
    {P : Word → Word → Word → Prop} (computes : Computes ty instr P) :
    Generates S (do
      let dst ← Lowering.withLocked b (Lowering.takeOrCopy S.ctx a id)
      let src ← operand b
      emit (instr dst src)
      Lowering.consume b
      return dst) σ fun dst σ' => dst.Of ty.regClass ∧ Reads σ σ' [a, b] ∧
        Stage S E σ₀ p₀ D σ' R ((Pose.idle.hand dst (some .temp)).write dst fun A w =>
          P (A.word a) (A.word b) (ty.view w)) := by
  have useA : 0 < σ.uses a := Nat.lt_of_lt_of_le (List.count_pos_iff.2 (by simp)) (uses a)
  have useB : 0 < σ.uses b := Nat.lt_of_lt_of_le (List.count_pos_iff.2 (by simp)) (uses b)
  refine .seq (h.withLocked useB [a] (fun dst q => Fresh S .idle ty.regClass dst ∧
    q = (Pose.idle.hand dst (some .temp)).learn dst (Reading S.graph a)) ?_) ?_
  · intro l τ reads locked stage
    have liveA : 0 < τ.uses a := reads.uses_eq a ▸ useA
    have releasable : Releasable τ (Pose.idle.lock l) a := by
      refine locked.releasable stage.inv rfl (fun he => ?_) liveA
      rw [reads.uses_eq]
      have twice : [a, b].count a ≤ σ.uses a := uses a
      rw [he] at twice ⊢
      have two : 2 ≤ σ.uses b := by simpa using twice
      exact two
    refine (stage.takeOrCopy ha liveA releasable solid_lock room_lock).mono ?_ fun _ _ he => he
    rintro dst τ' ⟨fresh, reads', stage'⟩
    have free : Pose.idle.locks dst = 0 := rfl
    refine ⟨reads', _, ⟨⟨tyA ▸ fresh.mem, rfl, rfl⟩, rfl⟩, stage'⟩
  rintro dst σ₁ ⟨reads₁, _, ⟨fresh, rfl⟩, stage₁⟩
  have useB₁ : 0 < σ₁.uses b := reads₁.live [b] uses (by simp)
  obtain ⟨pl, placed⟩ := stage₁.inv.placed hb useB₁
  refine .seq placed.operand ?_
  rintro _ _ ⟨rfl, rfl⟩
  have ready := stage₁.inv.ready placed
  rw [tyB] at ready
  obtain ⟨f, performs, result⟩ := computes fresh.of ready
  have held : ((Pose.idle.hand dst (some .temp)).learn dst (Reading S.graph a)).held dst =
      some .temp := if_pos rfl
  have known : ((Pose.idle.hand dst (some .temp)).learn dst (Reading S.graph a)).known dst =
      some (Reading S.graph a) := if_pos rfl
  refine .seq (stage₁.compute (stage₁.inv.writable fresh.of.1 held) performs
    (P := fun A w => P (A.word a) (A.word b) (ty.view w)) fun sound within A c hm => ?_) ?_
  · have first := hm.known known
    have second := hm.holds stage₁.inv sound within placed
    rw [Reading, tyA] at first
    rw [tyB] at second
    obtain ⟨w, flags, hf, hw⟩ := result c.state _ second
    exact ⟨w, flags, hf, first ▸ hw⟩
  rintro _ σ₂ ⟨coded, stage₂⟩
  refine .seq (stage₂.consume (coded.reads.uses_eq b ▸ useB₁) (.of_unlocked rfl)) ?_
  rintro _ σ₃ ⟨reads₃, stage₃⟩
  refine .of_pure ⟨fresh.of, (reads₁.trans coded.reads).trans reads₃, ?_⟩
  rw [Pose.write, Pose.learn_learn] at stage₃
  exact stage₃

theorem generates_lowerBinary (turn : ∀ τ, T τ → Turn S E σ₀ p₀ D τ R id n)
    (gens : Operands S gen T [lhs, rhs] σ) (operands : n.operands = [lhs, rhs])
    (tyL : S.graph.tyOf lhs = ty) (tyR : S.graph.tyOf rhs = ty) {commutative : Bool}
    {instr : Reg → Operand → Asm Unit} {P : Word → Word → Word → Prop}
    (computes : Computes ty instr P) (comm : commutative = true → ∀ x y, P x y = P y x) :
    Generates S (lowerBinary S.ctx gen id lhs rhs commutative instr) σ fun dst σ' =>
      ∃ τ, T τ ∧ dst.Of ty.regClass ∧ Reads τ σ' n.operands ∧
        Stage S E σ₀ p₀ D σ' R ((Pose.idle.hand dst (some .temp)).write dst fun A w =>
          P (A.word lhs) (A.word rhs) (ty.view w)) := by
  refine .seq gens fun _ σ₁ gens₁ => .seq gens₁ fun _ τ hτ => ?_
  have t := turn τ hτ
  have hl : lhs ∈ D := t.reads lhs (by simp [operands])
  have hr : rhs ∈ D := t.reads rhs (by simp [operands])
  refine .seq yields_arrange ?_
  rintro ab _ ⟨rfl, order⟩
  rcases order with rfl | ⟨swaps, rfl⟩
  · refine (t.stage.overwrite hl hr (operands ▸ t.uses) tyL tyR computes).mono ?_ fun _ _ he => he
    rintro dst σ' ⟨hdst, reads, stage⟩
    exact ⟨τ, hτ, hdst, operands ▸ reads, stage⟩
  · have uses (x : NodeId) : [rhs, lhs].count x ≤ τ.uses x := by
      rw [(List.Perm.swap lhs rhs []).count_eq, ← operands]
      exact t.uses x
    refine (t.stage.overwrite hr hl uses tyR tyL computes).mono ?_ fun _ _ he => he
    rintro dst σ' ⟨hdst, reads, stage⟩
    have swapped : (fun (A : Moment) w => P (A.word rhs) (A.word lhs) (ty.view w)) =
        fun A w => P (A.word lhs) (A.word rhs) (ty.view w) := by
      funext A w
      rw [comm swaps]
    exact ⟨τ, hτ, hdst, operands ▸ reads.perm (.swap ..), swapped ▸ stage⟩

/-! ## Integer operations -/

def IntegerOp.word : IntegerOp → Word → Word → Word
  | .alu op => Machine.aluResult op
  | .mul => (· * ·)

theorem IntegerOp.computes (op : IntegerOp) (hq : ty.precision? = none) :
    Computes ty op.emit fun x y w => w = op.word x y := by
  intro dst src hdst hsrc
  have hc := ScalarType.regClass_of_no_precision hq
  rw [hc] at hdst hsrc
  have holds {s : Machine.State} {y : Word} (h : Holds s ty src y) : s.operand src = y := by
    simpa only [Holds, hq] using h
  cases op with
  | alu op =>
    refine ⟨_, Machine.performs_alu op hdst hsrc, fun s y hy => ?_⟩
    obtain ⟨flags, hf⟩ := Machine.execAlu_eq hdst op s (s.operand src)
    refine ⟨_, flags, hf, ?_⟩
    rw [ScalarType.view_of_general hc, ScalarType.view_of_general hc, holds hy]
    rfl
  | mul =>
    refine ⟨_, Machine.performs_imul hdst hsrc, fun s y hy =>
      ⟨s.named dst * s.operand src, s.flags, Machine.State.setFlags_setNamed.symm, ?_⟩⟩
    · rw [ScalarType.view_of_general hc, ScalarType.view_of_general hc, holds hy]
      rfl

theorem IntegerOp.word_comm {op : IntegerOp} (notCmp : op ≠ .alu .cmp)
    (h : op.isCommutative = true) (x y : Word) : op.word x y = op.word y x := by
  cases op with
  | mul => exact BitVec.mul_comm x y
  | alu op =>
    cases op with
    | add => exact BitVec.add_comm x y
    | and => exact BitVec.and_comm x y
    | or => exact BitVec.or_comm x y
    | xor => exact BitVec.xor_comm x y
    | sub => exact absurd h (by decide)
    | cmp => exact absurd rfl notCmp

theorem generates_lowerInteger (turn : ∀ τ, T τ → Turn S E σ₀ p₀ D τ R id n)
    (gens : Operands S gen T [lhs, rhs] σ) (operands : n.operands = [lhs, rhs])
    (tyL : S.graph.tyOf lhs = n.ty) (tyR : S.graph.tyOf rhs = n.ty)
    (general : n.ty.precision? = none) (op : IntegerOp) (notCmp : op ≠ .alu .cmp) {widens : Bool}
    (plain : ∀ t : Tally, t.turn n = t)
    (visit : ∀ A, E.world.visit S.graph id n A (.ok (A.find id
      (if widens then n.ty.settle (op.word (A.word lhs) (A.word rhs))
        else op.word (A.word lhs) (A.word rhs))))) :
    Generates S (lowerInteger S.ctx gen id op widens lhs rhs n.ty) σ fun _ σ' =>
      ∃ τ, T τ ∧ Took S E σ₀ p₀ D τ R id n σ' := by
  have hc := ScalarType.regClass_of_no_precision general
  refine .seq (generates_lowerBinary turn gens operands tyL tyR
    (P := fun x y w => w = op.word x y) (op.computes general) fun commutative x y => by
      rw [IntegerOp.word_comm notCmp commutative]) ?_
  rintro dst σ₁ ⟨τ, hτ, hdst, reads, stage⟩
  have t := turn τ hτ
  have held : ((Pose.idle.hand dst (some .temp)).write dst fun A w =>
      n.ty.view w = op.word (A.word lhs) (A.word rhs)).held dst = some .temp := if_pos rfl
  have known : ((Pose.idle.hand dst (some .temp)).write dst fun A w =>
      n.ty.view w = op.word (A.word lhs) (A.word rhs)).known dst = some _ := if_pos rfl
  cases widens with
  | true =>
    refine .seq (stage.normalize hdst held known) ?_
    rintro _ σ₂ ⟨coded, stage₂⟩
    refine (t.finish ((Spent.of_reads reads plain).reads coded.reads) stage₂ (fun _ _ h => h) hdst
      held (if_pos rfl) (fun A w hw => ?_) ?_).mono (fun _ σ' took => ⟨τ, hτ, took⟩)
      fun _ _ he => he
    · obtain ⟨w₀, hw₀, hw⟩ := hw
      rw [ScalarType.view_of_general hc] at hw₀
      have := visit A
      rwa [if_pos rfl, ← hw₀, ← hw] at this
    · exact forget_temporary rfl rfl rfl
  | false =>
    refine (t.finish (.of_reads reads plain) stage (fun _ _ h => h) hdst held known
      (fun A w hw => ?_) (forget_temporary rfl rfl rfl)).mono
      (fun _ σ' took => ⟨τ, hτ, took⟩) fun _ _ he => he
    have := visit A
    rwa [if_neg Bool.false_ne_true, ← hw] at this

/-! ## Float operations -/

theorem computes_floatOp {q : Precision} (hq : ty.precision? = some q) (op : FloatOp) :
    Computes ty (Assembler.floatOp op q) fun x y w => q.unifyNaN w = q.apply op x y := by
  intro dst src hdst hsrc
  have hc := ScalarType.regClass_of_precision hq
  rw [hc] at hdst hsrc
  refine ⟨_, Machine.performs_floatOp op q hdst hsrc, fun s y hy => ?_⟩
  have hy : s.scalar q src = y := by simpa only [Holds, hq] using hy
  obtain ⟨w, hw, low⟩ := Machine.exists_setFloat q s dst _
    (q.fits_execute op (s.scalar q (.reg dst)) (s.scalar q src))
  refine ⟨w, s.flags, hw.trans Machine.State.setFlags_setNamed.symm, ?_⟩
  rw [ScalarType.view_of_precision hq, ScalarType.view_of_precision hq, low, hy]
  exact Precision.unifyNaN_execute

theorem apply_comm_of_isCommutative {op : ArithOp} {f : FloatOp} {q : Precision}
    (hf : op.float? = some f) (h : op.isCommutative = true) (x y : Word) :
    q.apply f x y = q.apply f y x := by
  refine q.apply_comm ?_ x y
  cases op with
  | add => exact .inl (Option.some.inj hf).symm
  | mul => exact .inr (Option.some.inj hf).symm
  | sub | div | rem => exact absurd h (by decide)

theorem generates_lowerFloat {op : ArithOp} {q : Precision}
    (turn : ∀ τ, T τ → Turn S E σ₀ p₀ D τ R id n) (gens : Operands S gen T [lhs, rhs] σ)
    (kind : n.kind = .arith op lhs rhs) (tyL : S.graph.tyOf lhs = n.ty)
    (tyR : S.graph.tyOf rhs = n.ty) (hq : n.ty.precision? = some q)
    (clean : Clean S.graph S.ctx.root σ.journal)
    (refused : op.float? = none → ∀ cause, Permitted S (.unsupported cause)) :
    Generates S (lowerFloat S.ctx gen id op lhs rhs n.ty q) σ fun _ σ' =>
      (∃ τ, T τ ∧ Took S E σ₀ p₀ D τ R id n σ') ∧ op.float? ≠ none := by
  unfold lowerFloat
  cases hf : op.float? with
  | none => exact .of_throw ⟨refused hf _, clean⟩
  | some f =>
    have operands : n.operands = [lhs, rhs] := by rw [Node.operands, kind]; rfl
    refine .seq (generates_lowerBinary turn gens operands tyL tyR
      (P := fun x y w => q.unifyNaN w = q.apply f x y) (computes_floatOp hq f)
      fun commutative x y => by rw [apply_comm_of_isCommutative hf commutative]) ?_
    rintro dst σ₁ ⟨τ, hτ, hdst, reads, stage⟩
    refine ((turn τ hτ).finish (.of_reads reads fun t => by rw [Tally.turn, kind]) stage
      (fun _ _ h => h) hdst (if_pos rfl) (if_pos rfl) (fun A w hw => ?_)
      (forget_temporary rfl rfl rfl)).mono (fun _ σ' took =>
      ⟨⟨τ, hτ, took⟩, Option.some_ne_none f⟩) fun _ _ he => he
    simp only [World.visit, kind, hq, hf]
    exact ⟨_, hw, rfl⟩

end NativeExpr.Lowering
