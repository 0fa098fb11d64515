import NativeExpr.Lowering.Function
import NativeExpr.Proofs.Lowering.Turn

/-!
# Constants

A constant that an instruction can carry needs no code. Any other one gets a register,
which is its own from the start.
-/
namespace NativeExpr.Lowering

open NativeExpr X64 Convention

variable {S : Setting} {E : Env} {σ₀ σ σ' : State} {p₀ p : Pose} {R : Course}
variable {D : Finset NodeId} {id : NodeId} {n : Node} {r : Reg}

/-- A register that is set aside for a node becomes its place. -/
theorem Stage.settleHeld (h : Stage S E σ₀ p₀ D σ R p) (hid : id ∉ D) (hu : 0 < σ.uses id)
    (hr : r.Of (S.graph.tyOf id).regClass) (held : p.held r = some (.value id))
    {P : Moment → Word → Prop} (known : p.known r = some P) {f : Course}
    (found : ∀ A w, P A w → f A (.ok (A.find id ((S.graph.tyOf id).view w)))) :
    Generates S (setStorage id (.register r)) σ fun _ σ' => Reads σ σ' [] ∧
      Stage S E σ₀ p₀ (insert id D) σ' (R.andThen f) (p.hand r none).forget :=
  yields_setStorage (h.settle (p.hand r none).forget hid hu hr held known
    (h.inv.handed_self hr.1 held) found rfl rfl rfl (fun _ _ => trivial) lasting_forget)

theorem view_ofDouble (ty : ScalarType) (pattern : Word) :
    ty.view (Value.ofDouble ty pattern).bits = (Value.ofDouble ty pattern).bits := by
  unfold ScalarType.view Value.ofDouble
  split
  · exact Precision.fits_convert .single _
  · rfl

theorem Turn.settle (t : Turn S E σ₀ p₀ D σ R id n) {value : Literal}
    (kind : n.kind = .immediate value) (reads : Reads σ σ' [])
    (stage : Stage S E σ₀ p₀ D σ' R p) (hr : r.Of n.ty.regClass)
    (held : p.held = (Pose.idle.hand r (some (.value id))).held) (locks : p.locks = fun _ => 0)
    (lowered : p.lowered = 0) {P : Moment → Word → Prop} (known : p.known r = some P)
    (found : ∀ A w, P A w → E.world.visit S.graph id n A (.ok (A.find id (n.ty.view w)))) :
    Generates S (setStorage id (.register r)) σ' fun _ σ'' => Took S E σ₀ p₀ D σ R id n σ'' := by
  have operands : n.operands = [] := by rw [Node.operands, kind]; rfl
  have ty := t.tyOf_eq
  have own : p.held r = some (.value id) := by
    rw [held]
    exact Pose.held_hand
  refine (stage.settleHeld t.fresh (reads.uses_eq id ▸ t.wanted) (ty ▸ hr) own known
    (f := E.world.visit S.graph id n) fun A w hw => ?_).mono ?_ fun _ _ he => he
  · rw [ty]
    exact found A w hw
  · rintro _ σ'' ⟨reads', stage'⟩
    have back : (p.hand r none).forget = .idle := by
      show (⟨fun q => if q = r then none else p.held q, fun _ => none, p.locks, p.lowered,
        fun _ _ => True⟩ : Pose) = _
      rw [held, locks, lowered]
      have same : ((Pose.idle.hand r (some (.value id))).hand r none).held = Pose.idle.held := by
        rw [Pose.hand_hand, Pose.hand_none rfl]
      exact congrArg (fun h => (⟨h, fun _ => none, fun _ => 0, 0, fun _ _ => True⟩ : Pose)) same
    rw [back] at stage'
    refine ⟨.of_reads ?_ fun t => by rw [Tally.turn, kind], stage'⟩
    simpa [operands] using reads.trans reads'

theorem generates_lowerImmediate (t : Turn S E σ₀ p₀ D σ R id n) {value : Literal}
    (kind : n.kind = .immediate value) :
    Generates S (lowerImmediate id value n.ty) σ fun _ σ' => Took S E σ₀ p₀ D σ R id n σ' := by
  have typed := t.typed
  have operands : n.operands = [] := by rw [Node.operands, kind]; rfl
  have plain (t : Tally) : t.turn n = t := by rw [Tally.turn, kind]
  obtain ⟨_, ty⟩ := n
  obtain rfl : _ = NodeKind.immediate value := kind
  have solid : Pose.idle.Solid := fun _ _ he => by cases he
  cases value with
  | int v =>
    obtain ⟨notFloat, -⟩ := typed
    have hc : ty.regClass = .general := by rw [ScalarType.regClass, notFloat]; rfl
    dsimp only [lowerImmediate]
    split
    · next fits =>
      have aside : Generates S (setStorage id (.immediate v)) σ _ :=
        t.stage.settleAside t.fresh t.wanted (fun _ he => by cases he) (fun _ he => by cases he)
          (fun _ he => ?_) (f := E.world.visit S.graph id ⟨.immediate (.int v), ty⟩)
          fun _ _ A c _ => ?_
      · exact aside.mono (fun _ _ h => ⟨.of_reads h.1 plain, h.2⟩) fun _ _ he => he
      · cases he
        rw [t.tyOf_eq]
        exact ⟨notFloat, fits⟩
      · rw [t.tyOf_eq, ScalarType.view_of_general hc]
        exact rfl
    · refine .seq (t.stage.alloc solid room_idle (.value id) none) ?_
      rintro r σ₁ ⟨fresh, reads₁, stage₁⟩
      refine .seq (stage₁.assign (stage₁.inv.writable fresh.of.1 Pose.held_hand)
        (Machine.performs_movImm fresh.of v) (P := fun _ w => w = v) fun _ _ _ _ _ => rfl) ?_
      rintro _ σ₂ ⟨coded₂, stage₂⟩
      refine t.settle rfl (reads₁.trans coded₂.reads) stage₂ (hc ▸ fresh.of) rfl rfl
        rfl Pose.known_learn fun A w hw => ?_
      rw [ScalarType.view_of_general hc, hw]
      exact rfl
  | float pattern =>
    have float : ty.isFloat = true := typed
    have hc : ty.regClass = .float := by rw [ScalarType.regClass, float]; rfl
    refine .seq (t.stage.alloc solid room_idle (.value id) none) ?_
    rintro r σ₁ ⟨fresh, reads₁, stage₁⟩
    have write := stage₁.inv.writable fresh.of.1 Pose.held_hand
    have view := view_ofDouble ty pattern
    dsimp only
    split
    · next zero =>
      refine .seq (stage₁.assign write (Machine.performs_xorps fresh.of) (P := fun _ w => w = 0)
        fun _ _ _ _ _ => rfl) ?_
      rintro _ σ₂ ⟨coded₂, stage₂⟩
      refine t.settle rfl (reads₁.trans coded₂.reads) stage₂ (hc ▸ fresh.of) rfl rfl
        rfl Pose.known_learn fun A w hw => ?_
      rw [hw, ← zero, view]
      exact rfl
    · refine .seq (stage₁.assign (stage₁.inv.writable_scratch (.inl rfl))
        (Machine.performs_movImm (by decide) _)
        (P := fun _ w => w = (Value.ofDouble ty pattern).bits) fun _ _ _ _ _ => rfl) ?_
      rintro _ σ₂ ⟨coded₂, stage₂⟩
      refine .seq (stage₂.assign (stage₂.inv.writable fresh.of.1 Pose.held_hand)
        (Machine.performs_movBits _ fresh.of (by decide))
        (P := fun _ w => w = (Value.ofDouble ty pattern).bits) fun _ _ A c hm => ?_) ?_
      · have scratch := hm.known (r := .scratch) Pose.known_learn
        rw [scratch]
        by_cases single : ty = .f32
        · rw [ScalarType.view, if_pos single] at view
          rw [if_pos single]
          exact view
        · rw [if_neg single]
          exact Precision.fits_double _
      · rintro _ σ₃ ⟨coded₃, stage₃⟩
        refine t.settle rfl ((reads₁.trans coded₂.reads).trans coded₃.reads) stage₃
          (hc ▸ fresh.of) rfl rfl rfl Pose.known_learn fun A w hw => ?_
        rw [hw, view]
        exact rfl

end NativeExpr.Lowering
