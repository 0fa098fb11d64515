import NativeExpr.Lowering.Memory
import NativeExpr.Proofs.Lowering.Turn

/-!
# Loads

The machine shows the memory of the world where loads may read, so a load finds the
word of the schedule if its address is right. The address of an element is made in
four ways.
-/
namespace NativeExpr.Lowering

open NativeExpr X64 Convention

variable {S : Setting} {E : Env} {σ₀ σ σ' : State} {A : Moment} {p₀ p p' : Pose}
variable {R : Course} {D : Finset NodeId} {x y id base index : NodeId} {n : Node}
variable {r dst : Reg} {gen : NodeId → Lower Unit} {T : State → Prop} {ty : ScalarType}
variable {c : Machine.Config} {m : Mem} {address : Moment → Word}

/-- Whether a memory operand names an address that depends on what was found. -/
structure Addressed (S : Setting) (E : Env) (σ : State) (p : Pose) (m : Mem)
    (address : Moment → Word) : Prop where
  ready : m.Ready
  eq : E.Sound → Within S E σ → ∀ A c, Matches S.graph E A σ p c →
    c.state.memAddress m = address A

/-! ## The load -/

/-- What the machine loads is something that the world allows. -/
theorem Matches.loads {g : Graph} (hm : Matches g E A σ p c) (sound : E.Sound) (ty : ScalarType)
    (a : Word) : E.world.Loads A ty a (ty.settle (c.state.memory.load a ty.size)) := by
  refine ⟨_, rfl, fun inside => Memory.load_congr fun i hi => hm.heap _ ?_⟩
  rw [← sound.heap]
  exact inside i hi

theorem extensionSize_eq {kind : Extension} (h : extension ty = some kind) :
    Machine.extensionSize kind = ty.size := by
  cases ty <;> cases h <;> rfl

theorem size_of_no_extension (h : extension ty = none) (hq : ty.precision? = none) :
    ty.size = 8 := by
  cases ty <;> first | rfl | exact absurd h (by decide) | exact absurd hq (by decide)

def Loaded (E : Env) (ty : ScalarType) (address : Moment → Word) (A : Moment) (w : Word) : Prop :=
  E.world.Loads A ty (address A) (ty.view w)

theorem Stage.emitLoad (h : Stage S E σ₀ p₀ D σ R p) (hr : r.Of ty.regClass)
    (held : p.held r = some .temp) (addressed : Addressed S E σ p m address) :
    Generates S (emitLoad r ty m) σ fun _ σ' => Coded σ σ' ∧
      Stage S E σ₀ p₀ D σ' R (p.learn r (Loaded E ty address)) := by
  have writable := h.inv.writable hr.1 held
  unfold Lowering.emitLoad
  cases hq : ty.precision? with
  | some q =>
    rw [ScalarType.regClass_of_precision hq] at hr
    refine h.assign writable (Machine.performs_movFloat q hr (o := .mem m) addressed.ready)
      fun sound within A c hm => ?_
    have size : q.width / 8 = ty.size := by cases ty <;> cases hq <;> rfl
    have none : extension ty = none := by cases ty <;> first | rfl | cases hq
    show E.world.Loads A ty _ (ty.view (c.state.memory.load (c.state.memAddress m) (q.width / 8)))
    rw [addressed.eq sound within A c hm, size, settle_of_no_extension none]
    exact hm.loads sound ty _
  | none =>
    have hc := ScalarType.regClass_of_no_precision hq
    rw [hc] at hr
    cases hk : extension ty with
    | none =>
      refine h.assign writable (Machine.performs_load hr addressed.ready)
        fun sound within A c hm => ?_
      show E.world.Loads A ty _ (ty.view (c.state.memory.load (c.state.memAddress m) 8))
      rw [addressed.eq sound within A c hm, settle_of_no_extension hk,
        ← size_of_no_extension hk hq]
      exact hm.loads sound ty _
    | some kind =>
      refine h.assign writable (Machine.performs_loadNarrow kind hr addressed.ready)
        fun sound within A c hm => ?_
      rw [Loaded, ScalarType.view_of_general hc, (settle_of_extension hk _).1, extensionSize_eq hk,
        addressed.eq sound within A c hm]
      exact hm.loads sound ty _

/-! ## Fields -/

theorem Addressed.of_reading (hr : r.Of .general) (hc : (S.graph.tyOf x).regClass = .general)
    (known : p.known r = some (Reading S.graph x)) {offset : Int}
    (fits : fitsSigned 32 offset = true) :
    Addressed S E σ p (.baseDisp r offset) fun A => fieldAddress (A.word x) offset := by
  refine ⟨Mem.ready_baseDisp hr offset, fun _ _ A c hm => ?_⟩
  rw [memAddress_baseDisp _ _ _ fits, hm.named_word hc known, fieldAddress]

theorem generates_lowerField {offset : Int}
    (turn : ∀ τ, T τ → Turn S E σ₀ p₀ D τ R id n) (gens : Operands S gen T [base] σ)
    (kind : n.kind = .field base offset) (tyB : S.graph.tyOf base = .ptr)
    (fits : fitsSigned 32 offset = true) :
    Generates S (lowerField S.ctx gen id base offset n.ty) σ fun _ σ' =>
      ∃ τ, T τ ∧ Took S E σ₀ p₀ D τ R id n σ' := by
  have operands : n.operands = [base] := by rw [Node.operands, kind]; rfl
  have hc : (S.graph.tyOf base).regClass = .general := by rw [tyB]; rfl
  refine .seq gens fun _ τ hτ => ?_
  have t := turn τ hτ
  have hb : base ∈ D := t.reads base (by simp [operands])
  have live : 0 < τ.uses base := t.live (by simp [operands])
  refine .seq (t.stage.allocBeside live) ?_
  rintro dst σ₂ ⟨hdst, reads₂, stage₂⟩
  refine .seq (stage₂.generalRegister hb (reads₂.uses_eq base ▸ live) hc) ?_
  rintro b σ₃ ⟨hbr, free, coded₃, stage₃⟩
  refine .seq (stage₃.emitLoad hdst Pose.held_hand
    (.of_reading hbr hc Pose.known_learn fits)) ?_
  rintro _ σ₄ ⟨coded₄, stage₄⟩
  have reads : Reads τ σ₄ [] :=
    (reads₂.trans coded₃.reads).trans coded₄.reads
  refine .seq (stage₄.consume (reads.uses_eq base ▸ live) (.of_unlocked rfl)) ?_
  rintro _ σ₅ ⟨reads₅, stage₅⟩
  refine (t.finish (.of_reads (operands ▸ reads.trans reads₅) fun t => by rw [Tally.turn, kind])
    stage₅ (fun _ _ h => h) hdst Pose.held_hand Pose.known_learn (fun A w hw => ?_)
    (forget_temporary rfl rfl rfl)).mono (fun _ σ' took => ⟨τ, hτ, took⟩) fun _ _ he => he
  simp only [World.visit, kind]
  exact ⟨_, hw, rfl⟩

/-! ## Elements -/

theorem memAddress_indexed (s : Machine.State) (b x : Reg) (scale : Scale) :
    s.memAddress (.indexed b x scale 0) = s.named b + s.named x * BitVec.ofNat 64 scale.factor := by
  show s.named b + s.named x * BitVec.ofNat 64 scale.factor + (BitVec.ofInt 32 0).signExtend 64 = _
  exact BitVec.add_zero _

theorem factor_ofSize (ty : ScalarType) : (Scale.ofSize ty.size).factor = ty.size := by
  cases ty <;> rfl

def elementOf (base index : NodeId) (ty : ScalarType) (A : Moment) : Word :=
  elementAddress (A.word base) (A.word index) ty

theorem Stage.foldedElement (h : Stage S E σ₀ p₀ D σ R p) (hb : base ∈ D)
    (live : 0 < σ.uses base) (hcb : (S.graph.tyOf base).regClass = .general)
    (hci : (S.graph.tyOf index).regClass = .general) {value : Word}
    (placed : Placed σ index (.immediate value))
    (fits : fitsSigned 32 ((value.setWidth 32).toInt * ty.size) = true) :
    Generates S (do
      let r ← Lowering.generalRegister base
      return Mem.baseDisp r ((value.setWidth 32).toInt * ty.size)) σ fun m σ' =>
      Coded σ σ' ∧ ∃ p', p.Beside p' ∧ Addressed S E σ' p' m (elementOf base index ty) ∧
        Stage S E σ₀ p₀ D σ' R p' := by
  refine .seq (h.generalRegister hb live hcb) ?_
  rintro r σ₁ ⟨hr, free, coded, stage⟩
  refine .of_pure ⟨coded, _, Pose.beside_learn free, ⟨Mem.ready_baseDisp hr _, ?_⟩, stage⟩
  intro sound within A c hm
  have placed₁ : Placed σ₁ index (.immediate value) :=
    ⟨(coded.place_eq index).trans placed.place, coded.reads.uses_eq index ▸ placed.live⟩
  have first : c.state.named r = A.word base := hm.named_word hcb Pose.known_learn
  have second : (value.setWidth 32).signExtend 64 = A.word index :=
    hm.operand_word stage.inv sound within placed₁ hci
  rw [memAddress_baseDisp _ _ _ fits, first, elementOf, elementAddress, ← second,
    BitVec.ofInt_mul, BitVec.signExtend, BitVec.ofInt_natCast]

theorem factor_eq_two_pow (scale : Scale) : scale.factor = 2 ^ scale.log.toNat := by
  cases scale <;> rfl

theorem shiftWord_log (ty : ScalarType) (w : Word) :
    Machine.shiftWord .shl w ((Scale.ofSize ty.size).log.toNat % 64) =
      w * BitVec.ofNat 64 ty.size := by
  have factor := factor_ofSize ty
  generalize Scale.ofSize ty.size = scale at *
  have small : scale.log.toNat % 64 % 64 = scale.log.toNat := by
    have := scale.log.isLt
    omega
  have power : BitVec.twoPow 64 scale.log.toNat = BitVec.ofNat 64 (2 ^ scale.log.toNat) :=
    BitVec.eq_of_toNat_eq (by rw [BitVec.toNat_twoPow, BitVec.toNat_ofNat])
  rw [← factor, factor_eq_two_pow, Machine.shiftWord, small, BitVec.shiftLeft_eq_mul_twoPow, power]

/-- The address of an element as the scratch register holds it. -/
theorem Stage.computedElement (h : Stage S E σ₀ p₀ D σ R p) (ty : ScalarType) {plB plI : Storage}
    (placedB : Placed σ base plB) (placedI : Placed σ index plI)
    (hcb : (S.graph.tyOf base).regClass = .general)
    (hci : (S.graph.tyOf index).regClass = .general) :
    Generates S (do
      emit (Assembler.mov .scratch plI.operand)
      if 1 < ty.size then
        emit (Assembler.shiftImm .shl .scratch (Scale.ofSize ty.size).log.toNat)
      emit (Assembler.alu .add .scratch plB.operand)
      return Mem.baseDisp .scratch 0) σ fun m σ' =>
      Coded σ σ' ∧ ∃ p', p.Beside p' ∧ Addressed S E σ' p' m (elementOf base index ty) ∧
        Stage S E σ₀ p₀ D σ' R p' := by
  have scratch {τ : State} {q : Pose} (stage : Stage S E σ₀ p₀ D τ R q) : Writable τ .scratch :=
    stage.inv.writable_scratch (.inl rfl)
  have ready := h.inv.ready placedI
  rw [hci] at ready
  refine .seq (h.assign (scratch h) (Machine.performs_mov (by decide) ready)
    (P := fun A w => w = A.word index) fun sound within A c hm =>
      hm.operand_word h.inv sound within placedI hci) ?_
  rintro _ σ₁ ⟨coded₁, stage₁⟩
  -- The scaled index is in the scratch register either way.
  have rest (σ₂ : State) (p' : Pose) (coded₂ : Coded σ₁ σ₂) (beside : p.Beside p')
      (stage₂ : Stage S E σ₀ p₀ D σ₂ R p')
      (known : p'.known .scratch =
        some fun A w => w = A.word index * BitVec.ofNat 64 ty.size) :
      Generates S (do
        emit (Assembler.alu .add .scratch plB.operand)
        return Mem.baseDisp .scratch 0) σ₂ fun m σ' =>
        Coded σ σ' ∧ ∃ p', p.Beside p' ∧ Addressed S E σ' p' m (elementOf base index ty) ∧
          Stage S E σ₀ p₀ D σ' R p' := by
    have coded := coded₁.trans coded₂
    have placed : Placed σ₂ base plB :=
      ⟨(coded.place_eq base).trans placedB.place, coded.reads.uses_eq base ▸ placedB.live⟩
    have ready := stage₂.inv.ready placed
    rw [hcb] at ready
    refine .seq (stage₂.compute (scratch stage₂)
      (Machine.performs_alu .add (by decide) ready)
      (P := fun A w => w = elementOf base index ty A) fun sound within A c hm => ?_) ?_
    · obtain ⟨flags, hf⟩ := Machine.execAlu_eq (show Reg.scratch.Of .general by decide) .add c.state
        (c.state.operand plB.operand)
      refine ⟨_, flags, hf, ?_⟩
      rw [hm.known known, hm.operand_word stage₂.inv sound within placed hcb]
      exact BitVec.add_comm _ _
    rintro _ σ₃ ⟨coded₃, stage₃⟩
    refine .of_pure ⟨coded.trans coded₃, _, ?_, ⟨Mem.ready_baseDisp (by decide) 0, ?_⟩, stage₃⟩
    · have free := stage₂.inv.notHeld_scratch (.inl rfl)
      have last := Pose.beside_learn (P := fun A w => w = elementOf base index ty A) free
      exact ⟨last.held.trans beside.held, last.locks.trans beside.locks,
        last.lowered.trans beside.lowered, fun q owner hq =>
          (last.known q owner (beside.held ▸ hq)).trans (beside.known q owner hq)⟩
    · intro sound within A c hm
      rw [memAddress_baseDisp _ _ _ (by decide)]
      have := hm.known (r := .scratch) (P := fun A w => w = elementOf base index ty A) rfl
      rw [this]
      exact BitVec.add_zero _
  have free := h.inv.notHeld_scratch (.inl rfl)
  dsimp only
  split
  · refine .seq (stage₁.assign (scratch stage₁) (Machine.performs_shiftImm .shl (by decide) _)
      (P := fun A w => w = A.word index * BitVec.ofNat 64 ty.size) fun _ _ A c hm => ?_) ?_
    · rw [hm.known Pose.known_learn]
      exact shiftWord_log ty _
    · rintro _ σ₂ ⟨coded₂, stage₂⟩
      rw [Pose.learn_learn] at stage₂
      exact rest σ₂ _ coded₂ (Pose.beside_learn free) stage₂ Pose.known_learn
  · next single =>
    have one : ty.size = 1 := by cases ty <;> first | rfl | exact absurd (by decide) single
    refine rest σ₁ _ ⟨⟨σ₁.asm, rfl⟩, .refl, rfl⟩ (Pose.beside_learn free) stage₁
      (Pose.known_learn.trans (congrArg some ?_))
    funext A w
    rw [one, show A.word index * BitVec.ofNat 64 1 = A.word index from BitVec.mul_one _]

/-- The address of an element whose index is scaled by the instruction. -/
theorem Stage.indexedElement (h : Stage S E σ₀ p₀ D σ R p) {b q : Reg} (hb : b.Of .general)
    (known : E.Sound → Within S E σ → ∀ A c, Matches S.graph E A σ p c →
      c.state.named b = A.word base)
    (placed : Placed σ index (.register q))
    (hci : (S.graph.tyOf index).regClass = .general) :
    Addressed S E σ p (.indexed b q (.ofSize ty.size) 0) (elementOf base index ty) := by
  have hq := h.inv.register placed.place placed.live
  rw [hci] at hq
  refine ⟨⟨hb, ?_⟩, fun sound within A c hm => ?_⟩
  · rintro _ _ he
    cases he
    exact ⟨hq, h.inv.placed_ne_rsp placed⟩
  · have word : c.state.named q = A.word index := hm.operand_word h.inv sound within placed hci
    rw [memAddress_indexed, known sound within A c hm, word, factor_ofSize]
    rfl

/-- The address of an element with the base in the scratch register. -/
theorem Stage.loadedElement (h : Stage S E σ₀ p₀ D σ R p) {q : Reg} {plB : Storage}
    (placedB : Placed σ base plB) (placedI : Placed σ index (.register q))
    (hcb : (S.graph.tyOf base).regClass = .general)
    (hci : (S.graph.tyOf index).regClass = .general) :
    Generates S (do
      emit (Assembler.mov .scratch plB.operand)
      return Mem.indexed .scratch q (.ofSize ty.size) 0) σ fun m σ' =>
      Coded σ σ' ∧ ∃ p', p.Beside p' ∧ Addressed S E σ' p' m (elementOf base index ty) ∧
        Stage S E σ₀ p₀ D σ' R p' := by
  have ready := h.inv.ready placedB
  rw [hcb] at ready
  refine .seq (h.assign (h.inv.writable_scratch (.inl rfl)) (Machine.performs_mov (by decide) ready)
    (P := fun A w => w = A.word base) fun sound within A c hm =>
      hm.operand_word h.inv sound within placedB hcb) ?_
  rintro _ σ₁ ⟨coded, stage⟩
  have placed₁ : Placed σ₁ index (.register q) :=
    ⟨(coded.place_eq index).trans placedI.place, coded.reads.uses_eq index ▸ placedI.live⟩
  exact .of_pure ⟨coded, _, Pose.beside_learn (h.inv.notHeld_scratch (.inl rfl)),
    stage.indexedElement (by decide) (fun _ _ A c hm => hm.known (r := .scratch) Pose.known_learn)
      placed₁ hci, stage⟩

theorem Stage.elementOperand (h : Stage S E σ₀ p₀ D σ R p) (hb : base ∈ D) (hi : index ∈ D)
    (liveB : 0 < σ.uses base) (liveI : 0 < σ.uses index)
    (hcb : (S.graph.tyOf base).regClass = .general)
    (hci : (S.graph.tyOf index).regClass = .general) :
    Generates S (elementOperand base index ty.size) σ fun m σ' =>
      Coded σ σ' ∧ ∃ p', p.Beside p' ∧ Addressed S E σ' p' m (elementOf base index ty) ∧
        Stage S E σ₀ p₀ D σ' R p' := by
  obtain ⟨plB, placedB⟩ := h.inv.placed hb liveB
  obtain ⟨plI, placedI⟩ := h.inv.placed hi liveI
  refine .seq placedB.operand ?_
  rintro _ _ ⟨rfl, rfl⟩
  refine .seq placedI.operand ?_
  rintro _ _ ⟨rfl, rfl⟩
  have computed := h.computedElement ty placedB placedI hcb hci
  cases plI with
  | immediate value =>
    dsimp only [Storage.operand]
    cases fits : fitsDisp ((value.setWidth 32).toInt * ty.size) with
    | true =>
      rw [Option.filter_some_pos fits]
      exact h.foldedElement hb liveB hcb hci placedI fits
    | false =>
      rw [Option.filter_some_neg fits]
      cases plB <;> exact computed
  | stack offset => cases plB <;> exact computed
  | register q =>
    cases plB with
    | register b =>
      have hbr := h.inv.register placedB.place liveB
      rw [hcb] at hbr
      exact .of_pure ⟨⟨⟨σ.asm, rfl⟩, .refl, rfl⟩, p, ⟨rfl, rfl, rfl, fun _ _ _ => rfl⟩,
        h.indexedElement hbr (fun sound within A c hm =>
          hm.operand_word h.inv sound within placedB hcb) placedI hci, h⟩
    | stack offset => exact h.loadedElement placedB placedI hcb hci
    | immediate value => exact h.loadedElement placedB placedI hcb hci

theorem generates_lowerElement
    (turn : ∀ τ, T τ → Turn S E σ₀ p₀ D τ R id n) (gens : Operands S gen T [base, index] σ)
    (kind : n.kind = .element base index) (hcb : (S.graph.tyOf base).regClass = .general)
    (hci : (S.graph.tyOf index).regClass = .general) :
    Generates S (lowerElement S.ctx gen id base index n.ty) σ fun _ σ' =>
      ∃ τ, T τ ∧ Took S E σ₀ p₀ D τ R id n σ' := by
  have operands : n.operands = [base, index] := by rw [Node.operands, kind]; rfl
  refine gens.both turn operands fun τ t hb hi uses => ?_
  have liveB : 0 < τ.uses base := t.live (by simp [operands])
  have liveI : 0 < τ.uses index := t.live (by simp [operands])
  have classes : n.ty.regClass = .general ∨ (S.graph.tyOf base).regClass ≠ n.ty.regClass ∧
      (S.graph.tyOf index).regClass ≠ n.ty.regClass := by
    rw [hcb, hci]
    cases n.ty.regClass with
    | general => exact .inl rfl
    | float => exact .inr (by decide)
  refine .seq (t.stage.allocBesideTwo liveB liveI classes) ?_
  rintro dst σ₂ ⟨hdst, reads₂, stage₂⟩
  refine .seq (stage₂.elementOperand hb hi (reads₂.uses_eq base ▸ liveB)
    (reads₂.uses_eq index ▸ liveI) hcb hci) ?_
  rintro m σ₃ ⟨coded₃, p, beside, addressed, stage₃⟩
  have held : p.held dst = some .temp := by
    rw [beside.held]
    exact Pose.held_hand
  refine .seq (stage₃.emitLoad hdst held addressed) ?_
  rintro _ σ₄ ⟨coded₄, stage₄⟩
  have reads : Reads τ σ₄ [] :=
    (reads₂.trans coded₃.reads).trans coded₄.reads
  refine stage₄.consumeBoth beside.locks reads uses fun σ₅ reads₅ stage₅ => ?_
  refine t.finish (.of_reads (operands ▸ reads₅) fun t => by rw [Tally.turn, kind])
    stage₅ (fun _ _ h => h) hdst held Pose.known_learn (fun A w hw => ?_)
    (forget_temporary beside.held beside.locks beside.lowered)
  simp only [World.visit, kind]
  exact ⟨_, hw, rfl⟩

end NativeExpr.Lowering
