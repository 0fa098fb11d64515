import NativeExpr.Proofs.Arithmetic
import NativeExpr.Proofs.Lowering.Turn

/-!
# Divisions and shifts

A division reads the divisor from a place that is neither `rax` nor `rdx`, which it
takes for itself. It traps exactly where the operation has no result. A variable
shift takes `rcx`.
-/
namespace NativeExpr.Lowering

open NativeExpr X64 Convention

variable {S : Setting} {E : Env} {σ₀ σ σ' : State} {A : Moment} {p₀ p p' : Pose}
variable {R : Course} {D : Finset NodeId} {x y id lhs rhs : NodeId} {n : Node}
variable {ty : ScalarType} {r : Reg} {gen : NodeId → Lower Unit} {T : State → Prop}
variable {src : Operand} {c : Machine.Config}

/-! ## Values as sources -/

/-- An operand, not a constant, that gives the word of a general value. -/
structure Source (S : Setting) (σ : State) (p : Pose) (x : NodeId) (src : Operand) : Prop where
  general : (S.graph.tyOf x).regClass = .general
  notImm : src.isImm = false
  place : (∃ pl, Placed σ x pl ∧ src = pl.operand) ∨
    src = .reg .scratch ∧ p.known .scratch = some (Reading S.graph x)

theorem Source.ready (h : Source S σ p x src) (inv : Inv S D σ p) : src.Ready .general := by
  rcases h.place with ⟨pl, placed, rfl⟩ | ⟨rfl, -⟩
  · exact h.general ▸ inv.ready placed
  · exact (by decide : Reg.Of .general .scratch)

theorem Source.word (h : Source S σ p x src) (inv : Inv S D σ p) (sound : E.Sound)
    (within : Within S E σ) (hm : Matches S.graph E A σ p c) : c.state.operand src = A.word x := by
  rcases h.place with ⟨pl, placed, rfl⟩ | ⟨rfl, known⟩
  · exact hm.operand_word inv sound within placed h.general
  · exact hm.named_word h.general known

theorem Source.after (h : Source S σ p x src) (coded : Coded σ σ')
    (known : p'.known .scratch = p.known .scratch) : Source S σ' p' x src := by
  refine ⟨h.general, h.notImm, ?_⟩
  rcases h.place with ⟨pl, placed, he⟩ | ⟨he, hk⟩
  · exact .inl ⟨pl, ⟨(coded.place_eq x).trans placed.place,
      (coded.reads.uses_eq x).symm ▸ placed.live⟩, he⟩
  · exact .inr ⟨he, known.trans hk⟩

/-- What may be known more of the scratch register. -/
structure Scratched (p p' : Pose) : Prop where
  held : p'.held = p.held
  locks : p'.locks = p.locks
  lowered : p'.lowered = p.lowered
  flags : p'.flags = p.flags
  known : ∀ q, q ≠ .scratch → p'.known q = p.known q

/-- A value as a source; a constant goes through the scratch register. -/
theorem Stage.divisorOperand (h : Stage S E σ₀ p₀ D σ R p) (hx : x ∈ D) (hu : 0 < σ.uses x)
    (hc : (S.graph.tyOf x).regClass = .general) :
    Generates S (divisorOperand x) σ fun src σ' => Coded σ σ' ∧ ∃ p', Scratched p p' ∧
      Source S σ' p' x src ∧ Stage S E σ₀ p₀ D σ' R p' := by
  obtain ⟨pl, placed⟩ := h.inv.placed hx hu
  refine .seq placed.operand ?_
  rintro _ _ ⟨rfl, rfl⟩
  cases pl with
  | register r =>
    exact .of_pure ⟨⟨⟨σ.asm, rfl⟩, .refl, rfl⟩, p, ⟨rfl, rfl, rfl, rfl, fun _ _ => rfl⟩,
      ⟨hc, rfl, .inl ⟨_, placed, rfl⟩⟩, h⟩
  | stack offset =>
    exact .of_pure ⟨⟨⟨σ.asm, rfl⟩, .refl, rfl⟩, p, ⟨rfl, rfl, rfl, rfl, fun _ _ => rfl⟩,
      ⟨hc, rfl, .inl ⟨_, placed, rfl⟩⟩, h⟩
  | immediate value =>
    refine .seq (h.assign (h.inv.writable_scratch (.inl rfl))
      (Machine.performs_movImm (by decide) _)
      (P := Reading S.graph x) fun sound within A c hm => ?_) ?_
    · rw [Reading, ← hm.operand_word h.inv sound within placed hc, ScalarType.view_of_general hc]
      rfl
    · rintro _ σ' ⟨coded, stage⟩
      exact .of_pure ⟨coded, p.learn .scratch (Reading S.graph x),
        ⟨rfl, rfl, rfl, rfl, fun _ hq => Pose.known_learn_of_ne hq⟩,
        ⟨hc, rfl, .inr ⟨rfl, Pose.known_learn⟩⟩, stage⟩

/-- Loading the word of a general value into a register that may be written. -/
theorem Stage.load (h : Stage S E σ₀ p₀ D σ R p) {pl : Storage} (placed : Placed σ x pl)
    (hc : (S.graph.tyOf x).regClass = .general) (hr : r.Of .general) (writable : Writable σ r) :
    Generates S (emit (Assembler.mov r pl.operand)) σ fun _ σ' => Coded σ σ' ∧
      Stage S E σ₀ p₀ D σ' R (p.learn r fun A w => w = A.word x) :=
  h.assign writable (Machine.performs_mov hr (hc ▸ h.inv.ready placed)) fun sound within _ _ hm =>
    hm.operand_word h.inv sound within placed hc

/-! ## Divisions -/

def checked (ty : ScalarType) (x y : NodeId) : Course := fun A o =>
  match ArithOp.div.evalInt ty (A.word x) (A.word y) with
  | .ok _ => o = .ok A
  | .error _ => o = .error A.events

theorem Stage.divide (h : Stage S E σ₀ p₀ D σ R p) (ty : ScalarType) (source : Source S σ p y src)
    (heldA : p.held .rax = some .temp) (heldD : p.held .rdx = some .temp)
    (knownA : p.known .rax = some fun A w => w = A.word x)
    (knownD : p.known .rdx = some fun A w => w = highWord ty.isSigned (A.word x)) :
    Generates S (emit (Assembler.div ty.isSigned src)) σ fun _ σ' => Coded σ σ' ∧
      Stage S E σ₀ p₀ D σ' (R.andThen (checked ty x y))
        ((p.learn .rax fun A w => ArithOp.div.evalInt ty (A.word x) (A.word y) = .ok w).learn .rdx
          fun A w => ArithOp.rem.evalInt ty (A.word x) (A.word y) = .ok w) := by
  refine (yields_perform h.inv.residue h.inv.clean.sound (Machine.performs_div ty.isSigned
    (source.ready h.inv) source.notImm)).mono ?_ fun _ _ he => he
  rintro _ σ' ⟨asm, rfl, residue, coded, ⟨its, w⟩, acts⟩
  have writeA := h.inv.writable (by decide) heldA
  have writeD := h.inv.writable (by decide) heldD
  have inv' : Inv S D σ (p.learn .rax fun A w =>
      ArithOp.div.evalInt ty (A.word x) (A.word y) = .ok w) :=
    h.inv.congr rfl rfl (h.inv.knownValid_learn (by decide))
  refine ⟨coded, h.next ((h.inv.setAsm residue w).congr rfl rfl
    (inv'.knownValid_learn (by decide))) coded.grows ?_⟩
  intro sound within A c at_ hm
  have before := within.of_grows h.inv.begun coded.grows
  have act := acts E.site sound.site before.code within.code c at_ fun _ _ =>
    sound.permits.quiet (hm.keeps before)
  have hA := hm.known knownA
  have hD := hm.known knownD
  have hy := source.word h.inv sound before hm
  have meaning := divide_eq ty (A.word x) (A.word y)
  rw [← hD, ← hA, ← hy] at meaning
  unfold checked
  rw [hA, hy] at meaning
  cases result : Machine.divide ty.isSigned (c.state.named .rdx) (A.word x) (A.word y) with
  | none =>
    rw [result] at meaning
    obtain ⟨⟨e, failed⟩, -⟩ := meaning
    rw [failed]
    refine ⟨_, rfl, act.traps ?_ _ hm.log⟩
    rw [hA, hy, result]
    rfl
  | some qr =>
    obtain ⟨q, r⟩ := qr
    rw [result] at meaning
    rw [meaning.1]
    have effect : (Machine.divide ty.isSigned (c.state.named .rdx) (c.state.named .rax)
        (c.state.operand src)).map (fun qr => (c.state.setNamed .rax qr.1).setNamed .rdx qr.2) =
        some ((c.state.setNamed .rax q).setNamed .rdx r) := by
      rw [hA, hy, result]
      rfl
    refine ⟨_, rfl, (act.leads _ effect).mono fun c' next => ?_⟩
    have first := hm.setNamed h.inv writeA
      (P := fun A w => ArithOp.div.evalInt ty (A.word x) (A.word y) = .ok w) meaning.1
    have second := (first.setNamed inv' writeD
      (P := fun A w => ArithOp.rem.evalInt ty (A.word x) (A.word y) = .ok w)
      meaning.2).setState next
    exact ⟨second.values, second.known, second.sp, second.bp, second.heap, second.kept,
      second.saved, second.log, second.flags⟩

theorem Stage.setAside (h : Stage S E σ₀ p₀ D σ R p) (hr : r ∈ generalOrder.take 4)
    (free : σ.regs.owner r = none) :
    Generates S (onRegs (RegisterFile.take r .temp)) σ fun _ σ' =>
      Reads σ σ' [] ∧ Owners σ σ' r (some .temp) ∧ σ'.values = σ.values ∧
        Stage S E σ₀ p₀ D σ' R (p.hand r (some .temp)) :=
  h.take ((by decide : ∀ q ∈ generalOrder.take 4, q.Valid) r hr) free
    (mem_budgeted_of_ample (.inl hr)) .temp

def Pose.dividend : Pose := (Pose.idle.hand .rax (some .temp)).hand .rdx (some .temp)

def divided (ty : ScalarType) (x y : NodeId) (p : Pose) : Pose :=
  (p.learn .rax fun A w => ArithOp.div.evalInt ty (A.word x) (A.word y) = .ok w).learn .rdx
    fun A w => ArithOp.rem.evalInt ty (A.word x) (A.word y) = .ok w

/-- What a division leaves before its operands are given back. -/
def Divided (S : Setting) (E : Env) (σ₀ : State) (p₀ : Pose) (D : Finset NodeId) (σ : State)
    (R : Course) (ty : ScalarType) (x y : NodeId) (σ' : State) : Prop :=
  Reads σ σ' [] ∧ ∃ p, p.held = Pose.dividend.held ∧ p.locks = (fun _ => 0) ∧ p.lowered = 0 ∧
    Stage S E σ₀ p₀ D σ' (R.andThen (checked ty x y)) (divided ty x y p)

/-- The code of a division up to its instruction, followed by other code. -/
theorem Stage.dividing (h : Stage S E σ₀ p₀ D σ R .idle) (hx : x ∈ D) (hy : y ∈ D)
    (liveX : 0 < σ.uses x) (liveY : 0 < σ.uses y)
    (hcx : (S.graph.tyOf x).regClass = .general) (hcy : (S.graph.tyOf y).regClass = .general)
    {k : Lower Unit} {post : Unit → State → Prop}
    (next : ∀ σ', Divided S E σ₀ p₀ D σ R ty x y σ' → Generates S k σ' post) :
    Generates S (do
      Lowering.evict .rax
      Lowering.evict .rdx
      onRegs (RegisterFile.take .rax .temp)
      onRegs (RegisterFile.take .rdx .temp)
      let divisor ← Lowering.divisorOperand y
      let dividend ← operand x
      emit (Assembler.mov .rax dividend)
      if ty.isSigned then emit Assembler.cqo else emit (Assembler.movImm .rdx 0)
      emit (Assembler.div ty.isSigned divisor)
      k) σ post := by
  refine .seq (h.evict (by decide) rfl rfl) ?_
  rintro _ σ₁ ⟨reads₁, owners₁, stage₁⟩
  refine .seq (stage₁.evict (by decide) rfl rfl) ?_
  rintro _ σ₂ ⟨reads₂, owners₂, stage₂⟩
  have freeA : σ₂.regs.owner .rax = none := by
    rw [owners₂ (by decide), if_neg (by decide), owners₁ (by decide), if_pos rfl]
  refine .seq (stage₂.setAside (by decide) freeA) ?_
  rintro _ σ₃ ⟨reads₃, owners₃, -, stage₃⟩
  have freeD : σ₃.regs.owner .rdx = none := by
    rw [owners₃ (by decide), if_neg (by decide), owners₂ (by decide), if_pos rfl]
  refine .seq (stage₃.setAside (by decide) freeD) ?_
  rintro _ σ₄ ⟨reads₄, -, -, stage₄⟩
  have reads : Reads σ σ₄ [] := ((reads₁.trans reads₂).trans reads₃).trans reads₄
  refine .seq (stage₄.divisorOperand hy (reads.uses_eq y ▸ liveY) hcy) ?_
  rintro src σ₅ ⟨coded₅, p₅, scratched, source, stage₅⟩
  have reads : Reads σ σ₅ [] := reads.trans coded₅.reads
  have heldA : p₅.held .rax = some .temp := by
    rw [scratched.held]
    rfl
  have heldD : p₅.held .rdx = some .temp := by
    rw [scratched.held]
    rfl
  obtain ⟨pl, placed⟩ := stage₅.inv.placed hx (reads.uses_eq x ▸ liveX)
  refine .seq placed.operand ?_
  rintro _ _ ⟨rfl, rfl⟩
  refine .seq (stage₅.load placed hcx (by decide) (stage₅.inv.writable (by decide) heldA)) ?_
  rintro _ σ₆ ⟨coded₆, stage₆⟩
  have source₆ : Source S σ₆ (p₅.learn .rax fun A w => w = A.word x) y src :=
    source.after coded₆ (Pose.known_learn_of_ne (by decide))
  have writeD := stage₆.inv.writable (r := .rdx) (by decide) heldD
  -- Either way the other half of the dividend is in `rdx`.
  have rest (σ₇ : State) : (Coded σ₆ σ₇ ∧ Stage S E σ₀ p₀ D σ₇ R
      ((p₅.learn .rax fun A w => w = A.word x).learn .rdx
        fun A w => w = highWord ty.isSigned (A.word x))) →
      Generates S (do
        emit (Assembler.div ty.isSigned src)
        k) σ₇ post := by
    rintro ⟨coded₇, stage₇⟩
    refine .seq (stage₇.divide ty (source₆.after coded₇
      (Pose.known_learn_of_ne (by decide))) heldA heldD ?_ Pose.known_learn) ?_
    · rw [Pose.known_learn_of_ne (by decide)]
      exact Pose.known_learn
    · rintro _ σ₈ ⟨coded₈, stage₈⟩
      refine next σ₈ ⟨((reads.trans coded₆.reads).trans coded₇.reads).trans coded₈.reads, _,
        ?_, ?_, ?_, stage₈⟩
      · exact scratched.held
      · exact scratched.locks
      · exact scratched.lowered
  dsimp only
  cases signed : ty.isSigned with
  | true =>
    rw [signed] at rest
    refine .seq (stage₆.assign writeD Machine.performs_cqo fun _ _ A c hm => ?_) fun _ => rest
    rw [hm.known Pose.known_learn]
    rfl
  | false =>
    rw [signed] at rest
    exact .seq (stage₆.assign writeD (Machine.performs_movImm (by decide) 0)
      (P := fun A w => w = highWord false (A.word x)) fun _ _ _ _ _ => rfl) fun _ => rest

theorem held_hand_congr (h : p.held = p'.held) {owner : Option Owner} :
    (p.hand r owner).held = (p'.hand r owner).held := by
  simp only [Pose.hand, h]

theorem goes_checked {e : ArithOp} (he : e = .div ∨ e = .rem) (kind : n.kind = .arith e x y)
    (general : n.ty.precision? = none) (m : Moment) (o : Except (List Event) Moment)
    (h : (R.andThen (checked n.ty x y)).andThen (E.world.visit S.graph id n) m o) :
    R.andThen (E.world.visit S.graph id n) m o := by
  rw [Course.andThen_assoc] at h
  refine Course.andThen_mono (fun _ _ => (·)) (fun A o h => ?_) h
  have meaning := divide_eq n.ty (A.word x) (A.word y)
  unfold checked at h
  split at meaning
  · rcases h with ⟨A', same, h⟩ | ⟨_, same, -⟩
    · rw [meaning.1] at same
      cases same
      exact h
    · rw [meaning.1] at same
      cases same
  · obtain ⟨⟨e₁, h₁⟩, e₂, h₂⟩ := meaning
    rcases h with ⟨A', same, -⟩ | ⟨events, same, rfl⟩
    · rw [h₁] at same
      cases same
    · rw [h₁] at same
      cases same
      rcases he with rfl | rfl
      · simp only [World.visit, kind, general, h₁]
      · simp only [World.visit, kind, general, h₂]

/-- The result of a division stays, and its other register is given back. -/
theorem Stage.keep (h : Stage S E σ₀ p₀ D σ R p) {unused : Reg}
    (held : p.held = Pose.dividend.held) (locks : p.locks = fun _ => 0) (lowered : p.lowered = 0)
    (regs : (r, unused) = (.rax, .rdx) ∨ (r, unused) = (.rdx, .rax)) (hr : r.Of ty.regClass)
    {P : Moment → Word → Prop} (known : p.known r = some P) {k : Lower Unit}
    {post : Unit → State → Prop}
    (next : ∀ σ' p', Reads σ σ' [] → Stage S E σ₀ p₀ D σ' R p' →
      p'.held r = some .temp →
      p'.known r = some (fun A w => ∃ w₀, P A w₀ ∧ ty.view w = ty.settle w₀) →
      (p'.hand r none).forget = .idle → Generates S k σ' post) :
    Generates S (do
      onRegs (RegisterFile.free unused)
      Lowering.normalize r ty
      k) σ post := by
  have other : Pose.dividend.held unused = some .temp ∧ unused.Valid ∧ r ≠ unused ∧
      (Pose.dividend.hand unused none).held = (Pose.idle.hand r (some .temp)).held := by
    rcases regs with he | he
    · cases he
      exact ⟨rfl, by decide, by decide, by rw [Pose.dividend, Pose.hand_hand, Pose.hand_none rfl]⟩
    · cases he
      exact ⟨rfl, by decide, by decide, by
        rw [Pose.dividend, Pose.hand_comm (by decide), Pose.hand_hand, Pose.hand_none rfl]⟩
  obtain ⟨heldU, valid, ne, left⟩ := other
  refine .seq (h.free valid (held ▸ heldU) (by rw [locks])) ?_
  rintro _ σ₁ ⟨reads₁, -, stage₁⟩
  have held₁ : (p.hand unused none).held = (Pose.idle.hand r (some .temp)).held :=
    (held_hand_congr held).trans left
  have heldR : (p.hand unused none).held r = some .temp := by
    rw [held₁]
    exact Pose.held_hand
  refine .seq (stage₁.normalize hr heldR known) ?_
  rintro _ σ₂ ⟨coded₂, stage₂⟩
  exact next σ₂ _ (reads₁.trans coded₂.reads) stage₂ heldR Pose.known_learn
    (forget_temporary held₁ locks lowered)

theorem generates_lowerDivision (quotient : Bool)
    (turn : ∀ τ, T τ → Turn S E σ₀ p₀ D τ R id n) (gens : Operands S gen T [lhs, rhs] σ)
    (kind : n.kind = .arith (if quotient then .div else .rem) lhs rhs)
    (tyL : S.graph.tyOf lhs = n.ty) (tyR : S.graph.tyOf rhs = n.ty)
    (general : n.ty.precision? = none) :
    Generates S (lowerDivision gen id quotient lhs rhs n.ty) σ fun _ σ' =>
      ∃ τ, T τ ∧ Took S E σ₀ p₀ D τ R id n σ' := by
  have hc := ScalarType.regClass_of_no_precision general
  have operands : n.operands = [lhs, rhs] := by rw [Node.operands, kind]; rfl
  refine gens.both turn operands fun τ t hl hr uses => ?_
  refine t.stage.dividing hl hr (t.live (by simp [operands])) (t.live (by simp [operands]))
    (tyL ▸ hc) (tyR ▸ hc) fun σ₂ => ?_
  rintro ⟨reads₂, p, held, locks, lowered, stage₂⟩
  refine stage₂.consumeBoth locks reads₂ uses fun σ₄ reads₄ stage₄ => ?_
  have spent : Spent n τ σ₄ := .of_reads (operands ▸ reads₄) fun t => by rw [Tally.turn, kind]
  have knownA : (divided n.ty lhs rhs p).known .rax =
      some fun A w => ArithOp.div.evalInt n.ty (A.word lhs) (A.word rhs) = .ok w := by
    rw [divided, Pose.known_learn_of_ne (by decide)]
    exact Pose.known_learn
  cases quotient with
  | true =>
    refine stage₄.keep held locks lowered (.inl rfl) (hc ▸ by decide) knownA
      fun σ₅ p₅ reads₅ stage₅ held₅ known₅ pose => ?_
    refine t.finish (spent.reads reads₅) stage₅ (goes_checked (.inl rfl) kind general)
      (hc ▸ by decide) held₅ known₅ (fun A w hw => ?_) pose
    obtain ⟨w₀, hw₀, hw⟩ := hw
    simp only [World.visit, kind, general, hw, if_true, hw₀]
  | false =>
    refine stage₄.keep held locks lowered (.inr rfl) (hc ▸ by decide) Pose.known_learn
      fun σ₅ p₅ reads₅ stage₅ held₅ known₅ pose => ?_
    refine t.finish (spent.reads reads₅) stage₅ (goes_checked (.inr rfl) kind general)
      (hc ▸ by decide) held₅ known₅ (fun A w hw => ?_) pose
    obtain ⟨w₀, hw₀, hw⟩ := hw
    simp only [World.visit, kind, general, hw, Bool.false_eq_true, if_false, hw₀]

/-! ## Shifts -/

/-- What a shift leaves: its result in a temporary. -/
def Shifted (S : Setting) (E : Env) (σ₀ : State) (p₀ : Pose) (D : Finset NodeId) (σ : State)
    (R : Course) (F : Word → Word → Word) (x y : NodeId) (r : Reg) (σ' : State) : Prop :=
  r.Of .general ∧ Reads σ σ' [x, y] ∧ ∃ p, Stage S E σ₀ p₀ D σ' R p ∧
    p.held = (Pose.idle.hand r (some .temp)).held ∧ p.locks = (fun _ => 0) ∧ p.lowered = 0 ∧
    p.known r = some fun A w => w = F (A.word x) (A.word y)

def shiftFn (left : Bool) (ty : ScalarType) : Word → Word → Word :=
  (if left then LogicOp.shl else LogicOp.shr).word ty.isSigned

theorem Stage.shiftImm (h : Stage S E σ₀ p₀ D σ R .idle) (hx : x ∈ D) {count : Word}
    (placed : Placed σ y (.immediate count)) (uses : ∀ z, [x, y].count z ≤ σ.uses z)
    (hcx : (S.graph.tyOf x).regClass = .general) (hcy : (S.graph.tyOf y).regClass = .general)
    {left : Bool} {k : Reg → Lower Unit} {post : Unit → State → Prop}
    (next : ∀ dst σ', Shifted S E σ₀ p₀ D σ R (shiftFn left ty) x y dst σ' →
      Generates S (k dst) σ' post) :
    Generates S (do
      let dst ← Lowering.takeOrCopy S.ctx x id
      emit (Assembler.shiftImm (shiftOp left ty) dst (count.toNat % 64))
      Lowering.consume y
      k dst) σ post := by
  have liveX : 0 < σ.uses x := Nat.lt_of_lt_of_le (List.count_pos_iff.2 (by simp)) (uses x)
  refine .seq (h.takeOrCopy hx liveX (.of_unlocked rfl) (fun _ _ he => by cases he) room_idle) ?_
  rintro dst σ₁ ⟨fresh, reads₁, stage₁⟩
  have hdst : dst.Of .general := hcx ▸ fresh.of
  have liveY : 0 < σ₁.uses y := reads₁.live [y] uses (by simp)
  have placed₁ : Placed σ₁ y (.immediate count) := by
    refine ⟨?_, liveY⟩
    rcases reads₁.grows.moved y liveY (by rw [placed.place]; exact Option.some_ne_none _) with
      same | ⟨r, _, hr, -⟩
    · exact same.trans placed.place
    · rw [placed.place] at hr
      cases hr
  refine .seq (stage₁.assign (stage₁.inv.writable hdst.1 Pose.held_hand)
    (Machine.performs_shiftImm _ hdst _)
    (P := fun A w => w = shiftFn left ty (A.word x) (A.word y)) fun _ _ A c hm => ?_) ?_
  · have second : count = A.word y := by
      rw [← hm.word_eq placed₁, ScalarType.view_of_general hcy]
      rfl
    rw [hm.named_word hcx Pose.known_learn, ← second]
    exact shiftWord_eq left ty _ _ (by omega)
  rintro _ σ₂ ⟨coded₂, stage₂⟩
  refine .seq (stage₂.consume (coded₂.reads.uses_eq y ▸ liveY) (.of_unlocked rfl)) ?_
  rintro _ σ₃ ⟨reads₃, stage₃⟩
  exact next dst σ₃ ⟨hdst, (reads₁.trans coded₂.reads).trans reads₃, _, stage₃,
    rfl, rfl, rfl, if_pos rfl⟩

theorem Stage.shiftCl (h : Stage S E σ₀ p₀ D σ R .idle) (hx : x ∈ D) (hy : y ∈ D)
    (uses : ∀ z, [x, y].count z ≤ σ.uses z)
    (hcx : (S.graph.tyOf x).regClass = .general) (hcy : (S.graph.tyOf y).regClass = .general)
    {left : Bool} {k : Reg → Lower Unit} {post : Unit → State → Prop}
    (next : ∀ dst σ', Shifted S E σ₀ p₀ D σ R (shiftFn left ty) x y dst σ' →
      Generates S (k dst) σ' post) :
    Generates S (do
      Lowering.evict .rcx
      onRegs (RegisterFile.take .rcx .temp)
      let count ← operand y
      emit (Assembler.mov .rcx count)
      Lowering.consume y
      let dst ← Lowering.takeOrCopy S.ctx x id
      emit (Assembler.shiftCl (shiftOp left ty) dst)
      onRegs (RegisterFile.free .rcx)
      k dst) σ post := by
  have liveY : 0 < σ.uses y := Nat.lt_of_lt_of_le (List.count_pos_iff.2 (by simp)) (uses y)
  refine .seq (h.evict (by decide) rfl rfl) ?_
  rintro _ σ₁ ⟨reads₁, owners₁, stage₁⟩
  have free : σ₁.regs.owner .rcx = none := by rw [owners₁ (by decide), if_pos rfl]
  refine .seq (stage₁.setAside (by decide) free) ?_
  rintro _ σ₂ ⟨reads₂, -, -, stage₂⟩
  have reads : Reads σ σ₂ [] := reads₁.trans reads₂
  obtain ⟨pl, placed⟩ := stage₂.inv.placed hy (reads.uses_eq y ▸ liveY)
  refine .seq placed.operand ?_
  rintro _ _ ⟨rfl, rfl⟩
  refine .seq (stage₂.load placed hcy (by decide) (stage₂.inv.writable (by decide)
    Pose.held_hand)) ?_
  rintro _ σ₃ ⟨coded₃, stage₃⟩
  refine .seq (stage₃.consume (coded₃.reads.uses_eq y ▸ placed.live) (.of_unlocked rfl)) ?_
  rintro _ σ₄ ⟨reads₄, stage₄⟩
  have reads : Reads σ σ₄ [y] := (reads.trans coded₃.reads).trans reads₄
  have swapped (z : NodeId) : [y, x].count z ≤ σ.uses z := by
    rw [(List.Perm.swap x y []).count_eq]
    exact uses z
  refine .seq (stage₄.takeOrCopy hx (reads.live [x] swapped (by simp)) (.of_unlocked rfl)
    (solid_temporary (r := .rcx) rfl) (room_temporary (r := .rcx) rfl rfl)) ?_
  rintro dst σ₅ ⟨fresh, reads₅, stage₅⟩
  have hdst : dst.Of .general := hcx ▸ fresh.of
  have ne : dst ≠ .rcx := by
    rintro rfl
    exact Option.some_ne_none Owner.temp fresh.free
  refine .seq (stage₅.assign (stage₅.inv.writable hdst.1 Pose.held_hand)
    (Machine.performs_shiftCl _ hdst)
    (P := fun A w => w = shiftFn left ty (A.word x) (A.word y)) fun _ _ A c hm => ?_) ?_
  · have second : c.state.named .rcx = A.word y := by
      refine hm.known (P := fun A w => w = A.word y) ?_
      rw [Pose.known_learn_of_ne ne.symm]
      rfl
    rw [hm.named_word hcx Pose.known_learn, second]
    exact shiftWord_eq left ty _ _ (low_byte_mod _)
  rintro _ σ₆ ⟨coded₆, stage₆⟩
  have heldC : ((Pose.idle.hand .rcx (some .temp)).hand dst (some .temp)).held .rcx =
      some .temp := (Pose.held_hand_of_ne ne.symm).trans rfl
  refine .seq (stage₆.free (by decide) heldC rfl) ?_
  rintro _ σ₇ ⟨reads₇, -, stage₇⟩
  refine next dst σ₇ ⟨hdst, ?_, _, stage₇, ?_, rfl, rfl, if_pos rfl⟩
  · have all : Reads σ σ₇ [y, x] :=
      ((reads.trans reads₅).trans coded₆.reads).trans reads₇
    exact all.perm (.swap ..)
  · have held : (((Pose.idle.hand .rcx (some .temp)).hand dst (some .temp)).hand .rcx none).held =
        (Pose.idle.hand dst (some .temp)).held := by
      rw [Pose.hand_comm ne.symm, Pose.hand_hand, Pose.hand_none (Pose.held_hand_of_ne ne.symm)]
    exact held

theorem generates_lowerShift (left : Bool)
    (turn : ∀ τ, T τ → Turn S E σ₀ p₀ D τ R id n) (gens : Operands S gen T [lhs, rhs] σ)
    (kind : n.kind = .logic (if left then .shl else .shr) lhs rhs)
    (tyL : S.graph.tyOf lhs = n.ty) (tyR : S.graph.tyOf rhs = n.ty)
    (general : n.ty.precision? = none) :
    Generates S (lowerShift S.ctx gen id left lhs rhs n.ty) σ fun _ σ' =>
      ∃ τ, T τ ∧ Took S E σ₀ p₀ D τ R id n σ' := by
  have hc := ScalarType.regClass_of_no_precision general
  have operands : n.operands = [lhs, rhs] := by rw [Node.operands, kind]; rfl
  refine gens.both turn operands fun τ t hl hr uses => ?_
  obtain ⟨pl, placed⟩ := t.stage.inv.placed hr (t.live (by simp [operands]))
  have rest (dst : Reg) (σ₂ : State) :
      Shifted S E σ₀ p₀ D τ R (shiftFn left n.ty) lhs rhs dst σ₂ → Generates S (do
        if left then normalize dst n.ty
        define id dst) σ₂ fun _ σ' => Took S E σ₀ p₀ D τ R id n σ' := by
    rintro ⟨hdst, reads, p, stage, held, locks, lowered, known⟩
    have spent : Spent n τ σ₂ := .of_reads (operands ▸ reads) fun t => by
      rw [Tally.turn, kind]
    have here : p.held dst = some .temp := by
      rw [held]
      exact Pose.held_hand
    cases left with
    | true =>
      refine .seq (stage.normalize (hc ▸ hdst) here known) ?_
      rintro _ σ₃ ⟨coded, stage₃⟩
      refine t.finish (spent.reads coded.reads) stage₃ (fun _ _ h => h) (hc ▸ hdst) here
        Pose.known_learn (fun A w hw => ?_) (forget_temporary held locks lowered)
      obtain ⟨w₀, rfl, hw⟩ := hw
      simp only [World.visit, kind, if_true, hw, shiftFn]
    | false =>
      refine t.finish spent stage (fun _ _ h => h) (hc ▸ hdst) here known (fun A w hw => ?_)
        (forget_temporary held locks lowered)
      simp only [World.visit, kind, Bool.false_eq_true, if_false, reduceCtorEq, hw, shiftFn,
        ScalarType.view_of_general hc]
  refine .seq placed.storage ?_
  rintro pl' _ ⟨rfl, rfl⟩
  cases pl' with
  | immediate count => exact t.stage.shiftImm hl placed uses (tyL ▸ hc) (tyR ▸ hc) rest
  | register r => exact t.stage.shiftCl hl hr uses (tyL ▸ hc) (tyR ▸ hc) rest
  | stack offset => exact t.stage.shiftCl hl hr uses (tyL ▸ hc) (tyR ▸ hc) rest

end NativeExpr.Lowering
