import NativeExpr.Lowering.Cast
import NativeExpr.Proofs.Lowering.Compare
import NativeExpr.Proofs.Lowering.Division

/-!
# Conversions

A conversion between integers happens in the register of the value, one to or from
a float in a new register.
-/
namespace NativeExpr.Lowering

open NativeExpr X64 Convention

variable {S : Setting} {E : Env} {σ₀ σ σ' : State} {A : Moment} {p₀ p p' : Pose}
variable {R : Course} {D : Finset NodeId} {x id value : NodeId} {n : Node}
variable {r dst : Reg} {gen : NodeId → Lower Unit} {T : State → Prop} {c : RegClass}

/-- What a conversion leaves in a register. -/
structure Converted (S : Setting) (E : Env) (σ₀ : State) (p₀ : Pose) (D : Finset NodeId)
    (σ : State) (R : Course) (r : Reg) (P : Moment → Word → Prop) (p : Pose) : Prop where
  stage : Stage S E σ₀ p₀ D σ R p
  held : p.held = (Pose.idle.hand r (some .temp)).held
  locks : p.locks = fun _ => 0
  lowered : p.lowered = 0
  known : p.known r = some P

def Converts (S : Setting) (n : Node) (value : NodeId) (A : Moment) (w : Word) : Prop :=
  n.ty.view w = World.convert (S.graph.tyOf value) n.ty (A.word value)

theorem Turn.convert (t : Turn S E σ₀ p₀ D σ R id n) (kind : n.kind = .cast value)
    (reads : Reads σ σ' [value]) (hr : r.Of n.ty.regClass)
    (converted : Converted S E σ₀ p₀ D σ' R r (Converts S n value) p) :
    Generates S (define id r) σ' fun _ σ'' => Took S E σ₀ p₀ D σ R id n σ'' := by
  have operands : n.operands = [value] := by rw [Node.operands, kind]; rfl
  have held : p.held r = some .temp := by
    rw [converted.held]
    exact Pose.held_hand
  refine t.finish (.of_reads (operands ▸ reads) fun t => by rw [Tally.turn, kind]) converted.stage
    (fun _ _ h => h) hr held converted.known (fun A w hw => ?_)
    (forget_temporary converted.held converted.locks converted.lowered)
  simp only [World.visit, kind]
  rw [hw]

theorem Turn.conversion (t : Turn S E σ₀ p₀ D σ R id n) (kind : n.kind = .cast value)
    {body : Reg → Lower Unit} (hbody : ∀ {dst σ₁}, dst.Of n.ty.regClass → 0 < σ₁.uses value →
      Stage S E σ₀ p₀ D σ₁ R (Pose.idle.hand dst (some .temp)) →
      Generates S (body dst) σ₁ fun _ σ₂ => Coded σ₁ σ₂ ∧ ∃ p,
        Converted S E σ₀ p₀ D σ₂ R dst (Converts S n value) p) :
    Generates S (lowerConversion S.ctx id value n.ty.regClass body) σ fun _ σ' =>
      Took S E σ₀ p₀ D σ R id n σ' := by
  have operands : n.operands = [value] := by rw [Node.operands, kind]; rfl
  have live : 0 < σ.uses value := t.live (by simp [operands])
  refine .seq (t.stage.allocBeside live) ?_
  rintro dst σ₁ ⟨hdst, reads₁, stage₁⟩
  refine .seq (hbody hdst (reads₁.uses_eq value ▸ live) stage₁) ?_
  rintro _ σ₂ ⟨coded₂, p, converted⟩
  have reads : Reads σ σ₂ [] := reads₁.trans coded₂.reads
  refine .seq (converted.stage.consume (reads.uses_eq value ▸ live)
    (.of_unlocked converted.locks)) ?_
  rintro _ σ₃ ⟨reads₃, stage₃⟩
  exact t.convert kind (reads.trans reads₃) hdst { converted with stage := stage₃ }

/-! ## Between integers and floats -/

theorem convert_of_int {source target : ScalarType} {q : Precision}
    (hs : source.precision? = none) (ht : target.precision? = some q) (w : Word) :
    World.convert source target w = q.ofInt w := by
  simp only [World.convert, hs, ht]

theorem convert_of_float {source target : ScalarType} {q : Precision}
    (hs : source.precision? = some q) (ht : target.precision? = none) (w : Word) :
    World.convert source target w = target.settle (q.truncate w) := by
  simp only [World.convert, hs, ht]

theorem convert_precision {source target : ScalarType} {q q' : Precision}
    (hs : source.precision? = some q) (ht : target.precision? = some q') (w : Word) :
    World.convert source target w = if q = q' then w else q'.convert w := by
  simp only [World.convert, hs, ht]

theorem integerSource_eq : integerSource = divisorOperand := rfl

theorem generates_intToFloat {q : Precision} (hs : (S.graph.tyOf value).precision? = none)
    (ht : n.ty.precision? = some q) (hv : value ∈ D) (hr : r.Of n.ty.regClass)
    (live : 0 < σ.uses value)
    (stage : Stage S E σ₀ p₀ D σ R (Pose.idle.hand r (some .temp))) :
    Generates S (do
      let src ← integerSource value
      emit (Assembler.intToFloat q r src)) σ fun _ σ' => Coded σ σ' ∧ ∃ p,
        Converted S E σ₀ p₀ D σ' R r (Converts S n value) p := by
  rw [integerSource_eq]
  have float := ScalarType.regClass_of_precision ht
  rw [float] at hr
  refine .seq (stage.divisorOperand hv live (ScalarType.regClass_of_no_precision hs)) ?_
  rintro src σ₁ ⟨coded₁, p', scratched, source, stage₁⟩
  have held : p'.held r = some .temp := by
    rw [scratched.held]
    exact Pose.held_hand
  refine (stage₁.compute (stage₁.inv.writable hr.1 held) (Machine.performs_intToFloat q hr
    (source.ready stage₁.inv) source.notImm) (P := Converts S n value)
    fun sound within A c hm => ?_).mono ?_ fun _ _ he => he
  · obtain ⟨w, hw, low⟩ :=
      Machine.exists_setFloat q c.state r _ (q.fits_ofInt (c.state.operand src))
    refine ⟨w, c.state.flags, hw.trans Machine.State.setFlags_setNamed.symm, ?_⟩
    rw [Converts, convert_of_int hs ht, ScalarType.view_of_precision ht, low,
      source.word stage₁.inv sound within hm]
  · rintro _ σ₂ ⟨coded₂, stage₂⟩
    exact ⟨coded₁.trans coded₂, _, stage₂, scratched.held, scratched.locks, scratched.lowered,
      Pose.known_learn⟩

theorem generates_floatToInt {q : Precision} (hs : (S.graph.tyOf value).precision? = some q)
    (ht : n.ty.precision? = none) (hv : value ∈ D) (hr : r.Of n.ty.regClass)
    (live : 0 < σ.uses value)
    (stage : Stage S E σ₀ p₀ D σ R (Pose.idle.hand r (some .temp))) :
    Generates S (do
      let src ← operand value
      emit (Assembler.floatToInt q r src)
      normalize r n.ty) σ fun _ σ' => Coded σ σ' ∧ ∃ p,
        Converted S E σ₀ p₀ D σ' R r (Converts S n value) p := by
  have general := ScalarType.regClass_of_no_precision ht
  obtain ⟨pl, placed⟩ := stage.inv.placed hv live
  refine .seq placed.operand ?_
  rintro _ _ ⟨rfl, rfl⟩
  have ready := stage.inv.ready placed
  rw [ScalarType.regClass_of_precision hs] at ready
  refine .seq (stage.assign (stage.inv.writable hr.1 Pose.held_hand)
    (Machine.performs_floatToInt q (general ▸ hr) ready)
    (P := fun A w => w = q.truncate (A.word value)) fun sound within A c hm => ?_) ?_
  · rw [hm.scalar_word stage.inv sound within placed hs]
  rintro _ σ₁ ⟨coded₁, stage₁⟩
  refine (stage₁.normalize hr Pose.held_hand Pose.known_learn).mono ?_ fun _ _ he => he
  rintro _ σ₂ ⟨coded₂, stage₂⟩
  refine ⟨coded₁.trans coded₂, _, stage₂, rfl, rfl, rfl,
    Pose.known_learn.trans (congrArg some ?_)⟩
  funext A w
  rw [Converts, convert_of_float hs ht]
  simp

theorem generates_convertFloat {q q' : Precision} (hs : (S.graph.tyOf value).precision? = some q)
    (ht : n.ty.precision? = some q') (ne : q ≠ q') (hv : value ∈ D) (hr : r.Of n.ty.regClass)
    (live : 0 < σ.uses value)
    (stage : Stage S E σ₀ p₀ D σ R (Pose.idle.hand r (some .temp))) :
    Generates S (do
      let src ← operand value
      emit (Assembler.convertFloat q' r src)) σ fun _ σ' => Coded σ σ' ∧ ∃ p,
        Converted S E σ₀ p₀ D σ' R r (Converts S n value) p := by
  have other : q'.other = q := by cases q <;> cases q' <;> first | rfl | exact absurd rfl ne
  obtain ⟨pl, placed⟩ := stage.inv.placed hv live
  refine .seq placed.operand ?_
  rintro _ _ ⟨rfl, rfl⟩
  have ready := stage.inv.ready placed
  rw [ScalarType.regClass_of_precision hs] at ready
  rw [ScalarType.regClass_of_precision ht] at hr
  refine (stage.compute (stage.inv.writable hr.1 Pose.held_hand)
    (Machine.performs_convertFloat q' hr ready) (P := Converts S n value)
    fun sound within A c hm => ?_).mono ?_ fun _ _ he => he
  · obtain ⟨w, hw, low⟩ := Machine.exists_setFloat q' c.state r _
      (q'.fits_convert (c.state.scalar q'.other pl.operand))
    refine ⟨w, c.state.flags, hw.trans Machine.State.setFlags_setNamed.symm, ?_⟩
    rw [Converts, convert_precision hs ht, if_neg ne, ScalarType.view_of_precision ht, low, other,
      hm.scalar_word stage.inv sound within placed hs]
  · rintro _ σ₁ ⟨coded₁, stage₁⟩
    exact ⟨coded₁, _, stage₁, rfl, rfl, rfl, Pose.known_learn⟩

/-! ## Truth values -/

/-- The code that makes a word a truth value, in its own register. -/
theorem generates_toBool (hs : (S.graph.tyOf value).precision? = none)
    (ty : n.ty = .bool) (ne : S.graph.tyOf value ≠ .bool) (hr : r.Of .general)
    (stage : Stage S E σ₀ p₀ D σ R
      ((Pose.idle.hand r (some .temp)).learn r (Reading S.graph value)))
    {k : Lower Unit} {post : Unit → State → Prop}
    (next : ∀ σ' p, Coded σ σ' → Converted S E σ₀ p₀ D σ' R r (Converts S n value) p →
      Generates S k σ' post) :
    Generates S (do
      emit (Assembler.test r r)
      emit (Assembler.setcc .ne r)
      emit (Assembler.extend .zx8 r r)
      k) σ post := by
  have hc := ScalarType.regClass_of_no_precision hs
  refine .seq (stage.setFlags (Machine.performs_test hr hr)
    (P := fun A f => f = .ofLogic (A.word value)) fun _ _ A c hm => ?_) ?_
  · rw [hm.named_word hc Pose.known_learn, BitVec.and_self]
  rintro _ σ₁ ⟨coded₁, stage₁⟩
  refine .seq (stage₁.setcc hr (stage₁.inv.writable hr.1 Pose.held_hand) rfl .ne
    (P := fun A w => w.setWidth 8 = (bit (A.word value != 0)).setWidth 8)
    fun _ _ _ _ low _ => low) ?_
  rintro _ σ₂ ⟨coded₂, stage₂⟩
  refine .seq (stage₂.assign (stage₂.inv.writable hr.1 Pose.held_hand)
    (Machine.performs_extend .zx8 hr hr) (P := Converts S n value) fun _ _ A c hm => ?_) ?_
  · have low := hm.known (r := r) Pose.known_learn
    rw [Converts, ty, ScalarType.view_of_general rfl]
    show ((c.state.named r).setWidth 8).setWidth 64 = _
    rw [low, World.convert, hs, show ScalarType.bool.precision? = none from rfl]
    dsimp only
    rw [if_pos ⟨rfl, ne⟩]
    by_cases zero : A.word value = 0
    · rw [zero, if_pos rfl]
      rfl
    · rw [if_neg zero, bit, if_pos (by simpa using zero)]
      rfl
  rintro _ σ₃ ⟨coded₃, stage₃⟩
  exact next σ₃ _ ((coded₁.trans coded₂).trans coded₃)
    ⟨stage₃, rfl, rfl, rfl, Pose.known_learn⟩

/-- Between integers, in the register of the value or a copy. -/
theorem Turn.castInteger (t : Turn S E σ₀ p₀ D σ R id n) (kind : n.kind = .cast value)
    (hs : (S.graph.tyOf value).precision? = none) (ht : n.ty.precision? = none) :
    Generates S (do
      let dst ← takeOrCopy S.ctx value id
      if n.ty = .bool ∧ S.graph.tyOf value ≠ .bool then
        emit (Assembler.test dst dst)
        emit (Assembler.setcc .ne dst)
        emit (Assembler.extend .zx8 dst dst)
      else normalize dst n.ty
      define id dst) σ fun _ σ' => Took S E σ₀ p₀ D σ R id n σ' := by
  have operands : n.operands = [value] := by rw [Node.operands, kind]; rfl
  have hcs := ScalarType.regClass_of_no_precision hs
  have hct := ScalarType.regClass_of_no_precision ht
  refine .seq (t.stage.takeOrCopy (t.reads value (by simp [operands]))
    (t.live (by simp [operands])) (.of_unlocked rfl) (fun _ _ he => by cases he) room_idle) ?_
  rintro dst σ₁ ⟨fresh, reads₁, stage₁⟩
  have hdst : dst.Of .general := hcs ▸ fresh.of
  have rest (σ₂ : State) (p : Pose) (coded : Coded σ₁ σ₂)
      (converted : Converted S E σ₀ p₀ D σ₂ R dst (Converts S n value) p) :
      Generates S (define id dst) σ₂ fun _ σ' => Took S E σ₀ p₀ D σ R id n σ' :=
    t.convert kind (reads₁.trans coded.reads) (hct ▸ hdst) converted
  dsimp only
  split
  · next truth => exact generates_toBool hs truth.1 truth.2 hdst stage₁ rest
  · next settles =>
    refine .seq (stage₁.normalize (hct ▸ hdst) Pose.held_hand Pose.known_learn) ?_
    rintro _ σ₂ ⟨coded₂, stage₂⟩
    refine rest σ₂ _ coded₂ ⟨stage₂.learn hdst.1 Pose.known_learn
      (Q := Converts S n value) fun A w hw => ?_, rfl, rfl, rfl, Pose.known_learn⟩
    obtain ⟨w₀, hw₀, hw⟩ := hw
    rw [Reading, ScalarType.view_of_general hcs] at hw₀
    rw [Converts, hw, hw₀, World.convert, hs, ht]
    exact (if_neg settles).symm

theorem Turn.castFloat (t : Turn S E σ₀ p₀ D σ R id n) (kind : n.kind = .cast value)
    {q : Precision} (hs : (S.graph.tyOf value).precision? = some q)
    (ht : n.ty.precision? = some q) :
    Generates S (do
      let dst ← takeOrCopy S.ctx value id
      define id dst) σ fun _ σ' => Took S E σ₀ p₀ D σ R id n σ' := by
  have operands : n.operands = [value] := by rw [Node.operands, kind]; rfl
  have view : n.ty.view = (S.graph.tyOf value).view := by
    funext w
    rw [ScalarType.view_of_precision hs, ScalarType.view_of_precision ht]
  have hcs := ScalarType.regClass_of_precision hs
  have hct := ScalarType.regClass_of_precision ht
  refine .seq (t.stage.takeOrCopy (t.reads value (by simp [operands]))
    (t.live (by simp [operands])) (.of_unlocked rfl) (fun _ _ he => by cases he) room_idle) ?_
  rintro dst σ₁ ⟨fresh, reads₁, stage₁⟩
  refine t.convert kind reads₁ (hct.trans hcs.symm ▸ fresh.of) ⟨stage₁.learn fresh.of.1
    Pose.known_learn (Q := Converts S n value) fun A w hw => ?_, rfl, rfl, rfl, Pose.known_learn⟩
  rw [Converts, view, convert_precision hs ht, if_pos rfl]
  exact hw

theorem isFloat_and_bool {source target : ScalarType} (h : source.castAllowed target = true) :
    (source.isFloat && target == .bool) = false := by
  revert h
  cases source <;> cases target <;> decide

theorem generates_lowerCast
    (turn : ∀ τ, T τ → Turn S E σ₀ p₀ D τ R id n) (gens : Operands S gen T [value] σ)
    (kind : n.kind = .cast value) (allowed : (S.graph.tyOf value).castAllowed n.ty = true)
    (refused : (S.graph.tyOf value).lacksConversion n.ty = true →
      ∀ cause, Permitted S (.unsupported cause)) :
    Generates S (lowerCast S.ctx gen id value n.ty) σ fun _ σ' =>
      (∃ τ, T τ ∧ Took S E σ₀ p₀ D τ R id n σ') ∧
        (S.graph.tyOf value).lacksConversion n.ty = false := by
  have operands : n.operands = [value] := by rw [Node.operands, kind]; rfl
  refine .seq gens fun _ τ hτ => ?_
  have t := turn τ hτ
  have hv : value ∈ D := t.reads value (by simp [operands])
  have live : 0 < τ.uses value := t.live (by simp [operands])
  refine .bind (.of_ok (t.stage.inv.typeOf_eq live) ?_)
  have proper : ((S.graph.tyOf value).isFloat && n.ty == .bool) = false :=
    isFloat_and_bool allowed
  rw [proper, Bool.or_false]
  dsimp only
  cases lacks : (S.graph.tyOf value).lacksConversion n.ty with
  | true => exact .of_throw ⟨refused lacks _, t.stage.inv.clean.sound⟩
  | false =>
    have finish {m : Lower Unit} (h : Generates S m τ fun _ σ' => Took S E σ₀ p₀ D τ R id n σ') :
        Generates S m τ fun _ σ' => (∃ τ, T τ ∧ Took S E σ₀ p₀ D τ R id n σ') ∧ false = false :=
      h.mono (fun _ _ took => ⟨⟨τ, hτ, took⟩, rfl⟩) fun _ _ he => he
    rw [if_neg Bool.false_ne_true]
    cases hs : (S.graph.tyOf value).precision? with
    | none =>
      cases ht : n.ty.precision? with
      | none => exact finish (t.castInteger kind hs ht)
      | some q =>
        have float := ScalarType.regClass_of_precision ht
        exact finish (float ▸ t.conversion kind fun hr live stage =>
          generates_intToFloat hs ht hv hr live stage)
    | some q =>
      cases ht : n.ty.precision? with
      | none =>
        have general := ScalarType.regClass_of_no_precision ht
        exact finish (general ▸ t.conversion kind fun hr live stage =>
          generates_floatToInt hs ht hv hr live stage)
      | some q' =>
        dsimp only
        split
        · next same => exact finish (t.castFloat kind hs (same ▸ ht))
        · next ne =>
          have float := ScalarType.regClass_of_precision ht
          exact finish (float ▸ t.conversion kind fun hr live stage =>
            generates_convertFloat hs ht ne hv hr live stage)

end NativeExpr.Lowering
