import NativeExpr.Proofs.Lowering.Running

/-!
# Reading values

The machine holds every live value in its place, so an operand that names this
place gives the word that was found for the value. Loading a value into a register
makes this word known of the register.
-/
namespace NativeExpr

open X64

def Storage.operand : Storage → Operand
  | .register r => .reg r
  | .stack offset => .mem (.frame offset)
  | .immediate value => .imm (value.setWidth 32)

namespace ScalarType

variable {ty : ScalarType} {q : Precision}

theorem regClass_of_precision (h : ty.precision? = some q) : ty.regClass = .float := by
  cases ty <;> first | rfl | cases h

theorem regClass_of_no_precision (h : ty.precision? = none) : ty.regClass = .general := by
  cases ty <;> first | rfl | cases h

theorem view_of_general (h : ty.regClass = .general) (w : Word) : ty.view w = w := by
  rw [view, if_neg]
  rintro rfl
  cases h

theorem view_of_precision (h : ty.precision? = some q) (w : Word) :
    ty.view w = (w.setWidth q.width).setWidth 64 := by
  cases ty <;> cases h
  · rfl
  · simp [view, Precision.width]

theorem view_view (ty : ScalarType) (w : Word) : ty.view (ty.view w) = ty.view w := by
  unfold view
  split
  · exact congrArg (BitVec.setWidth 64) (setWidth_setWidth_cancel _ (by decide))
  · rfl

end ScalarType

/-- The displacement of an operand reaches the offset it was made from. -/
theorem signExtend_ofInt {i : Int} (h : fitsSigned 32 i = true) :
    (BitVec.ofInt 32 i).signExtend 64 = BitVec.ofInt 64 i := by
  rw [BitVec.signExtend, show (BitVec.ofInt 32 i).toInt = i from beq_iff_eq.1 h]

theorem fitsSigned_of_bounds {i : Int} (low : -2147483648 ≤ i) (high : i < 2147483648) :
    fitsSigned 32 i = true :=
  fitsSigned_iff.2 ⟨low, Int.le_of_lt_add_one high⟩

theorem signExtend_ofNat {n : Nat} (h : n < 2147483648) :
    (BitVec.ofNat 32 n).signExtend 64 = BitVec.ofNat 64 n := by
  rw [← BitVec.ofInt_natCast, signExtend_ofInt (fitsSigned_of_bounds (by omega) (by omega)),
    BitVec.ofInt_natCast]

theorem memAddress_baseDisp (s : Machine.State) (b : Reg) (offset : Int)
    (fits : fitsSigned 32 offset = true) :
    s.memAddress (.baseDisp b offset) = s.named b + BitVec.ofInt 64 offset := by
  show s.named b + 0 + (BitVec.ofInt 32 offset).signExtend 64 = _
  rw [signExtend_ofInt fits, show s.named b + (0 : Word) = _ from BitVec.add_zero _]

theorem Memory.load_low (m : Memory) (a : Word) :
    m.load a 4 = ((m.load a 8).setWidth 32).setWidth 64 := by
  apply BitVec.eq_of_toNat_eq
  simp only [load, bytes, List.range, List.range.loop, List.map, leNat, BitVec.toNat_ofNat,
    BitVec.toNat_setWidth]
  omega

namespace Lowering

variable {S : Setting} {E : Env} {σ₀ σ σ' : State} {A : Moment} {p₀ p p' : Pose}
variable {R : Course} {D : Finset NodeId} {c : Machine.Config}
variable {x id : NodeId} {r : Reg} {pl : Storage}

/-! ## Places -/

/-- A value with reads to come and its place. -/
structure Placed (σ : State) (x : NodeId) (pl : Storage) : Prop where
  place : σ.place x = some pl
  live : 0 < σ.uses x

theorem yields_assignment {post : Assignment → State → Prop} {fails : CompileError → State → Prop}
    (h : post (σ.values.entry x) σ) : Yields (assignment x) σ post fails :=
  .bind (.of_get (.of_pure h))

theorem yields_owner {post : Option Owner → State → Prop} {fails : CompileError → State → Prop}
    (h : post (σ.regs.owner r) σ) : Yields (owner r) σ post fails :=
  .bind (.of_get (.of_pure h))

theorem Inv.placed (h : Inv S D σ p) (hx : x ∈ D) (hu : 0 < σ.uses x) : ∃ pl, Placed σ x pl := by
  obtain ⟨pl, hpl⟩ := Option.ne_none_iff_exists'.1 (h.done hx hu)
  exact ⟨pl, hpl, hu⟩

theorem Placed.storage (h : Placed σ x pl) :
    Generates S (storage x) σ fun pl' σ' => pl' = pl ∧ σ = σ' := by
  refine .bind (yields_assignment ?_)
  rw [show (σ.values.entry x).storage = some pl from h.place]
  exact .of_pure ⟨rfl, rfl⟩

theorem Placed.operand (h : Placed σ x pl) :
    Generates S (operand x) σ fun src σ' => src = pl.operand ∧ σ = σ' := by
  refine .seq h.storage ?_
  rintro pl' _ ⟨hpl, rfl⟩
  rw [hpl]
  cases pl <;> exact .of_pure ⟨rfl, rfl⟩

theorem Inv.ready (h : Inv S D σ p) (hx : Placed σ x pl) :
    pl.operand.Ready (S.graph.tyOf x).regClass := by
  cases pl with
  | register q => exact h.register hx.place hx.live
  | stack offset => exact Mem.ready_baseDisp (by decide) offset
  | immediate v =>
    show (S.graph.tyOf x).regClass = .general
    rw [ScalarType.regClass, (h.constant hx.place hx.live).1]
    rfl

theorem Inv.cell (h : Inv S D σ p) (within : Within S E σ) {offset : Int}
    (hx : Placed σ x (.stack offset)) :
    E.stack.IsSlot offset ∨ offset ∈ E.stack.incoming := by
  rcases h.stack hx.place with hs | ⟨incoming, used⟩
  · obtain ⟨j, hj, ho⟩ := h.slot_eq hs
    exact .inl ⟨j, Nat.lt_of_lt_of_le hj within.spills, ho⟩
  · exact .inr (within.incoming used offset incoming)

/-! ## What the machine holds -/

theorem Matches.memAddress_frame {g : Graph} (h : Matches g E A σ p c) {offset : Int}
    (fits : fitsSigned 32 offset = true) :
    c.state.memAddress (.frame offset) = E.stack.cell offset := by
  show c.state.named .rbp + 0 + (BitVec.ofInt 32 offset).signExtend 64 = _
  rw [signExtend_ofInt fits, h.bp, show E.stack.bp + (0 : Word) = _ from BitVec.add_zero _]
  rfl

theorem Matches.operand_eq (h : Matches S.graph E A σ p c) (inv : Inv S D σ p) (sound : E.Sound)
    (within : Within S E σ) (hx : Placed σ x pl) :
    c.state.operand pl.operand = content E.stack c.state pl := by
  cases pl with
  | register q => rfl
  | stack offset =>
    have fits := sound.stack.near offset (inv.cell within hx)
    exact congrArg (fun a => c.state.memory.load a 8) (h.memAddress_frame fits)
  | immediate v => exact (inv.constant hx.place hx.live).2

theorem Matches.word_eq {g : Graph} (h : Matches g E A σ p c) (hx : Placed σ x pl) :
    (g.tyOf x).view (content E.stack c.state pl) = A.word x := by
  rw [Moment.word, h.values hx.live hx.place]
  rfl

theorem Matches.operand_word (h : Matches S.graph E A σ p c) (inv : Inv S D σ p)
    (sound : E.Sound) (within : Within S E σ) (hx : Placed σ x pl)
    (hc : (S.graph.tyOf x).regClass = .general) : c.state.operand pl.operand = A.word x := by
  rw [← h.word_eq hx, ScalarType.view_of_general hc, h.operand_eq inv sound within hx]

theorem Matches.scalar_word (h : Matches S.graph E A σ p c) (inv : Inv S D σ p)
    (sound : E.Sound) (within : Within S E σ) (hx : Placed σ x pl) {q : Precision}
    (hq : (S.graph.tyOf x).precision? = some q) : c.state.scalar q pl.operand = A.word x := by
  rw [← h.word_eq hx, ScalarType.view_of_precision hq, ← h.operand_eq inv sound within hx]
  cases pl with
  | register r => rfl
  | stack offset =>
    show c.state.memory.load _ (q.width / 8) =
      ((c.state.memory.load _ 8).setWidth q.width).setWidth 64
    cases q with
    | single => exact Memory.load_low ..
    | double => simp [Precision.width]
  | immediate v =>
    have isInt := (inv.constant hx.place hx.live).1
    rw [ScalarType.isFloat_of_precision hq] at isInt
    cases isInt

theorem Matches.view_movedFloat (h : Matches S.graph E A σ p c) (inv : Inv S D σ p)
    (sound : E.Sound) (within : Within S E σ) (hx : Placed σ x pl) {q : Precision}
    (hq : (S.graph.tyOf x).precision? = some q) :
    (S.graph.tyOf x).view (Machine.movedFloat c.state q pl.operand) = A.word x := by
  cases pl with
  | register r => exact h.word_eq hx
  | stack offset =>
    show (S.graph.tyOf x).view (c.state.scalar q (Storage.operand (.stack offset))) = _
    rw [h.scalar_word inv sound within hx hq, ← h.word_eq hx, ScalarType.view_view]
  | immediate v =>
    show (S.graph.tyOf x).view (c.state.scalar q (Storage.operand (.immediate v))) = _
    rw [h.scalar_word inv sound within hx hq, ← h.word_eq hx, ScalarType.view_view]

/-- Whether an operand of an instruction on values of a type gives a word. -/
def Holds (s : Machine.State) (ty : ScalarType) (src : Operand) (w : Word) : Prop :=
  match ty.precision? with
  | none => s.operand src = w
  | some q => s.scalar q src = w

theorem Matches.holds (h : Matches S.graph E A σ p c) (inv : Inv S D σ p) (sound : E.Sound)
    (within : Within S E σ) (hx : Placed σ x pl) :
    Holds c.state (S.graph.tyOf x) pl.operand (A.word x) := by
  unfold Holds
  cases hq : (S.graph.tyOf x).precision? with
  | none =>
    exact h.operand_word inv sound within hx (ScalarType.regClass_of_no_precision hq)
  | some q => exact h.scalar_word inv sound within hx hq

/-! ## Writing registers -/

theorem Matches.learn {g : Graph} (h : Matches g E A σ p c) {P : Moment → Word → Prop}
    (hP : P A (c.state.named r)) : Matches g E A σ (p.learn r P) c := by
  refine ⟨h.values, fun hk => ?_, h.sp, h.bp, h.heap, h.kept, h.saved, h.log, h.flags⟩
  simp only [Pose.learn] at hk
  split at hk
  · next he =>
    cases hk
    rwa [he]
  · exact h.known hk

theorem Inv.knownValid_learn (h : Inv S D σ p) (hr : r.Valid) {P : Moment → Word → Prop} :
    ∀ {q Q}, (p.learn r P).known q = some Q → q.Valid := by
  intro q Q hk
  simp only [Pose.learn] at hk
  split at hk
  · next he => rwa [he]
  · exact h.knownValid hk

theorem Stage.assign (h : Stage S E σ₀ p₀ D σ R p) (hr : Writable σ r) {m : Asm Unit}
    {w : Machine.State → Word} (hm : Machine.Performs m fun s => some (s.setNamed r (w s)))
    {P : Moment → Word → Prop}
    (hP : E.Sound → Within S E σ → ∀ A c, Matches S.graph E A σ p c → P A (w c.state)) :
    Generates S (emit m) σ fun _ σ' =>
      Coded σ σ' ∧ Stage S E σ₀ p₀ D σ' R (p.learn r P) :=
  h.perform hm rfl rfl (h.inv.knownValid_learn hr.valid) fun sound within A c hm =>
    ⟨_, rfl, hm.setNamed h.inv hr (hP sound within A c hm)⟩

theorem Stage.compute (h : Stage S E σ₀ p₀ D σ R p) (hr : Writable σ r) {m : Asm Unit}
    {f : Machine.State → Machine.State} (hm : Machine.Performs m fun s => some (f s))
    {P : Moment → Word → Prop}
    (hP : E.Sound → Within S E σ → ∀ A c, Matches S.graph E A σ p c →
      ∃ w flags, f c.state = (c.state.setNamed r w).setFlags flags ∧ P A w) :
    Generates S (emit m) σ fun _ σ' =>
      Coded σ σ' ∧ Stage S E σ₀ p₀ D σ' R (p.write r P) := by
  refine h.perform hm rfl rfl (h.inv.knownValid_learn hr.valid) fun sound within A c hm => ?_
  obtain ⟨w, flags, hf, hw⟩ := hP sound within A c hm
  refine ⟨_, rfl, ?_⟩
  rw [hf]
  exact (hm.setNamed h.inv hr hw).setFlags trivial

theorem Stage.setFlags (h : Stage S E σ₀ p₀ D σ R p) {m : Asm Unit}
    {w : Machine.State → Machine.Flags}
    (hm : Machine.Performs m fun s => some (s.setFlags (w s)))
    {P : Moment → Machine.Flags → Prop}
    (hP : E.Sound → Within S E σ → ∀ A c, Matches S.graph E A σ p c → P A (w c.state)) :
    Generates S (emit m) σ fun _ σ' =>
      Coded σ σ' ∧ Stage S E σ₀ p₀ D σ' R (p.setFlags P) :=
  h.perform hm rfl rfl h.inv.knownValid fun sound within A c hm =>
    ⟨_, rfl, hm.setFlags (hP sound within A c hm)⟩

/-! ## Copies of values -/

theorem Stage.copyTo (h : Stage S E σ₀ p₀ D σ R p) (hx : Placed σ x pl)
    (hr : r.Of (S.graph.tyOf x).regClass)
    (writable : pl ≠ .register r → Writable σ r) :
    Generates S (copyTo r (S.graph.tyOf x) pl.operand) σ fun _ σ' =>
      Coded σ σ' ∧ Stage S E σ₀ p₀ D σ' R
        (p.learn r fun A w => (S.graph.tyOf x).view w = A.word x) := by
  have ready := h.inv.ready hx
  unfold Lowering.copyTo
  cases hq : (S.graph.tyOf x).precision? with
  | some q =>
    rw [ScalarType.regClass_of_precision hq] at hr ready
    have performs := Machine.performs_movFloat q hr ready
    by_cases self : pl = .register r
    · refine h.perform performs rfl rfl (h.inv.knownValid_learn hr.1) fun _ _ A c hm => ?_
      have same : Machine.movedFloat c.state q pl.operand = c.state.named r := by rw [self]; rfl
      have known := hm.word_eq (show Placed σ x (.register r) from self ▸ hx)
      refine ⟨c.state, ?_, hm.learn known⟩
      rw [same, Machine.State.setNamed_named]
    · exact h.assign (writable self) performs fun sound within A c hm =>
        hm.view_movedFloat h.inv sound within hx hq
  | none =>
    have hc := ScalarType.regClass_of_no_precision hq
    rw [hc] at hr ready
    have performs := Machine.performs_mov hr ready
    by_cases self : pl = .register r
    · refine h.perform performs rfl rfl (h.inv.knownValid_learn hr.1) fun _ _ A c hm => ?_
      have same : c.state.operand pl.operand = c.state.named r := by rw [self]; rfl
      have known := hm.word_eq (show Placed σ x (.register r) from self ▸ hx)
      refine ⟨c.state, ?_, hm.learn known⟩
      rw [same, Machine.State.setNamed_named]
    · refine h.assign (writable self) performs fun sound within A c hm => ?_
      rw [hm.operand_word h.inv sound within hx hc, ScalarType.view_of_general hc]

end Lowering

end NativeExpr
