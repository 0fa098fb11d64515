import NativeExpr.Proofs.Lowering.Allocation

/-!
# Values that are read and made

A read takes a use away, and the last one gives the register back. A value that is
overwritten is read into a temporary, its own register or a copy. A temporary that
holds the word of a node becomes the value of the node.
-/
namespace NativeExpr.Lowering

open NativeExpr X64 Convention

variable {S : Setting} {E : Env} {σ₀ σ σ' σ'' : State} {A : Moment} {p₀ p p' : Pose}
variable {R : Course} {D : Finset NodeId} {c : Machine.Config}
variable {x v id : NodeId} {r q : Reg} {pl : Storage} {owner : Owner}
variable {P Q : Moment → Word → Prop}

theorem Inv.typeOf_eq (h : Inv S D σ p) (hu : 0 < σ.uses x) :
    S.graph.typeOf x = .ok (S.graph.tyOf x) := by
  have hx : x < S.graph.size := h.size ▸ uses_lt_size hu
  obtain ⟨n, hn⟩ := Graph.node?_of_lt hx
  have typed := Graph.hasType_of_node? hn
  rw [typed.tyOf_eq]
  exact Graph.typeOf_eq typed

/-! ## Reads -/

/-- The state after a value was read, with what became of the registers. -/
def State.afterRead (σ : State) (x : NodeId) (regs : RegisterFile) : State :=
  { σ with
    regs
    values := σ.values.update x .removeUse
    journal := .read x (σ.uses x) :: σ.journal }

theorem updated_afterRead (hu : 0 < σ.uses x) (regs : RegisterFile) :
    Updated σ (σ.afterRead x regs) x (σ.place x) (σ.slot x) (σ.uses x - 1) :=
  updated_removeUse (uses_lt_size hu) rfl

theorem yields_removeUse {post : Unit → State → Prop} {fails : CompileError → State → Prop}
    (h : post () (σ.afterRead x σ.regs)) : Yields (removeUse x) σ post fails :=
  .bind (yields_assignment (.bind (.of_modify (yields_modifyValues h))))

theorem reads_afterRead (hu : 0 < σ.uses x) {regs : RegisterFile}
    (touched : ∀ q, σ.regs.touched.contains q = true → regs.touched.contains q = true) :
    Reads σ (σ.afterRead x regs) [x] := by
  have updated := updated_afterRead hu regs
  have more (y : NodeId) :
      (σ.afterRead x regs).readsOf y = σ.readsOf y + if y = x then 1 else 0 := by
    simp [State.readsOf, State.afterRead, Note.read?, List.count_cons, @eq_comm _ x]
  refine ⟨⟨⟨[], .refl⟩, .refl, Nat.le_refl _, id, id, touched, fun y => ?_,
    fun y _ _ => .inl (updated.place_same y), List.suffix_cons .., fun y => ?_⟩, fun y => ?_, rfl⟩
  · rw [updated.uses_eq]
    split
    · next hy => exact hy ▸ Nat.sub_le ..
    · exact Nat.le_refl _
  · rw [updated.uses_eq, more]
    split
    · next hy =>
      subst hy
      omega
    · rfl
  · rw [updated.uses_eq, List.count_singleton]
    by_cases hy : y = x
    · rw [if_pos hy, hy, beq_self_eq_true, if_pos rfl]
      exact Nat.sub_add_cancel hu
    · rw [if_neg hy, if_neg (by simpa using Ne.symm hy)]
      rfl

theorem Stage.read (h : Stage S E σ₀ p₀ D σ R p) (hu : 0 < σ.uses x) {owner : Option Owner}
    {regs : RegisterFile} (released : Released S σ p x (σ.uses x - 1) owner regs p')
    (knownValid : ∀ {q P}, p'.known q = some P → q.Valid) (lowered : p'.lowered = p.lowered)
    (known : ∀ A c, Matches S.graph E A σ p c → ∀ q P, p'.known q = some P → P A (c.state.named q))
    (flags : ∀ A f, p.flags A f → p'.flags A f) :
    Reads σ (σ.afterRead x regs) [x] ∧ Stage S E σ₀ p₀ D (σ.afterRead x regs) R p' := by
  have updated := updated_afterRead hu regs
  have reads := reads_afterRead hu released.touched
  have clean : (σ.afterRead x regs).Clean S.graph S.ctx.root :=
    h.inv.clean.cons (n := .read x (σ.uses x)) hu rfl rfl nofun
  refine ⟨reads, h.tables (h.inv.read hu updated rfl rfl released knownValid clean) reads.grows rfl
    fun _ _ A c hm => ?_⟩
  refine ⟨fun {y pl} hy hpl => hm.values ?_ ?_, fun {q P} hk => known A c hm q P hk, ?_, hm.bp,
    hm.heap, hm.kept, fun q hq ht => hm.saved q hq ?_, hm.log, flags A _ hm.flags⟩
  · exact Nat.lt_of_lt_of_le hy (reads.grows.uses_le y)
  · rwa [updated.place_same] at hpl
  · rw [lowered]
    exact hm.sp
  · cases ht' : σ.regs.touched.contains q with
    | false => rfl
    | true =>
      rw [State.afterRead, released.touched q ht'] at ht
      cases ht

theorem Stage.readOnly (h : Stage S E σ₀ p₀ D σ R p) (hu : 0 < σ.uses x) {regs : RegisterFile}
    (released : Released S σ p x (σ.uses x - 1) none regs p) :
    Reads σ (σ.afterRead x regs) [x] ∧ Stage S E σ₀ p₀ D (σ.afterRead x regs) R p :=
  h.read hu released h.inv.knownValid rfl (fun _ _ hm _ _ hk => hm.known hk) fun _ _ hf => hf

/-- Whether the register of a value may be given back. -/
def Releasable (σ : State) (p : Pose) (x : NodeId) : Prop :=
  ∀ r, σ.place x = some (.register r) → p.locks r = 0 ∨ 1 < σ.uses x

theorem Placed.last_iff (placed : Placed σ x (.register r)) {left : Nat} (last : left = 0)
    (q : Reg) : (left = 0 ∧ σ.place x = some (.register q)) ↔ q = r := by
  rw [placed.place, Option.some.injEq, Storage.register.injEq, and_iff_right last]
  exact eq_comm

/-- Giving back the register of a value with no read left, if it is in one. -/
theorem Inv.release (h : Inv S D σ p) (hu : 0 < σ.uses x) {left : Nat} (last : left = 0)
    (unlocked : ∀ r, σ.place x = some (.register r) → p.locks r = 0) {a : Assignment}
    (place : a.storage = σ.place x) (regs : σ'.regs = σ.regs) {post : Unit → State → Prop}
    {fails : CompileError → State → Prop}
    (next : ∀ regs, Released S σ p x left none regs p → post () { σ' with regs }) :
    Yields (match a.register? with
      | some r => do if (← Lowering.owner r) = some (.value x) then onRegs (RegisterFile.free r)
      | none => return) σ' post fails := by
  have stay (still : ∀ q, σ.place x ≠ some (.register q)) : post () σ' :=
    next σ'.regs (regs ▸ h.released_self fun q hq => still q hq.2)
  rw [Assignment.register?, place]
  cases hpl : σ.place x with
  | none => exact .of_pure (stay fun q hq => by rw [hpl] at hq; cases hq)
  | some pl =>
    cases pl with
    | stack offset => exact .of_pure (stay fun q hq => by rw [hpl] at hq; cases hq)
    | immediate value => exact .of_pure (stay fun q hq => by rw [hpl] at hq; cases hq)
    | register r =>
      have placed : Placed σ x (.register r) := ⟨hpl, hu⟩
      have own := h.owner_of_placed placed
      have hr := (h.register hpl hu).1
      have regular : σ'.regs.Regular S.budget := regs ▸ h.regular
      refine .bind (yields_owner ?_)
      rw [regs, if_pos own]
      refine (yields_onRegs_total (regular.yields_free hr ?_)).mono ?_ fun _ _ he => he
      · rw [regs, own]
        exact Option.some_ne_none _
      rintro _ _ ⟨file, rfl, becomes⟩
      rw [regs] at becomes
      refine next file ⟨becomes.regular, fun {q} hq => ?_, fun q => ?_, fun {q} hq => ?_,
        fun q hq => by rw [becomes.touched_eq, hq]⟩
      · rw [if_congr (placed.last_iff last q) rfl rfl]
        exact becomes.owner_eq hq
      · rw [if_congr (placed.last_iff last q) rfl rfl]
        split
        · next he => rw [he, h.notHeld hpl hu]
        · rfl
      · refine (becomes.lockCount_eq hq).trans ?_
        split
        · next he => rw [he, unlocked r hpl]
        · exact h.locks hq

theorem Stage.dropUse (h : Stage S E σ₀ p₀ D σ R p) (hu : 0 < σ.uses x)
    (still : ∀ q, ¬(σ.uses x - 1 = 0 ∧ σ.place x = some (.register q))) :
    Generates S (removeUse x) σ fun _ σ' => Reads σ σ' [x] ∧ Stage S E σ₀ p₀ D σ' R p :=
  yields_removeUse (h.readOnly hu (h.inv.released_self still))

theorem Stage.consume (h : Stage S E σ₀ p₀ D σ R p) (hu : 0 < σ.uses x)
    (releasable : Releasable σ p x) :
    Generates S (consume x) σ fun _ σ' => Reads σ σ' [x] ∧ Stage S E σ₀ p₀ D σ' R p := by
  have updated := updated_afterRead hu σ.regs
  have uses : (σ.afterRead x σ.regs).uses x = σ.uses x - 1 :=
    (updated.uses_eq x).trans (if_pos rfl)
  have dead : ((σ.afterRead x σ.regs).values.entry x).isDead = true ↔ σ.uses x - 1 = 0 := by
    rw [← uses]
    exact beq_iff_eq
  refine .bind (yields_removeUse (.bind (yields_assignment ?_)))
  by_cases hz : ((σ.afterRead x σ.regs).values.entry x).isDead = true
  · rw [if_pos hz]
    have last := dead.1 hz
    have same : (σ.afterRead x σ.regs).regs = σ.regs := rfl
    refine h.inv.release hu last (fun r hr => (releasable r hr).resolve_right (by omega))
      (updated.place_same x) same fun regs released => ?_
    exact h.readOnly hu released
  · rw [if_neg hz]
    exact .of_pure (h.readOnly hu (h.inv.released_self fun q hq => hz (dead.2 hq.1)))

theorem Releasable.after (h : Releasable σ p x) (placed : Placed σ x pl) (grows : Grows σ σ')
    (uses : σ'.uses x = σ.uses x) : Releasable σ' p x := by
  intro r hr
  rw [uses]
  rcases grows.moved x (uses ▸ placed.live) (by rw [placed.place]; exact Option.some_ne_none _) with
    same | ⟨r', offset, -, ho⟩
  · exact h r (same ▸ hr)
  · rw [ho] at hr
    cases hr

/-! ## Temporaries -/

theorem Stage.allocResult (h : Stage S E σ₀ p₀ D σ R p) {c : RegClass} (solid : p.Solid)
    (room : Room S p c) :
    Generates S (allocResult S.ctx id c) σ fun r σ' =>
      Fresh S p c r ∧ Reads σ σ' [] ∧ Stage S E σ₀ p₀ D σ' R (p.hand r (some .temp)) :=
  h.alloc solid room .temp _

/-- Taking over the register of a value that is read for the last time. -/
theorem Stage.seize (h : Stage S E σ₀ p₀ D σ R p) (placed : Placed σ x (.register r))
    (last : σ.uses x = 1) :
    Generates S (do
      onRegs (RegisterFile.reassign r .temp)
      removeUse x
      return r) σ fun r' σ' => r' = r ∧ Reads σ σ' [x] ∧ Stage S E σ₀ p₀ D σ' R
        ((p.hand r (some .temp)).learn r (Reading S.graph x)) := by
  have hr := (h.inv.register placed.place placed.live).1
  have own := h.inv.owner_of_placed placed
  refine .seq (yields_onRegs_total (h.inv.regular.yields_reassign hr ?_ .temp)) ?_
  · rw [own]
    exact Option.some_ne_none _
  rintro _ _ ⟨regs, rfl, becomes⟩
  have left : σ.uses x - 1 = 0 := by omega
  have released : Released S σ p x (σ.uses x - 1) (some .temp) regs
      ((p.hand r (some .temp)).learn r (Reading S.graph x)) := by
    refine ⟨becomes.regular, fun {q} hq => ?_, fun q => ?_,
      fun hq => (becomes.lockCount_eq hq).trans (h.inv.locks hq),
      fun q hq => by rw [becomes.touched_eq, hq]⟩
    · rw [if_congr (placed.last_iff left q) rfl rfl]
      exact becomes.owner_eq hq
    · rw [if_congr (placed.last_iff left q) rfl rfl]
      rfl
  refine .bind (yields_removeUse (.of_pure ⟨rfl, ?_⟩))
  exact h.read placed.live released (h.inv.knownValid_learn hr) rfl
    (fun A c hm q P hk => (hm.learn (P := Reading S.graph x) (hm.word_eq placed)).known hk)
    fun _ _ hf => hf

theorem Stage.takeOrCopy (h : Stage S E σ₀ p₀ D σ R p) (hx : x ∈ D) (hu : 0 < σ.uses x)
    (releasable : Releasable σ p x) (solid : p.Solid)
    (room : Room S p (S.graph.tyOf x).regClass) :
    Generates S (takeOrCopy S.ctx x id) σ fun r σ' =>
      Fresh S p (S.graph.tyOf x).regClass r ∧ Reads σ σ' [x] ∧ Stage S E σ₀ p₀ D σ' R
        ((p.hand r (some .temp)).learn r (Reading S.graph x)) := by
  obtain ⟨pl, placed⟩ := h.inv.placed hx hu
  have copy : Generates S (do
      let r ← Lowering.allocResult S.ctx id (S.graph.tyOf x).regClass
      let src ← operand x
      Lowering.copyTo r (S.graph.tyOf x) src
      Lowering.consume x
      return r) σ fun r σ' =>
      Fresh S p (S.graph.tyOf x).regClass r ∧ Reads σ σ' [x] ∧ Stage S E σ₀ p₀ D σ' R
        ((p.hand r (some .temp)).learn r (Reading S.graph x)) := by
    refine .seq (h.allocResult solid room) ?_
    rintro r σ₁ ⟨fresh, reads₁, stage₁⟩
    have hu₁ : 0 < σ₁.uses x := reads₁.uses_eq x ▸ hu
    obtain ⟨pl₁, placed₁⟩ := stage₁.inv.placed hx hu₁
    refine .seq placed₁.operand ?_
    rintro _ _ ⟨rfl, rfl⟩
    have held : (p.hand r (some .temp)).held r = some .temp := if_pos rfl
    refine .seq (stage₁.copyTo placed₁ fresh.of fun _ => stage₁.inv.writable fresh.of.1 held) ?_
    rintro _ σ₂ ⟨coded, stage₂⟩
    have uses₂ : σ₂.uses x = σ.uses x := (coded.reads.uses_eq x).trans (reads₁.uses_eq x)
    refine .seq (stage₂.consume (uses₂ ▸ hu)
      (releasable.after placed (reads₁.grows.trans coded.grows) uses₂)) ?_
    rintro _ σ₃ ⟨reads₃, stage₃⟩
    exact .of_pure ⟨fresh, (reads₁.trans coded.reads).trans reads₃, stage₃⟩
  unfold Lowering.takeOrCopy
  refine .bind (.of_ok (h.inv.typeOf_eq hu) (.bind (yields_assignment ?_)))
  rw [register?_eq, placed.place]
  cases pl with
  | stack offset => exact .bind (.of_pure copy)
  | immediate value => exact .bind (.of_pure copy)
  | register r =>
    refine .bind (.of_get (.bind (.of_pure ?_)))
    dsimp only
    split
    · next hsome =>
      split at hsome
      · next once =>
        cases hsome
        have hr := h.inv.register placed.place placed.live
        rw [Bool.and_eq_true, Bool.and_eq_true, Bool.not_eq_true'] at once
        have last : σ.uses x = 1 := beq_iff_eq.1 once.1
        have unlocked : p.locks r = 0 := (releasable r placed.place).resolve_right (by omega)
        have fresh : Fresh S p (S.graph.tyOf x).regClass r := by
          refine ⟨?_, h.inv.notHeld placed.place hu, unlocked⟩
          rw [← hr.2]
          refine h.inv.regular.owned_mem hr.1 ?_
          rw [h.inv.owner_of_placed placed]
          exact Option.some_ne_none _
        refine (h.seize placed last).mono ?_ fun _ _ he => he
        rintro _ σ' ⟨rfl, reads, stage⟩
        exact ⟨fresh, reads, stage⟩
      · cases hsome
    · exact copy

theorem Stage.learn (h : Stage S E σ₀ p₀ D σ R p) (hr : r.Valid) (known : p.known r = some P)
    (hQ : ∀ A w, P A w → Q A w) : Stage S E σ₀ p₀ D σ R (p.learn r Q) :=
  h.tables (h.inv.congr rfl rfl (h.inv.knownValid_learn hr)) .refl rfl fun _ _ A _ hm =>
    hm.learn (hQ A _ (hm.known known))

/-! ## Registers with values -/

/-- The word of a general value, in a register from which the value can be read. -/
theorem Matches.named_word (hm : Matches S.graph E A σ p c)
    (hc : (S.graph.tyOf x).regClass = .general) (known : p.known r = some (Reading S.graph x)) :
    c.state.named r = A.word x := by
  rw [← ScalarType.view_of_general hc (c.state.named r)]
  exact hm.known known

/-- The pattern of a float value, in a register from which the value can be read. -/
theorem Matches.named_scalar (hm : Matches S.graph E A σ p c) {q : Precision}
    (hq : (S.graph.tyOf x).precision? = some q) (known : p.known r = some (Reading S.graph x)) :
    c.state.scalar q (.reg r) = A.word x := by
  have word := hm.known known
  rwa [Reading, ScalarType.view_of_precision hq] at word

theorem Stage.here (h : Stage S E σ₀ p₀ D σ R p) (placed : Placed σ x (.register r)) :
    r.Of (S.graph.tyOf x).regClass ∧ p.held r = none ∧ Coded σ σ ∧
      Stage S E σ₀ p₀ D σ R (p.learn r (Reading S.graph x)) := by
  have hr := h.inv.register placed.place placed.live
  refine ⟨hr, h.inv.notHeld placed.place placed.live, ⟨⟨σ.asm, rfl⟩, .refl, rfl⟩, ?_⟩
  exact h.tables (h.inv.congr rfl rfl (h.inv.knownValid_learn hr.1)) .refl rfl fun _ _ A c hm =>
    hm.learn (hm.word_eq placed)

/-- Loading a value into a general register, unless it is in one. -/
theorem Stage.generalRegister (h : Stage S E σ₀ p₀ D σ R p) (hx : x ∈ D) (hu : 0 < σ.uses x)
    (hc : (S.graph.tyOf x).regClass = .general) :
    Generates S (generalRegister x) σ fun r σ' =>
      r.Of .general ∧ p.held r = none ∧ Coded σ σ' ∧
        Stage S E σ₀ p₀ D σ' R (p.learn r (Reading S.graph x)) := by
  obtain ⟨pl, placed⟩ := h.inv.placed hx hu
  refine .seq placed.operand ?_
  rintro _ _ ⟨rfl, rfl⟩
  have ready := h.inv.ready placed
  rw [hc] at ready
  have load : Generates S (emit (Assembler.mov .scratch pl.operand) >>= fun _ => pure Reg.scratch)
      σ fun r σ' => r.Of .general ∧ p.held r = none ∧ Coded σ σ' ∧
        Stage S E σ₀ p₀ D σ' R (p.learn r (Reading S.graph x)) := by
    refine .seq (h.assign (h.inv.writable_scratch (.inl rfl)) (Machine.performs_mov (by decide)
      ready) (P := Reading S.graph x) fun sound within A c hm => ?_) ?_
    · rw [Reading, hm.operand_word h.inv sound within placed hc, ScalarType.view_of_general hc]
    · rintro _ σ' ⟨coded, stage⟩
      exact .of_pure ⟨by decide, h.inv.notHeld_scratch (.inl rfl), coded, stage⟩
  cases pl with
  | register r => exact .of_pure (hc ▸ h.here placed)
  | stack offset => exact load
  | immediate value => exact load

/-- Loading a float value into a vector register, unless it is in one. -/
theorem Stage.floatRegister (h : Stage S E σ₀ p₀ D σ R p) (hx : x ∈ D) (hu : 0 < σ.uses x)
    {prec : Precision} (hp : (S.graph.tyOf x).precision? = some prec) :
    Generates S (floatRegister prec x) σ fun r σ' =>
      r.Of .float ∧ p.held r = none ∧ Coded σ σ' ∧
        Stage S E σ₀ p₀ D σ' R (p.learn r (Reading S.graph x)) := by
  obtain ⟨pl, placed⟩ := h.inv.placed hx hu
  have hc := ScalarType.regClass_of_precision hp
  refine .seq placed.operand ?_
  rintro _ _ ⟨rfl, rfl⟩
  have ready := h.inv.ready placed
  rw [hc] at ready
  have load : Generates S
      (emit (Assembler.movFloat prec .floatScratch pl.operand) >>= fun _ => pure Reg.floatScratch)
      σ fun r σ' => r.Of .float ∧ p.held r = none ∧ Coded σ σ' ∧
        Stage S E σ₀ p₀ D σ' R (p.learn r (Reading S.graph x)) := by
    refine .seq (h.assign (h.inv.writable_scratch (.inr rfl)) (Machine.performs_movFloat prec
      (by decide) ready) (P := Reading S.graph x) fun sound within A c hm =>
        hm.view_movedFloat h.inv sound within placed hp) ?_
    rintro _ σ' ⟨coded, stage⟩
    exact .of_pure ⟨by decide, h.inv.notHeld_scratch (.inr rfl), coded, stage⟩
  cases pl with
  | register r => exact .of_pure (hc ▸ h.here placed)
  | stack offset => exact load
  | immediate value => exact load

theorem settle_of_extension {ty : ScalarType} {kind : Extension} (h : extension ty = some kind)
    (w : Word) : Machine.widen kind w = ty.settle w ∧ ty.regClass = .general := by
  cases ty <;> cases h <;> exact ⟨rfl, rfl⟩

theorem settle_of_no_extension {ty : ScalarType} (h : extension ty = none) (w : Word) :
    ty.view w = ty.settle w := by
  cases ty <;> first | exact absurd h (by decide) | simp [ScalarType.view, ScalarType.settle,
    ScalarType.canonical, ScalarType.width, ScalarType.size]

/-- Bringing the content of a register into the form of a type. -/
theorem Stage.normalize (h : Stage S E σ₀ p₀ D σ R p) {ty : ScalarType}
    (hr : r.Of ty.regClass) (held : p.held r = some owner) (known : p.known r = some P) :
    Generates S (normalize r ty) σ fun _ σ' => Coded σ σ' ∧ Stage S E σ₀ p₀ D σ' R
      (p.learn r fun A w => ∃ w₀, P A w₀ ∧ ty.view w = ty.settle w₀) := by
  unfold Lowering.normalize
  cases hk : extension ty with
  | none =>
    exact .of_pure ⟨⟨⟨σ.asm, rfl⟩, .refl, rfl⟩, h.learn hr.1 known fun A w hw =>
      ⟨w, hw, settle_of_no_extension hk w⟩⟩
  | some kind =>
    have hc := (settle_of_extension hk 0).2
    have hr' : r.Of .general := hc ▸ hr
    refine h.assign (h.inv.writable hr.1 held) (Machine.performs_extend kind hr' hr')
      fun _ _ A c hm => ⟨_, hm.known known, ?_⟩
    rw [ScalarType.view_of_general hc, (settle_of_extension hk _).1]

/-! ## Values that are found -/

theorem Moment.found_find (A : Moment) (x : NodeId) (w : Word) (y : NodeId) :
    (A.find x w).found y = if y = x then some w else A.found y := rfl

/-- Whether what a pose knows was known before and does not depend on what was found. -/
def Lasting (p p' : Pose) : Prop :=
  ∀ q P, p'.known q = some P → p.known q = some P ∧ ∀ A A' w, P A w → P A' w

theorem lasting_forget : Lasting p p'.forget := fun _ _ hk => by cases hk

/-- The code so far and the frame stay, and so do all reads to come, when a node gets its place. -/
theorem reads_withPlace (hid : id ∉ D) (inv : Inv S D σ p) (hu : 0 < σ.uses id)
    {regs : RegisterFile}
    (touched : ∀ q, σ.regs.touched.contains q = true → regs.touched.contains q = true) :
    Reads σ (σ.withPlace id pl regs) [] := by
  have updated := updated_withPlace hu pl regs
  have live := updated.uses_same
  refine .of_eq ⟨⟨[], .refl⟩, .refl, Nat.le_refl _, fun hs => hs, fun hs => hs, touched,
    fun x => Nat.le_of_eq (live x), fun x _ hx => .inl ?_, List.suffix_rfl,
    reads_of_eq live rfl⟩ live rfl
  rw [updated.place_eq, if_neg]
  rintro rfl
  exact hx (inv.notDone hid)

/-- A node that is not done gets its place, and what is there becomes its value. -/
theorem Stage.place (h : Stage S E σ₀ p₀ D σ R p) (p' : Pose) (hid : id ∉ D) (hu : 0 < σ.uses id)
    {regs : RegisterFile} (housed : Housed S σ p id pl regs p') (lowered : p'.lowered = p.lowered)
    (flags : ∀ A f, p'.flags A f) (known : Lasting p p') {f : Course}
    (found : E.Sound → Within S E σ → ∀ A c, Matches S.graph E A σ p c →
      f A (.ok (A.find id ((S.graph.tyOf id).view (content E.stack c.state pl))))) :
    Reads σ (σ.withPlace id pl regs) [] ∧
      Stage S E σ₀ p₀ (insert id D) (σ.withPlace id pl regs) (R.andThen f) p' := by
  have updated := updated_withPlace hu pl regs
  have live := updated.uses_same
  have reads : Reads σ (σ.withPlace id pl regs) [] :=
    reads_withPlace hid h.inv hu housed.touched
  have inv : Inv S (insert id D) (σ.withPlace id pl regs) p' :=
    h.inv.settle (h.inv.aside hid) hu housed fun hk => h.inv.knownValid (known _ _ hk).1
  refine ⟨reads, h.next inv reads.grows fun sound within A c at_ hm => ?_⟩
  refine ⟨_, found sound (within.of_grows h.inv.begun reads.grows) A c hm, ?_⟩
  show E.site.Leads σ.offset σ.offset c fun c' => Matches S.graph E _ (σ.withPlace id pl regs) p' c'
  refine .refl at_ ⟨fun {x pl'} hu hpl => ?_, fun hk => ?_, ?_, hm.bp, hm.heap, hm.kept,
    fun q hq ht => hm.saved q hq ?_, hm.log, flags _ _⟩
  · rw [live] at hu
    rw [updated.place_eq] at hpl
    rw [Moment.found_find]
    split at hpl
    · next hx =>
      cases hpl
      rw [if_pos hx, hx]
    · next hx =>
      rw [if_neg hx]
      exact hm.values hu hpl
  · obtain ⟨before, always⟩ := known _ _ hk
    exact always A _ _ (hm.known before)
  · rw [lowered]
    exact hm.sp
  · cases ht' : σ.regs.touched.contains q with
    | false => rfl
    | true =>
      rw [State.withPlace, housed.touched q ht'] at ht
      cases ht

theorem Stage.settle (h : Stage S E σ₀ p₀ D σ R p) (p' : Pose) (hid : id ∉ D) (hu : 0 < σ.uses id)
    (hr : r.Of (S.graph.tyOf id).regClass) (held : p.held r = some owner)
    (known : p.known r = some P) {regs : RegisterFile}
    (handed : Handed S.budget σ.regs regs r (some (.value id))) {f : Course}
    (found : ∀ A w, P A w → f A (.ok (A.find id ((S.graph.tyOf id).view w))))
    (held' : p'.held = (p.hand r none).held) (locks' : p'.locks = p.locks)
    (lowered' : p'.lowered = p.lowered) (flags' : ∀ A f, p'.flags A f) (lasting : Lasting p p') :
    Reads σ (σ.withPlace id (.register r) regs) [] ∧
      Stage S E σ₀ p₀ (insert id D) (σ.withPlace id (.register r) regs) (R.andThen f) p' :=
  h.place p' hid hu (h.inv.housed_register hr held handed held' locks') lowered' flags' lasting
    fun _ _ A _ hm => found A _ (hm.known known)

theorem Stage.define (h : Stage S E σ₀ p₀ D σ R p) (hid : id ∉ D) (hu : 0 < σ.uses id)
    (hr : r.Of (S.graph.tyOf id).regClass) (held : p.held r = some owner)
    (known : p.known r = some P) {f : Course}
    (found : ∀ A w, P A w → f A (.ok (A.find id ((S.graph.tyOf id).view w)))) :
    Generates S (define id r) σ fun _ σ' =>
      Reads σ σ' [] ∧
        Stage S E σ₀ p₀ (insert id D) σ' (R.andThen f) (p.hand r none).forget := by
  refine .seq (yields_onRegs_total (h.inv.regular.yields_reassign hr.1 ?_ (.value id))) ?_
  · rw [h.inv.held hr.1 held]
    exact Option.some_ne_none _
  rintro _ _ ⟨regs, rfl, becomes⟩
  have handed : Handed S.budget σ.regs regs r (some (.value id)) :=
    ⟨becomes.regular, becomes.owner_eq, becomes.lockCount_eq,
      fun q hq => by rw [becomes.touched_eq, hq]⟩
  exact yields_setStorage (h.settle (p.hand r none).forget hid hu hr held known handed found rfl
    rfl rfl (fun _ _ => trivial) lasting_forget)

theorem Stage.settleAside (h : Stage S E σ₀ p₀ D σ R p) (hid : id ∉ D) (hu : 0 < σ.uses id)
    (notRegister : ∀ q, pl ≠ .register q)
    (stack : ∀ offset, pl = .stack offset →
      offset ∈ S.incomingOffsets ∧ σ.frame.usesStackParams = true)
    (constant : ∀ v, pl = .immediate v →
      (S.graph.tyOf id).isFloat = false ∧ (v.setWidth 32).signExtend 64 = v)
    {f : Course}
    (found : E.Sound → Within S E σ → ∀ A c, Matches S.graph E A σ p c →
      f A (.ok (A.find id ((S.graph.tyOf id).view (content E.stack c.state pl))))) :
    Generates S (setStorage id pl) σ fun _ σ' =>
      Reads σ σ' [] ∧ Stage S E σ₀ p₀ (insert id D) σ' (R.andThen f) p.forget :=
  yields_setStorage (h.place p.forget hid hu
    (h.inv.housed_aside notRegister stack constant rfl rfl) rfl
    (fun _ _ => trivial) lasting_forget found)

end NativeExpr.Lowering
