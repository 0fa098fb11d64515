import NativeExpr.Proofs.Alike
import NativeExpr.Proofs.Convention
import NativeExpr.Proofs.Lowering.Turn

/-!
# Calls

Before a call no register that the callee may clobber holds a value, so arguments
move straight to their places. Outside code then gets the arguments of the schedule
and finds everything that it has to keep; what it leaves in the return register
becomes the value of the node.
-/
namespace NativeExpr.Lowering

open NativeExpr X64 Convention

variable {S : Setting} {E : Env} {σ₀ σ σ' σ'' : State} {A : Moment} {p₀ p p' : Pose}
variable {R : Course} {D : Finset NodeId} {x id : NodeId} {n : Node}
variable {r : Reg} {gen : NodeId → Lower Unit} {T : State → Prop} {args : List NodeId}
variable {c : Machine.Config} {g : Graph}

/-! ## Vacating registers -/

/-- Vacating those of several registers that meet a condition. -/
theorem Stage.evictAll (evicts : Reg → Bool) {f : Reg → Lower Unit}
    (hf : ∀ r, f r = if evicts r then Lowering.evict r else pure ()) :
    ∀ {rs : List Reg} {σ : State}, Stage S E σ₀ p₀ D σ R .idle → (∀ r ∈ rs, r.Valid) →
      Generates S (rs.forM f) σ fun _ σ' => Reads σ σ' [] ∧ Stage S E σ₀ p₀ D σ' R .idle ∧
        ∀ q, q.Valid → σ'.regs.owner q ≠ none →
          σ.regs.owner q ≠ none ∧ ¬(q ∈ rs ∧ evicts q = true) := by
  intro rs
  induction rs with
  | nil => exact fun h _ => .of_pure ⟨.refl, h, fun q _ hq => ⟨hq, by simp⟩⟩
  | cons r rs ih =>
    intro σ h valid
    have first : Generates S (f r) σ fun _ σ' => Reads σ σ' [] ∧
        Stage S E σ₀ p₀ D σ' R .idle ∧ ∀ q, q.Valid → σ'.regs.owner q ≠ none →
          σ.regs.owner q ≠ none ∧ ¬(q = r ∧ evicts q = true) := by
      rw [hf]
      by_cases he : evicts r = true
      · rw [if_pos he]
        refine (h.evict (valid r (List.mem_cons_self ..)) rfl rfl).mono ?_ fun _ _ he => he
        rintro _ σ' ⟨reads, owners, stage⟩
        refine ⟨reads, stage, fun q hq own => ?_⟩
        rw [owners hq] at own
        split at own
        · exact absurd rfl own
        · next ne => exact ⟨own, fun both => ne both.1⟩
      · rw [if_neg he]
        exact .of_pure ⟨.refl, h, fun q _ own => ⟨own, fun both => he (both.1 ▸ both.2)⟩⟩
    refine .seq first ?_
    rintro _ σ₁ ⟨reads₁, stage₁, owners₁⟩
    refine (ih stage₁ fun q hq => valid q (List.mem_cons_of_mem _ hq)).mono ?_ fun _ _ he => he
    rintro _ σ₂ ⟨reads₂, stage₂, owners₂⟩
    refine ⟨reads₁.trans reads₂, stage₂, fun q hq own => ?_⟩
    obtain ⟨own₁, notRest⟩ := owners₂ q hq own
    obtain ⟨own₀, notFirst⟩ := owners₁ q hq own₁
    refine ⟨own₀, fun both => ?_⟩
    rcases List.mem_cons.1 both.1 with he | hm
    · exact notFirst ⟨he, both.2⟩
    · exact notRest ⟨hm, both.2⟩

/-- No register that a call may clobber has an owner. -/
def Cleared (σ : State) : Prop :=
  ∀ q, q.Valid → isCallerSaved q = true ∨ q.regClass = .float → σ.regs.owner q = none

theorem Inv.mem_allocatedIn (h : Inv S D σ p) {q : Reg} (hq : q.Valid)
    (own : σ.regs.owner q ≠ none) : q ∈ σ.regs.allocatedIn q.regClass := by
  rw [RegisterFile.allocatedIn, List.mem_filter, h.regular.order_eq]
  exact ⟨h.regular.owned_mem hq own, (h.regular.used_iff hq).2 own⟩

theorem Inv.valid_of_allocatedIn (h : Inv S D σ p) {c : RegClass} {q : Reg}
    (hq : q ∈ σ.regs.allocatedIn c) : q.Valid := by
  rw [RegisterFile.allocatedIn, List.mem_filter, h.regular.order_eq] at hq
  exact (valid_of_mem_budgeted hq.1).1

theorem Stage.spillCallerSaved (h : Stage S E σ₀ p₀ D σ R .idle) :
    Generates S spillCallerSaved σ fun _ σ' =>
      Reads σ σ' [] ∧ Cleared σ' ∧ Stage S E σ₀ p₀ D σ' R .idle := by
  refine .bind (.of_get (.seq (h.evictAll isCallerSaved (fun _ => rfl)
    fun q hq => h.inv.valid_of_allocatedIn hq) ?_))
  rintro _ σ₁ ⟨reads₁, stage₁, owners₁⟩
  refine .bind (.of_get ((stage₁.evictAll (fun _ => true) (fun r => (if_pos rfl).symm)
    fun q hq => stage₁.inv.valid_of_allocatedIn hq).mono ?_ fun _ _ he => he))
  rintro _ σ₂ ⟨reads₂, stage₂, owners₂⟩
  refine ⟨reads₁.trans reads₂, fun q hq clobbered => ?_, stage₂⟩
  refine Classical.byContradiction fun own => ?_
  obtain ⟨own₁, notFloat⟩ := owners₂ q hq own
  obtain ⟨own₀, notGeneral⟩ := owners₁ q hq own₁
  rcases clobbered with saved | float
  · have hc : q.regClass = .general :=
      (by decide : ∀ q ∈ callerSaved, q.regClass = .general) q (List.contains_iff_mem.1 saved)
    have := h.inv.mem_allocatedIn hq own₀
    rw [hc] at this
    exact notGeneral ⟨this, saved⟩
  · have := stage₁.inv.mem_allocatedIn hq own₁
    rw [float] at this
    exact notFloat ⟨this, rfl⟩

theorem Inv.typesOf_eq (h : Inv S D σ p) {args : List NodeId} (live : ∀ x ∈ args, 0 < σ.uses x) :
    Generates S (args.mapM fun x => (S.graph.typeOf x : Lower ScalarType)) σ fun types σ' =>
      types = args.map S.graph.tyOf ∧ σ = σ' := by
  induction args with
  | nil => exact .of_pure ⟨rfl, rfl⟩
  | cons x args ih =>
    rw [List.mapM_cons]
    refine .bind (.of_ok (h.typeOf_eq (live x (List.mem_cons_self ..))) ?_)
    refine .seq (ih fun y hy => live y (List.mem_cons_of_mem _ hy)) ?_
    rintro _ _ ⟨rfl, rfl⟩
    exact .of_pure ⟨rfl, rfl⟩

/-! ## The stack pointer -/

theorem Matches.setSp (inv : Inv S D σ p) (hm : Matches S.graph E A σ p c)
    (unknown : p.known .rsp = none) {w : Word} {flags : Machine.Flags} {lowered : Nat}
    (hw : w = E.stack.sp - BitVec.ofNat 64 lowered) :
    Matches S.graph E A σ ({ p with lowered := lowered }.setFlags fun _ _ => True)
      ⟨c.entered, (c.state.setNamed .rsp w).setFlags flags⟩ := by
  have other {q : Reg} (hq : q.Valid) (hne : q ≠ .rsp) :
      ((c.state.setNamed .rsp w).setFlags flags).named q = c.state.named q := by
    rw [Machine.State.named_setFlags, Machine.State.named_setNamed (by decide) hq, if_neg hne]
  have memory : ((c.state.setNamed .rsp w).setFlags flags).memory = c.state.memory :=
    Machine.State.memory_setNamed
  refine ⟨fun {x pl} hu hpl => ?_, fun {r P} hk => ?_, ?_, ?_, ?_, ?_, fun q hq ht => ?_, hm.log,
    trivial⟩
  · rw [hm.values hu hpl]
    cases pl with
    | register q =>
      have ne := inv.placed_ne_rsp ⟨hpl, hu⟩
      rw [content, content, other (inv.register hpl hu).1 ne]
    | stack o => rw [content, content, memory]
    | immediate v => rfl
  · have hk : p.known r = some P := hk
    have ne : r ≠ .rsp := by
      rintro rfl
      rw [unknown] at hk
      cases hk
    rw [other (inv.knownValid hk) ne]
    exact hm.known hk
  · rw [Machine.State.named_setFlags, Machine.State.named_setNamed (by decide) (by decide),
      if_pos rfl]
    exact hw
  · rw [other (by decide) (by decide)]
    exact hm.bp
  · rw [memory]
    exact hm.heap
  · rw [memory]
    exact hm.kept
  · rw [other ((by decide : ∀ q ∈ calleeSaved, q.Valid) q hq)
      ((by decide : ∀ q ∈ calleeSaved, q ≠ .rsp) q hq)]
    exact hm.saved q hq ht

theorem Stage.adjust (h : Stage S E σ₀ p₀ D σ R p) (lowered : Nat)
    (unknown : p.known .rsp = none) {op : AluOp} {bytes : Nat}
    (small : E.Sound → Within S E σ → bytes < 2147483648)
    (move : op = .sub ∧ lowered = p.lowered + bytes ∨ op = .add ∧ p.lowered = lowered + bytes) :
    Generates S (adjustStack op bytes) σ fun _ σ' => Coded σ σ' ∧
      Stage S E σ₀ p₀ D σ' R ({ p with lowered := lowered }.setFlags fun _ _ => True) := by
  unfold adjustStack
  split
  · refine h.perform (Machine.performs_alu op (by decide) (by rfl)) rfl rfl h.inv.knownValid
      fun sound within A c hm => ?_
    have word : c.state.operand (.imm (BitVec.ofNat 32 bytes)) = BitVec.ofNat 64 bytes :=
      signExtend_ofNat (small sound within)
    obtain ⟨flags, hf⟩ := Machine.execAlu_eq (show Reg.rsp.Of .general by decide) op c.state
      (BitVec.ofNat 64 bytes)
    rw [word, hf]
    refine ⟨_, rfl, hm.setSp h.inv unknown ?_⟩
    rw [hm.sp]
    rcases move with ⟨rfl, rfl⟩ | ⟨rfl, he⟩
    · rw [Machine.aluResult, BitVec.ofNat_add, BitVec.sub_sub]
    · rw [Machine.aluResult, he, BitVec.ofNat_add, ← BitVec.sub_sub, BitVec.sub_add_cancel]
  · next none =>
    have same : ({ p with lowered := lowered } : Pose) = p := by
      have : lowered = p.lowered := by omega
      rw [this]
    rw [same]
    exact .of_pure ⟨⟨⟨σ.asm, rfl⟩, .refl, rfl⟩,
      h.tables (h.inv.congr rfl rfl h.inv.knownValid) .refl rfl
        fun _ _ _ _ hm => hm.setFlags trivial⟩

/-! ## Moving arguments -/

/-- What is known between the two moves of the stack pointer. -/
def Pose.calling (bytes : Nat) : Pose := { Pose.idle with lowered := bytes }

/-- Code that changes no table. Something comes to be known of the machine. -/
structure Block (S : Setting) (E : Env) (D : Finset NodeId) (σ : State) (p : Pose) (σ' : State)
    (Q : Moment → Machine.State → Prop) : Prop where
  coded : Coded σ σ'
  inv : Inv S D σ' p
  run : E.Sound → Within S E σ' → ∀ A c, E.site.At σ.offset c → Matches S.graph E A σ p c →
    E.site.Leads σ.offset σ'.offset c fun c' => Matches S.graph E A σ' p c' ∧ Q A c'.state

variable {Q Q' : Moment → Machine.State → Prop} {σ₁ : State} {bytes : Nat}

theorem Block.refl (inv : Inv S D σ p) : Block S E D σ p σ fun _ _ => True :=
  ⟨⟨⟨σ.asm, rfl⟩, .refl, rfl⟩, inv, fun _ _ _ _ at_ hm => .refl at_ ⟨hm, trivial⟩⟩

theorem Block.mono (h : Block S E D σ p σ₁ Q) (hQ : ∀ A s, Q A s → Q' A s) :
    Block S E D σ p σ₁ Q' :=
  ⟨h.coded, h.inv, fun sound within A c at_ hm =>
    (h.run sound within A c at_ hm).mono fun _ hc => ⟨hc.1, hQ _ _ hc.2⟩⟩

theorem Block.performAt (h : Block S E D σ p σ₁ Q) {m : Asm Unit}
    {address : Machine.State → Option Word} {f : Machine.State → Option Machine.State}
    (hm : Machine.PerformsAt m address f)
    (permits : E.Sound → Within S E σ₁ → ∀ A c, Matches S.graph E A σ₁ p c → ∀ i,
      Machine.isStraight i = true → Machine.storeAddress? c.state i = address c.state →
        E.site.permits c.state i)
    (effect : E.Sound → Within S E σ₁ → ∀ A c, Matches S.graph E A σ₁ p c → Q A c.state →
      ∃ s, f c.state = some s ∧ Matches S.graph E A σ₁ p ⟨c.entered, s⟩ ∧
        ∀ pc, Q' A (s.setPc pc)) :
    Generates S (emit m) σ₁ fun _ σ₂ => Block S E D σ p σ₂ Q' := by
  refine (yields_perform h.inv.residue h.inv.clean.sound hm).mono ?_ fun _ _ he => he
  rintro _ σ₂ ⟨asm, rfl, residue, coded, ⟨its, w⟩, acts⟩
  refine ⟨h.coded.trans coded,
    (h.inv.setAsm residue w).congr rfl rfl h.inv.knownValid, fun sound within A c at_ hmatch => ?_⟩
  have before := within.of_grows h.inv.begun coded.grows
  refine (h.run sound before A c at_ hmatch).trans fun c₁ at₁ ⟨hm₁, hq⟩ => ?_
  obtain ⟨s, hs, hm₂, hq₂⟩ := effect sound before A c₁ hm₁ hq
  refine ((acts E.site sound.site before.code within.code c₁ at₁
    (permits sound before A c₁ hm₁)).leads s hs).mono fun c₂ next => ?_
  have here := hm₂.setState next
  refine ⟨⟨here.values, here.known, here.sp, here.bp, here.heap, here.kept, here.saved, here.log,
    here.flags⟩, ?_⟩
  obtain ⟨-, pc, hpc⟩ := next
  rw [hpc]
  exact hq₂ pc

theorem Block.perform (h : Block S E D σ p σ₁ Q) {m : Asm Unit}
    {f : Machine.State → Option Machine.State} (hm : Machine.Performs m f)
    (effect : E.Sound → Within S E σ₁ → ∀ A c, Matches S.graph E A σ₁ p c → Q A c.state →
      ∃ s, f c.state = some s ∧ Matches S.graph E A σ₁ p ⟨c.entered, s⟩ ∧
        ∀ pc, Q' A (s.setPc pc)) :
    Generates S (emit m) σ₁ fun _ σ₂ => Block S E D σ p σ₂ Q' :=
  h.performAt hm
    (fun sound within _ _ hmatch _ _ => sound.permits.quiet (hmatch.keeps within)) effect

abbrev Placement := NodeId × ScalarType × ArgLocation

/-- Whether an argument is in its place, while the stack pointer is lowered. -/
def InPlace (A : Moment) (s : Machine.State) : Placement → Prop
  | (x, ty, .register r) => ty.view (s.named r) = A.word x
  | (x, ty, .stack o) =>
    ty.view (s.memory.load (s.named .rsp + BitVec.ofNat 64 o) 8) = A.word x

def Arrived (P : Placement → Prop) (A : Moment) (s : Machine.State) : Prop :=
  ∀ pl, P pl → InPlace A s pl

/-- An argument that is ready to be moved to a place among so many bytes. -/
structure Movable (S : Setting) (D : Finset NodeId) (σ : State) (bytes : Nat) (pl : Placement) :
    Prop where
  ty : pl.2.1 = S.graph.tyOf pl.1
  suits : Suits bytes pl.2.1.regClass pl.2.2
  found : pl.1 ∈ D
  live : 0 < σ.uses pl.1

theorem Matches.setFree (inv : Inv S D σ p) (hm : Matches S.graph E A σ p c)
    (unknown : p.known = fun _ => none) (writable : Writable σ r) (w : Word) :
    Matches S.graph E A σ p ⟨c.entered, c.state.setNamed r w⟩ :=
  (hm.setNamed inv writable (P := fun _ _ => True) trivial).congr (fun _ _ hu hpl => ⟨hu, hpl⟩)
    (fun _ => id) (fun q P hk => by rw [unknown] at hk; cases hk) rfl fun _ hf => hf

theorem Matches.writeOutgoing (inv : Inv S D σ p) (hm : Matches S.graph E A σ p c)
    (sound : E.Sound) (within : Within S E σ) {o : Nat} (room : o + 8 ≤ p.lowered)
    (reserve : p.lowered ≤ E.stack.reserve) (w : Word) :
    Matches S.graph E A σ p
      ⟨c.entered, c.state.write (c.state.named .rsp + BitVec.ofNat 64 o) w⟩ := by
  have address : c.state.named .rsp + BitVec.ofNat 64 o =
      E.stack.sp - BitVec.ofNat 64 (p.lowered - o) := by
    have split : BitVec.ofNat 64 p.lowered =
        BitVec.ofNat 64 (p.lowered - o) + BitVec.ofNat 64 o := by
      rw [← BitVec.ofNat_add]
      congr 1
      omega
    rw [hm.sp]
    grind
  obtain ⟨free, apart⟩ := sound.stack.below (k := p.lowered - o) (by omega) (by omega)
  rw [address]
  exact hm.write free fun x offset hu hpl => apart offset (inv.cell within ⟨hpl, hu⟩)

/-- Whether the places of certain arguments are apart from a given one. -/
def Apart (bytes : Nat) (P : Placement → Prop) (l : ArgLocation) : Prop :=
  ∀ pl, P pl → Suits bytes pl.2.1.regClass pl.2.2 ∧ pl.2.2 ≠ l

theorem valid_of_mem_argRegs {c : RegClass} {q : Reg} (h : q ∈ argRegs c) :
    q.Of c ∧ q ≠ .rsp ∧ q ≠ .rbp ∧ q ≠ .scratch ∧ q ∉ calleeSaved ∧
      (isCallerSaved q = true ∨ q.regClass = .float) := by
  revert q
  cases c <;> decide

theorem Arrived.setPc {P : Placement → Prop} {s : Machine.State} (h : Arrived P A s) (pc : Word) :
    Arrived P A (s.setPc pc) := by
  rintro ⟨x, ty, l⟩ hpl
  have here := h _ hpl
  cases l with
  | register q => exact here
  | stack o => exact here

theorem Arrived.setNamed {P : Placement → Prop} {s : Machine.State} (h : Arrived P A s)
    (apart : Apart bytes P (.register r)) (hr : r.Valid) (ne : r ≠ .rsp) (w : Word) :
    Arrived P A (s.setNamed r w) := by
  rintro ⟨x, ty, l⟩ hpl
  have here := h _ hpl
  obtain ⟨suits, other⟩ := apart _ hpl
  cases l with
  | register q =>
    have valid := (valid_of_mem_argRegs suits).1.1
    have hne : q ≠ r := fun he => other (by rw [he])
    show ty.view ((s.setNamed r w).named q) = _
    rw [Machine.State.named_setNamed hr valid, if_neg hne]
    exact here
  | stack o =>
    show ty.view ((s.setNamed r w).memory.load ((s.setNamed r w).named .rsp + _) 8) = _
    rw [Machine.State.memory_setNamed, Machine.State.named_setNamed hr (by decide),
      if_neg ne.symm]
    exact here

theorem Arrived.write {P : Placement → Prop} {s : Machine.State} (h : Arrived P A s) {o : Nat}
    {ty : ScalarType} {w : Word} (apart : Apart bytes P (.stack o)) (small : bytes < 2147483648)
    (aligned : o % 8 = 0) (inside : o + 8 ≤ bytes) (hw : ty.view w = A.word x) :
    Arrived (fun pl => P pl ∨ pl = (x, ty, .stack o)) A
      (s.write (s.named .rsp + BitVec.ofNat 64 o) w) := by
  rintro pl (hpl | rfl)
  · obtain ⟨y, ty', l⟩ := pl
    have here := h _ hpl
    obtain ⟨suits, other⟩ := apart _ hpl
    cases l with
    | register q => exact here
    | stack o' =>
      have ne : o' ≠ o := fun he => other (by rw [he])
      refine Eq.trans (congrArg ty'.view ?_) here
      refine Memory.load_congr fun i hi => Memory.store_of_le ?_
      have difference : s.named .rsp + BitVec.ofNat 64 o' + BitVec.ofNat 64 i -
          (s.named .rsp + BitVec.ofNat 64 o) = BitVec.ofNat 64 (o' + i) - BitVec.ofNat 64 o := by
        rw [BitVec.ofNat_add]
        grind
      have := suits.1
      have := suits.2
      dsimp only at *
      show 8 ≤ (s.named .rsp + BitVec.ofNat 64 o' + BitVec.ofNat 64 i -
          (s.named .rsp + BitVec.ofNat 64 o)).toNat
      rw [difference, BitVec.toNat_sub, BitVec.toNat_ofNat, BitVec.toNat_ofNat]
      omega
  · show ty.view ((s.memory.store _ w).load _ 8) = _
    rw [show (s.write (s.named .rsp + BitVec.ofNat 64 o) w).named .rsp = s.named .rsp from rfl,
      Memory.load_store]
    exact hw

/-- Whether the stack has room for so many bytes of arguments. -/
def Roomy (S : Setting) (E : Env) (bytes : Nat) : Prop :=
  ∀ τ, Within S E τ → bytes + 8 ≤ E.stack.reserve ∧ bytes < 2147483648

theorem Block.store (h : Block S E D σ (.calling bytes) σ₁ Q) {P : Placement → Prop} {o : Nat}
    {ty : ScalarType} (roomy : Roomy S E bytes) (apart : Apart bytes P (.stack o))
    (aligned : o % 8 = 0) (inside : o + 8 ≤ bytes) {m : Asm Unit} {w : Machine.State → Word}
    (performs : Machine.Stores m (·.memAddress (.outgoing o)) w)
    (hQ : ∀ A s, Q A s → Arrived P A s)
    (hw : E.Sound → Within S E σ₁ → ∀ A c, Matches S.graph E A σ₁ (.calling bytes) c →
      Q A c.state → ty.view (w c.state) = A.word x) :
    Generates S (emit m) σ₁ fun _ σ₂ => Block S E D σ (.calling bytes) σ₂
      (Arrived fun pl => P pl ∨ pl = (x, ty, .stack o)) := by
  have address (within : Within S E σ₁) (s : Machine.State) :
      s.memAddress (.outgoing o) = s.named .rsp + BitVec.ofNat 64 o := by
    have small := (roomy σ₁ within).2
    refine (memAddress_baseDisp s .rsp o (fitsSigned_of_bounds (by omega) (by omega))).trans ?_
    rw [BitVec.ofInt_natCast]
  refine h.performAt performs (fun sound within A c hm i straight target =>
    sound.permits.outgoing (hm.keeps within) straight hm.sp (roomy σ₁ within).1 inside
      (target.trans (congrArg some (address within c.state))))
    fun sound within A c hm hq => ⟨_, rfl, ?_⟩
  obtain ⟨reserve, small⟩ := roomy σ₁ within
  have arrived := (hQ A _ hq).write apart small aligned inside (hw sound within A c hm hq)
  dsimp only
  rw [address within]
  exact ⟨hm.writeOutgoing h.inv sound within inside (Nat.le_of_add_right_le reserve) _,
    arrived.setPc⟩

theorem Matches.view_content (hm : Matches g E A σ p c) {pl : Storage} (hx : Placed σ x pl)
    {ty : ScalarType} (hty : ty = g.tyOf x) : ty.view (content E.stack c.state pl) = A.word x := by
  rw [hty]
  exact hm.word_eq hx

theorem Apart.scratch {P : Placement → Prop} {l : ArgLocation} (h : Apart bytes P l) :
    Apart bytes P (.register .scratch) := by
  rintro ⟨x, ty, l'⟩ hpl
  have suits := (h _ hpl).1
  refine ⟨suits, fun he => ?_⟩
  obtain rfl : l' = .register .scratch := he
  exact (valid_of_mem_argRegs suits).2.2.2.1 rfl

theorem Block.placed (h : Block S E D σ p σ₁ Q) (hx : x ∈ D) (hu : 0 < σ.uses x) :
    ∃ pl, Placed σ₁ x pl := h.inv.placed hx (h.coded.reads.uses_eq x ▸ hu)

theorem Block.storeOutgoing {P : Placement → Prop} {o : Nat} {ty : ScalarType}
    (h : Block S E D σ (.calling bytes) σ₁ (Arrived P)) (roomy : Roomy S E bytes)
    (apart : Apart bytes P (.stack o)) (movable : Movable S D σ bytes (x, ty, .stack o)) :
    Generates S (storeOutgoing x ty (.outgoing o)) σ₁ fun _ σ₂ =>
      Block S E D σ (.calling bytes) σ₂ (Arrived fun pl => P pl ∨ pl = (x, ty, .stack o)) := by
  obtain ⟨hty, ⟨aligned, inside⟩, hx, hu⟩ := movable
  dsimp only at hty hx hu
  obtain ⟨pl, placed⟩ := h.placed hx hu
  have ready := h.inv.ready placed
  have slot : (Mem.outgoing o).Ready := Mem.ready_baseDisp (by decide) o
  refine .seq placed.operand ?_
  rintro _ _ ⟨rfl, rfl⟩
  cases pl with
  | register r =>
    have ofClass : r.Of (S.graph.tyOf x).regClass := ready
    have word {c : Machine.Config} {A : Moment}
        (hm : Matches S.graph E A σ₁ (.calling bytes) c) : ty.view (c.state.named r) = A.word x :=
      hm.view_content placed hty
    show Generates S (if ty.isFloat then _ else _) σ₁ _
    split
    · next float =>
      have hc : (S.graph.tyOf x).regClass = .float := by rw [← hty, ScalarType.regClass, float]; rfl
      exact h.store roomy apart aligned inside (Machine.performs_storeFloat slot (hc ▸ ofClass))
        (fun _ _ hq => hq) fun _ _ _ _ hm _ => word hm
    · next general =>
      have hc : (S.graph.tyOf x).regClass = .general := by
        rw [← hty, ScalarType.regClass, if_neg general]
      exact h.store roomy apart aligned inside (Machine.performs_store slot (hc ▸ ofClass))
        (fun _ _ hq => hq) fun _ _ _ _ hm _ => word hm
  | immediate v =>
    refine h.store roomy apart aligned inside (Machine.performs_storeImm slot _)
      (fun _ _ hq => hq) fun sound within A c hm _ => ?_
    have := hm.operand_eq h.inv sound within placed
    rw [← hm.view_content placed hty, ← this]
    rfl
  | stack offset =>
    refine .seq (R := fun _ σ₂ => Block S E D σ (.calling bytes) σ₂ fun A s =>
      Arrived P A s ∧ ty.view (s.named .scratch) = A.word x) (h.perform (Machine.performs_load
      (show Reg.scratch.Of .general by decide) (Mem.ready_baseDisp (by decide) offset))
      fun sound within A c hm hq => ⟨_, rfl, hm.setFree h.inv rfl
        (h.inv.writable_scratch (.inl rfl)) _, fun pc => ?_⟩) ?_
    · refine ⟨(hq.setNamed apart.scratch (by decide) (by decide) _).setPc pc, ?_⟩
      rw [Machine.State.named_setPc, Machine.State.named_setNamed (by decide) (by decide),
        if_pos rfl, ← hm.view_content placed hty, ← hm.operand_eq h.inv sound within placed]
      rfl
    · rintro _ σ₂ h₂
      exact h₂.store roomy apart aligned inside (Machine.performs_store slot (by decide))
        (fun _ _ hq => hq.1) fun _ _ _ _ _ hq => hq.2

theorem Block.moveRegister {P : Placement → Prop} {ty : ScalarType}
    (h : Block S E D σ (.calling bytes) σ₁ (Arrived P)) (cleared : Cleared σ)
    (apart : Apart bytes P (.register r)) (movable : Movable S D σ bytes (x, ty, .register r)) :
    Generates S (moveRegisterArg (x, ty, .register r)) σ₁ fun _ σ₂ =>
      Block S E D σ (.calling bytes) σ₂ (Arrived fun pl => P pl ∨ pl = (x, ty, .register r)) := by
  obtain ⟨hty, suits, hx, hu⟩ := movable
  dsimp only at hty hx hu
  obtain ⟨hr, notSp, notBp, -, notSaved, clobbered⟩ := valid_of_mem_argRegs suits
  dsimp only at hr
  obtain ⟨pl, placed⟩ := h.placed hx hu
  have ready := h.inv.ready placed
  rw [← hty] at ready
  have owner : σ₁.regs.owner r = none := by
    obtain ⟨asm, rfl⟩ := h.coded.same
    exact cleared r hr.1 clobbered
  have writable : Writable σ₁ r :=
    ⟨hr.1, ⟨notSp, notBp⟩, h.inv.dead_of_free owner, fun hs => absurd hs notSaved⟩
  -- Either way the register gets the word of the argument.
  have finish {m : Asm Unit} {w : Machine.State → Word}
      (performs : Machine.Performs m fun s => some (s.setNamed r (w s)))
      (hw : E.Sound → Within S E σ₁ → ∀ A c, Matches S.graph E A σ₁ (.calling bytes) c →
        ty.view (w c.state) = A.word x) :
      Generates S (emit m) σ₁ fun _ σ₂ => Block S E D σ (.calling bytes) σ₂
        (Arrived fun pl => P pl ∨ pl = (x, ty, .register r)) := by
    refine h.perform performs fun sound within A c hm hq =>
      ⟨_, rfl, hm.setFree h.inv rfl writable _, Arrived.setPc ?_⟩
    have others := hq.setNamed apart hr.1 notSp (w c.state)
    rintro pl (hpl | rfl)
    · exact others pl hpl
    · show ty.view ((c.state.setNamed r (w c.state)).named r) = _
      rw [Machine.State.named_setNamed hr.1 hr.1, if_pos rfl]
      exact hw sound within A c hm
  refine .seq placed.operand ?_
  rintro _ _ ⟨rfl, rfl⟩
  unfold Lowering.copyTo
  cases hq : ty.precision? with
  | some q =>
    have hc := ScalarType.regClass_of_precision hq
    refine finish (Machine.performs_movFloat q (hc ▸ hr) (hc ▸ ready)) fun sound within A c hm => ?_
    have := hm.view_movedFloat h.inv sound within placed (hty ▸ hq)
    rwa [← hty] at this
  | none =>
    have hc := ScalarType.regClass_of_no_precision hq
    refine finish (Machine.performs_mov (hc ▸ hr) (hc ▸ ready)) fun sound within A c hm => ?_
    rw [hm.operand_eq h.inv sound within placed]
    exact hm.view_content placed hty

theorem Block.moveAll (moves : Placement → Prop) {f : Placement → Lower Unit}
    (step : ∀ {P σ₁ pl}, Block S E D σ (.calling bytes) σ₁ (Arrived P) →
      Movable S D σ bytes pl → (moves pl → Apart bytes P pl.2.2) →
      Generates S (f pl) σ₁ fun _ σ₂ =>
        Block S E D σ (.calling bytes) σ₂ (Arrived fun q => P q ∨ q = pl ∧ moves pl)) :
    ∀ {pls : List Placement} {P : Placement → Prop} {σ₁ : State},
      Block S E D σ (.calling bytes) σ₁ (Arrived P) → (∀ pl ∈ pls, Movable S D σ bytes pl) →
      (pls.map fun pl => pl.2.2).Nodup → (∀ pl ∈ pls, moves pl → Apart bytes P pl.2.2) →
      Generates S (pls.forM f) σ₁ fun _ σ₂ =>
        Block S E D σ (.calling bytes) σ₂ (Arrived fun q => P q ∨ q ∈ pls ∧ moves q) := by
  intro pls
  induction pls with
  | nil =>
    intro P σ₁ h _ _ _
    refine .of_pure (h.mono fun A s hq pl hpl => hq pl ?_)
    rcases hpl with hpl | ⟨hm, -⟩
    · exact hpl
    · cases hm
  | cons pl pls ih =>
    intro P σ₁ h movable nodup apart
    rw [List.map_cons, List.nodup_cons] at nodup
    have head := movable pl (List.mem_cons_self ..)
    refine .seq (step h head (apart pl (List.mem_cons_self ..))) ?_
    intro _ σ₂ h₂
    refine (ih h₂ (fun q hq => movable q (List.mem_cons_of_mem _ hq)) nodup.2
      fun q hq moved q' hq' => ?_).mono (fun _ σ₃ h₃ => h₃.mono fun A s hs q hq => hs q ?_)
      fun _ _ he => he
    · rcases hq' with hP | ⟨rfl, -⟩
      · exact apart q (List.mem_cons_of_mem _ hq) moved q' hP
      · exact ⟨head.suits, fun he => nodup.1 (he ▸ List.mem_map_of_mem hq)⟩
    · rcases hq with hP | ⟨hm, moved⟩
      · exact .inl (.inl hP)
      · rcases List.mem_cons.1 hm with rfl | hm
        · exact .inl (.inr ⟨rfl, moved⟩)
        · exact .inr ⟨hm, moved⟩

def OnStack (pl : Placement) : Prop := ∃ o, pl.2.2 = .stack o

theorem Block.storeStackArgs {pls : List Placement} (inv : Inv S D σ (.calling bytes))
    (roomy : Roomy S E bytes) (movable : ∀ pl ∈ pls, Movable S D σ bytes pl)
    (nodup : (pls.map fun pl => pl.2.2).Nodup) :
    Generates S (pls.forM storeStackArg) σ fun _ σ₁ =>
      Block S E D σ (.calling bytes) σ₁ (Arrived fun q => q ∈ pls ∧ OnStack q) := by
  have start : Block S E D σ (.calling bytes) σ (Arrived fun _ => False) :=
    (Block.refl inv).mono fun _ _ _ _ hf => hf.elim
  refine (Block.moveAll OnStack (fun {P σ₁ pl} h movable apart => ?_) start movable nodup
    fun _ _ _ _ hf => hf.elim).mono (fun _ σ₁ h => h.mono fun A s hs q hq => hs q (.inr hq))
    fun _ _ he => he
  obtain ⟨x, ty, l⟩ := pl
  cases l with
  | stack o =>
    refine (h.storeOutgoing roomy (apart ⟨o, rfl⟩) movable).mono
      (fun _ σ₂ h₂ => h₂.mono fun A s hs q hq => hs q (hq.imp id And.left)) fun _ _ he => he
  | register r =>
    refine .of_pure (h.mono fun A s hs q hq => hs q (hq.resolve_right ?_))
    rintro ⟨-, o, ho⟩
    cases ho

theorem Block.moveRegisterArgs {pls : List Placement} (cleared : Cleared σ)
    (h : Block S E D σ (.calling bytes) σ₁ (Arrived fun q => q ∈ pls ∧ OnStack q))
    (movable : ∀ pl ∈ pls, Movable S D σ bytes pl) (nodup : (pls.map fun pl => pl.2.2).Nodup) :
    Generates S (pls.forM moveRegisterArg) σ₁ fun _ σ₂ =>
      Block S E D σ (.calling bytes) σ₂ (Arrived fun q => q ∈ pls) := by
  refine (Block.moveAll (fun q => ¬ OnStack q) (fun {P σ₁ pl} h movable apart => ?_) h
    movable nodup fun q hq moved q' hq' => ⟨(movable q' hq'.1).suits, fun he => moved ?_⟩).mono
    (fun _ σ₂ h₂ => h₂.mono fun A s hs q hq => hs q ?_) fun _ _ he => he
  · obtain ⟨x, ty, l⟩ := pl
    cases l with
    | register r =>
      refine (h.moveRegister cleared (apart ?_) movable).mono
        (fun _ σ₂ h₂ => h₂.mono fun A s hs q hq => hs q (hq.imp id And.left)) fun _ _ he => he
      rintro ⟨o, ho⟩
      cases ho
    | stack o =>
      exact .of_pure (h.mono fun A s hs q hq => hs q (hq.resolve_right fun hn => hn.2 ⟨o, rfl⟩))
  · obtain ⟨o, ho⟩ := hq'.2
    exact ⟨o, he ▸ ho⟩
  · by_cases stack : OnStack q
    · exact .inl ⟨hq, stack⟩
    · exact .inr ⟨hq, stack⟩

/-! ## The call -/

/-- What is known of a result: it is the answer to the latest call. -/
def Replied (ret : ScalarType) (A : Moment) (w : Word) : Prop :=
  ∃ e rest, A.events = e :: rest ∧ ret.settle w = e.result

/-- A state in which outside code is entered, with its return address on the stack. -/
structure Entered (c : Machine.Config) (s : Machine.State) (back : Word) : Prop where
  named : ∀ q, q.Valid → q ≠ .rsp → s.named q = c.state.named q
  sp : s.named .rsp = c.state.named .rsp - 8
  memory : s.memory = c.state.memory.store (c.state.named .rsp - 8) back

theorem entered_push {target back : Word} :
    Entered c ((c.state.push back).setPc target) back := by
  have eq : c.state.push back =
      (c.state.setNamed .rsp (c.state.named .rsp - 8)).write (c.state.named .rsp - 8) back := rfl
  refine ⟨fun q hq ne => ?_, ?_, ?_⟩
  · rw [Machine.State.named_setPc, eq, Machine.State.named_write,
      Machine.State.named_setNamed (by decide) hq, if_neg ne]
  · rw [Machine.State.named_setPc, eq, Machine.State.named_write,
      Machine.State.named_setNamed (by decide) (by decide), if_pos rfl]
  · rfl

theorem types_callOf (g : Graph) (A : Moment) (target : Word) (args : List NodeId)
    (ret : ScalarType) :
    (World.callOf g A target args ret).args.map Value.ty = args.map g.tyOf := by
  simp only [World.callOf, List.map_map]
  exact List.map_congr_left fun x _ => Value.ty_unify _

theorem Entered.argument {s : Machine.State} {back : Word} (h : Entered c s back)
    {ty : ScalarType} {l : ArgLocation} (suits : Suits bytes ty.regClass l)
    (small : bytes < 2147483648) (here : InPlace A c.state (x, ty, l)) :
    ty.view (s.argument l) = A.word x := by
  cases l with
  | register q =>
    have hq := valid_of_mem_argRegs suits
    show ty.view (s.named q) = _
    rw [h.named q hq.1.1 hq.2.1]
    exact here
  | stack o =>
    have inside := suits.2
    refine Eq.trans (congrArg ty.view ?_) here
    have top : s.rsp = c.state.named .rsp - 8 := h.sp
    show s.memory.load (s.rsp + 8 + BitVec.ofNat 64 o) 8 = _
    rw [top, show c.state.named .rsp - 8 + 8 = c.state.named .rsp from BitVec.sub_add_cancel ..,
      h.memory]
    refine Memory.load_congr fun i hi => Memory.store_of_le ?_
    have difference : c.state.named .rsp + BitVec.ofNat 64 o + BitVec.ofNat 64 i -
        (c.state.named .rsp - 8) = BitVec.ofNat 64 (o + i + 8) := by
      rw [BitVec.ofNat_add, BitVec.ofNat_add]
      grind
    rw [difference, BitVec.toNat_ofNat]
    omega

/-- A call of a node, with the words it passes and gets back. -/
def eventOf (g : Graph) (A : Moment) (target : Word) (args : List NodeId) (ret : ScalarType)
    (id : NodeId) (w : Word) : Event :=
  ⟨World.callOf g A target args ret, id, args.map A.word, ret.settle w⟩

theorem Entered.words {s : Machine.State} {back : Word}
    (arrived : Arrived (fun pl => pl ∈ placeArgs args (args.map g.tyOf)) A c.state)
    (h : Entered c s back)
    (small : argBytes ((args.map g.tyOf).map ScalarType.regClass) < 2147483648) :
    List.zipWith ScalarType.view (args.map g.tyOf) (s.arguments (args.map g.tyOf)) =
      args.map A.word := by
  rw [Machine.State.arguments]
  have suits := suits_argLocations ((args.map g.tyOf).map ScalarType.regClass)
  have length := length_argLocations ((args.map g.tyOf).map ScalarType.regClass)
  rw [List.length_map, List.length_map] at length
  generalize hl : argLocations ((args.map g.tyOf).map ScalarType.regClass) = ls at suits length
  have places : placeArgs args (args.map g.tyOf) = args.zip ((args.map g.tyOf).zip ls) := by
    rw [placeArgs, hl]
  rw [places] at arrived
  refine List.ext_getElem (by simp [length]) fun i hi hi' => ?_
  have inside : i < args.length := by simpa using hi'
  simp only [List.getElem_zipWith, List.getElem_map]
  have located : i < ls.length := by omega
  have here : InPlace A c.state (args[i], g.tyOf args[i], ls[i]) := by
    refine arrived _ (List.mem_iff_getElem.2 ⟨i, by simp [length, inside], by simp⟩)
  have fits := (List.forall₂_iff_get.1 suits).2 i (by simpa using inside) (by omega)
  have fits : Suits (argBytes ((args.map g.tyOf).map ScalarType.regClass))
      (g.tyOf args[i]).regClass ls[i] := by simpa using fits
  exact h.argument fits small here

/-- Outside code is entered with the arguments of the schedule. -/
theorem madeIn_eventOf {s : Machine.State} {target w : Word} {ret : ScalarType} {id : NodeId}
    (words : List.zipWith ScalarType.view (args.map g.tyOf) (s.arguments (args.map g.tyOf)) =
      args.map A.word) (pc : s.pc = target) : (eventOf g A target args ret id w).MadeIn s := by
  have types := types_callOf g A target args ret
  have length := congrArg List.length words
  simp only [List.length_zipWith, List.length_map] at length
  have word {i : Nat} (hi : i < args.length) (hi' : i < (s.arguments (args.map g.tyOf)).length) :
      (g.tyOf args[i]).view (s.arguments (args.map g.tyOf))[i] = A.word args[i] := by
    have at_ := @List.getElem_of_eq _ _ _ words i (by simp; omega)
    rwa [List.getElem_zipWith, List.getElem_map, List.getElem_map] at at_
  refine ⟨⟨pc, ?_⟩, ?_⟩
  · show List.zipWith _ (World.callOf g A target args ret).args (s.arguments
      ((World.callOf g A target args ret).args.map Value.ty)) =
        (World.callOf g A target args ret).args
    rw [types]
    refine List.ext_getElem (by simp [World.callOf]; omega) fun i hi hi' => ?_
    have inside : i < args.length := by simpa [World.callOf] using hi'
    simp only [World.callOf, List.getElem_zipWith, List.getElem_map, Value.ty_unify]
    show Value.unify ⟨g.tyOf args[i], (g.tyOf args[i]).view _⟩ = _
    rw [word inside (by omega)]
    rfl
  · show List.zipWith _ (World.callOf g A target args ret).args (s.arguments
      ((World.callOf g A target args ret).args.map Value.ty)) = args.map A.word
    rw [← words, types]
    conv_rhs => rw [← types]
    rw [List.zipWith_map_left, types]

theorem Block.loadTarget {P : Placement → Prop} (h : Block S E D σ (.calling bytes) σ₁ (Arrived P))
    (apart : Apart bytes P (.register .scratch)) (target : Word) :
    Generates S (emit (Assembler.movImm .scratch target)) σ₁ fun _ σ₂ =>
      Block S E D σ (.calling bytes) σ₂ fun A s => Arrived P A s ∧ s.named .scratch = target := by
  refine h.perform (Machine.performs_movImm (by decide) target) fun _ _ A c hm hq =>
    ⟨_, rfl, hm.setFree h.inv rfl (h.inv.writable_scratch (.inl rfl)) _, fun pc => ?_⟩
  refine ⟨(hq.setNamed apart (by decide) (by decide) _).setPc pc, ?_⟩
  rw [Machine.State.named_setPc, Machine.State.named_setNamed (by decide) (by decide), if_pos rfl]

def Pose.called (bytes : Nat) (ret : ScalarType) : Pose :=
  (Pose.calling bytes).learn (returnReg ret.regClass) (Replied ret)

theorem valid_returnReg (c : RegClass) : (returnReg c).Of c ∧ returnReg c ≠ .rsp ∧
    (isCallerSaved (returnReg c) = true ∨ (returnReg c).regClass = .float) := by
  cases c <;> decide

/-- A register that holds a value over a call is one that the callee keeps. -/
theorem Inv.saved_of_placed (h : Inv S D σ p) (cleared : Cleared σ)
    (placed : Placed σ x (.register r)) : r ∈ calleeSaved := by
  have hr := (h.register placed.place placed.live).1
  have own := h.owner_of_placed placed
  have used : σ.regs.owner r ≠ none := by
    rw [own]
    exact Option.some_ne_none _
  have notClobbered := fun clobbered => used (cleared r hr clobbered)
  rcases mem_order_of_mem_budgeted (h.regular.owned_mem hr used) with ⟨general, -⟩ | ⟨float, -⟩
  · exact (by decide : ∀ q ∈ generalOrder, isCallerSaved q = true ∨ q ∈ calleeSaved) r general
      |>.resolve_left fun saved => notClobbered (.inl saved)
  · exact absurd (.inr ((by decide : ∀ q ∈ floatOrder, q.regClass = .float) r float)) notClobbered

theorem Matches.pushed (hm : Matches S.graph E A σ (.calling bytes) c) :
    c.state.named .rsp - 8 = E.stack.sp - BitVec.ofNat 64 (bytes + 8) := by
  rw [hm.sp, BitVec.ofNat_add, ← BitVec.sub_sub]
  rfl

/-- Outside code finds the stack as it was left, the heap and where to return to. -/
theorem Matches.entered (hm : Matches S.graph E A σ (.calling bytes) c) (sound : E.Sound)
    (room : bytes + 8 ≤ E.stack.reserve) {s : Machine.State} {back : Word}
    (entered : Entered c s back) :
    s.named .rsp + BitVec.ofNat 64 (bytes + 8) = E.stack.sp ∧
      (∀ a, E.stack.heap a = true → s.memory a = E.world.view A.calls a) ∧
      s.memory.load (s.named .rsp) 8 = back := by
  refine ⟨?_, fun a ha => ?_, ?_⟩
  · rw [entered.sp, hm.pushed, BitVec.sub_add_cancel]
  · rw [entered.memory, hm.pushed, (sound.stack.below (by omega) room).1.store_heap ha]
    exact hm.heap a ha
  · rw [entered.sp, entered.memory, Memory.load_store]

theorem Matches.answered (inv : Inv S D σ (.calling bytes))
    (hm : Matches S.graph E A σ (.calling bytes) c)
    (sound : E.Sound) (within : Within S E σ) (cleared : Cleared σ)
    (room : bytes + 8 ≤ E.stack.reserve) {s s' : Machine.State} {back : Word}
    (entered : Entered c s back) {e : Event} (answers : Answers E A.calls e.toCall s s')
    (result : e.ret.settle (s'.named (returnReg e.ret.regClass)) = e.result)
    (log : Logged E.site.host E.noted (s :: c.entered) (e :: A.events)) :
    Matches S.graph E (A.call e) σ (.called bytes e.ret) ⟨s :: c.entered, s'⟩ := by
  obtain ⟨free, apart⟩ := sound.stack.below (k := bytes + 8) (by omega) room
  have memory := entered.memory
  rw [hm.pushed] at memory
  refine ⟨fun {x pl} hu hpl => ?_, fun {r P} hk => ?_, ?_, ?_, fun a ha => answers.heap a ha,
    ?_, ?_, log, trivial⟩
  · refine (hm.values hu hpl).trans (congrArg (fun w => some ((S.graph.tyOf x).view w)) ?_)
    cases pl with
    | register q =>
      have saved := inv.saved_of_placed cleared ⟨hpl, hu⟩
      show c.state.named q = s'.named q
      rw [answers.saved q (List.mem_cons_of_mem _ saved), entered.named q
        (inv.register hpl hu).1 (inv.placed_ne_rsp ⟨hpl, hu⟩)]
    | stack o =>
      refine Memory.load_congr fun i hi => ?_
      have cell := inv.cell within ⟨hpl, hu⟩
      have kept : s'.memory (E.stack.cell o + BitVec.ofNat 64 i) =
          s.memory (E.stack.cell o + BitVec.ofNat 64 i) := by
        rcases cell with slot | incoming
        · exact answers.slots o slot i hi
        · exact answers.kept _ (sound.stack.incoming_kept o incoming i hi)
      rw [kept, memory]
      exact (Memory.store_of_le (apart o cell i hi)).symm
    | immediate v => rfl
  · simp only [Pose.called, Pose.learn] at hk
    split at hk
    · next he =>
      cases hk
      rw [he]
      exact ⟨e, A.events, rfl, result⟩
    · cases hk
  · show s'.named .rsp = E.stack.sp - BitVec.ofNat 64 bytes
    rw [answers.sp, entered.sp, BitVec.sub_add_cancel, hm.sp]
    rfl
  · rw [answers.saved .rbp (List.mem_cons_self ..), entered.named .rbp (by decide) (by decide),
      hm.bp]
  · intro a ha
    rw [answers.kept a ha, memory, free.store_kept ha, hm.kept a ha]
  · intro q hq ht
    rw [answers.saved q (List.mem_cons_of_mem _ hq), entered.named q
      ((by decide : ∀ q ∈ calleeSaved, q.Valid) q hq)
      ((by decide : ∀ q ∈ calleeSaved, q ≠ .rsp) q hq), hm.saved q hq ht]

/-- A call with one of the results that it may have. -/
def makeCall (E : Env) (g : Graph) (target : Word) (args : List NodeId) (ret : ScalarType)
    (id : NodeId) : Course := fun A o =>
  ∃ w, E.world.reply A.calls (World.callOf g A target args ret) w ∧
    o = .ok (A.call (eventOf g A target args ret id w))

/-- The call instruction, its arguments in their places and its target in the scratch
register. -/
theorem Stage.callOut {target : Word} {ret : ScalarType}
    (h : Stage S E σ₀ p₀ D σ R (.calling bytes)) (id : NodeId)
    (block : Block S E D σ (.calling bytes) σ₁ fun A s =>
      Arrived (fun pl => pl ∈ placeArgs args (args.map S.graph.tyOf)) A s ∧
        s.named .scratch = target)
    (cleared : Cleared σ) (outgoing_eq : ∀ A,
      outgoing (World.callOf S.graph A target args ret) = bytes)
    (le : argBytes ((args.map S.graph.tyOf).map ScalarType.regClass) ≤ bytes)
    (aligned : bytes % 16 = 0) (calls : ∀ A, S.Calls (World.callOf S.graph A target args ret)) :
    Generates S (emit (Assembler.callReg .scratch)) σ₁ fun _ σ₂ => Coded σ σ₂ ∧
      Stage S E σ₀ p₀ D σ₂ (R.andThen (makeCall E S.graph target args ret id))
        (.called bytes ret) := by
  have emitted : Yields (Assembler.callReg .scratch) σ₁.asm (fun _ a' => a'.residue = [] ∧
      σ₁.buffer.Written a'.buffer [.instr (.callReg Reg.scratch.num)] ∧
        σ₁.buffer.Balanced a'.buffer) fun e _ => e.IsOverflow := by
    unfold Assembler.callReg
    exact .bind (.of_ok (Machine.number_eq (c := .general) (by decide))
      (Machine.yields_emit rfl block.inv.residue))
  refine (yields_emit emitted).mono ?_ fun _ _ he =>
    ⟨permitted_of_overflow he.1, he.2 ▸ block.inv.clean.sound⟩
  rintro _ _ ⟨asm, rfl, residue, w, balanced⟩
  have last : Coded σ₁ { σ₁ with asm } := coded_setAsm [.callReg Reg.scratch.num] w balanced
  have grows := last.grows
  have coded : Coded σ { σ₁ with asm } := block.coded.trans last
  have inv : Inv S D { σ₁ with asm } (.called bytes ret) :=
    (block.inv.setAsm residue w).congr rfl rfl
      (block.inv.knownValid_learn (valid_returnReg ret.regClass).1.1)
  refine ⟨coded, h.next inv coded.grows fun sound within A c at_ hm => ?_⟩
  have served := within.calls _ (calls A)
  have room : bytes + 8 ≤ E.stack.reserve := outgoing_eq A ▸ served.room
  have small : bytes < 2147483648 := outgoing_eq A ▸ served.small
  have before := within.of_grows block.inv.begun grows
  obtain ⟨f, hf, answers⟩ := served.answers
  obtain ⟨n, c₁, walk, bound, at₁, hm₁, arrived, target_eq⟩ := block.run sound before A c at_ hm
  have reg : c₁.state.reg Reg.scratch.num = target :=
    (Machine.State.named_general rfl).symm.trans target_eq
  have entered : Entered c₁ ((c₁.state.push (E.site.address asm.buffer.size)).setPc
      (c₁.state.reg Reg.scratch.num)) (E.site.address asm.buffer.size) := entered_push
  generalize hs : (c₁.state.push (E.site.address asm.buffer.size)).setPc
    (c₁.state.reg Reg.scratch.num) = s at entered
  have pc : s.pc = target := by rw [← hs]; exact reg
  have made (w : Word) : (eventOf S.graph A target args ret id w).MadeIn s :=
    madeIn_eventOf (entered.words arrived (Nat.lt_of_le_of_lt le small)) pc
  obtain ⟨bottom, heap, return_⟩ := hm₁.entered sound room entered
  obtain ⟨noted, answer⟩ := answers c₁.entered A.events s hm₁.log (made 0).1
    (by rw [outgoing_eq]; exact bottom) (return_ ▸ before.code.spans sound.site w within.code) heap
  have back : (f c₁.entered s).pc = E.site.address asm.buffer.size := by
    rw [answer.pc, return_]
  obtain ⟨w', reply, result⟩ := answer.reply
  refine ⟨_, ⟨w', reply, rfl⟩, ?_⟩
  have arrives : E.site.Leads σ.offset σ₁.offset c (· = c₁) := ⟨n, c₁, walk, bound, at₁, rfl⟩
  refine arrives.trans fun _ _ same => ?_
  subst same
  refine (before.code.leads_call sound.site w within.code at₁
    (sound.permits.call (hm₁.keeps before) hm₁.sp aligned room) (by rw [reg]; exact hf)
    (by rw [reg]; exact served.outside) hs.symm back).mono ?_
  rintro _ rfl
  have here := hm₁.answered block.inv sound before (fun q hq clobbered => ?_) room entered
    answer (e := eventOf S.graph A target args ret id w') result
    (.cons hm₁.log (made w') noted hf result)
  · exact ⟨here.values, here.known, here.sp, here.bp, here.heap, here.kept, here.saved, here.log,
      here.flags⟩
  · obtain ⟨asm', same⟩ := block.coded.same
    rw [same]
    exact cleared q hq clobbered

/-- Reading all arguments once for every time they are listed. -/
theorem Stage.consumeAll (unlocked : p.locks = fun _ => 0) :
    ∀ (xs : List NodeId) {σ : State}, Stage S E σ₀ p₀ D σ R p →
      (∀ x, xs.count x ≤ σ.uses x) → Generates S (xs.forM Lowering.consume) σ fun _ σ' =>
        Reads σ σ' xs ∧ Stage S E σ₀ p₀ D σ' R p := by
  intro xs
  induction xs with
  | nil => exact fun h _ => .of_pure ⟨.refl, h⟩
  | cons x xs ih =>
    intro σ h enough
    have live : 0 < σ.uses x :=
      Nat.lt_of_lt_of_le (List.count_pos_iff.2 (List.mem_cons_self ..)) (enough x)
    refine .seq (h.consume live (.of_unlocked unlocked)) ?_
    rintro _ σ₁ ⟨reads₁, stage₁⟩
    refine (ih stage₁ fun y => ?_).mono ?_ fun _ _ he => he
    · have left := reads₁.uses y
      have all := enough y
      rw [← List.singleton_append, List.count_append] at all
      omega
    · rintro _ σ₂ ⟨reads₂, stage₂⟩
      exact ⟨reads₁.trans reads₂, stage₂⟩

theorem grows_noteCall : Grows σ { σ with frame.makesCalls := true } :=
  ⟨⟨[], .refl⟩, .refl, Nat.le_refl _, id, fun _ => rfl, fun _ => id, fun _ => Nat.le_refl _,
    fun _ _ _ => .inl rfl, List.suffix_rfl, fun _ => rfl⟩

theorem Stage.noteCall (h : Stage S E σ₀ p₀ D σ R p) :
    Generates S (modify fun s => { s with frame.makesCalls := true }) σ fun _ σ' =>
      σ' = { σ with frame.makesCalls := true } ∧ Stage S E σ₀ p₀ D σ' R p := by
  refine .of_modify ⟨rfl, h.tables { h.inv with } grows_noteCall rfl fun _ _ A c hm => ?_⟩
  exact hm.congr (fun _ _ hu hpl => ⟨hu, hpl⟩) (fun _ => id) (fun _ _ hk => hk) rfl fun _ hf => hf

theorem first_returnReg (c : RegClass) :
    returnReg c ∈ generalOrder.take 4 ∨ returnReg c ∈ floatOrder.take 2 := by
  cases c <;> decide

/-- The result of the latest call becomes the value of a node. -/
def findReply (id : NodeId) : Course := fun A o =>
  ∃ e rest, A.events = e :: rest ∧ o = .ok (A.find id e.result)

theorem goes_call {target : Word} (kind : n.kind = .call target args) (m : Moment)
    (o : Except (List Event) Moment)
    (h : (R.andThen (makeCall E S.graph target args n.ty id)).andThen (findReply id) m o) :
    R.andThen (E.world.visit S.graph id n) m o := by
  rw [Course.andThen_assoc] at h
  refine Course.andThen_mono (fun _ _ => (·)) (fun A o h => ?_) h
  rcases h with ⟨A', ⟨w, reply, same⟩, e, rest, events, rfl⟩ | ⟨_, ⟨_, _, same⟩, -⟩
  · cases same
    cases events
    simp only [World.visit, kind]
    exact ⟨w, reply, rfl⟩
  · cases same

theorem Reads.counted {target : Word} (h : Reads σ σ' n.operands)
    (kind : n.kind = .call target args) :
    Spent n σ { σ' with
      frame.makesCalls := true
      stats.calls := σ'.stats.calls + 1 } := by
  refine ⟨h.grows.trans (grows_noteCall.trans (grows_record _ [] rfl)), h.uses, ?_⟩
  rw [← h.tally, Tally.turn, kind]
  rfl

theorem Suits.mono {bytes' : Nat} {c : RegClass} {l : ArgLocation} (h : Suits bytes c l)
    (le : bytes ≤ bytes') : Suits bytes' c l := by
  cases l with
  | register r => exact h
  | stack o => exact ⟨h.1, Nat.le_trans h.2 le⟩

theorem Turn.movable (t : Turn S E σ₀ p₀ D σ R id n) (operands : n.operands = args)
    {σ₁ : State} (uses : ∀ x, σ₁.uses x = σ.uses x)
    (le : argBytes ((args.map S.graph.tyOf).map ScalarType.regClass) ≤ bytes) {pl : Placement}
    (h : pl ∈ placeArgs args (args.map S.graph.tyOf)) : Movable S D σ₁ bytes pl := by
  obtain ⟨i, hi, rfl⟩ := List.mem_iff_getElem.1 h
  have length := length_argLocations ((args.map S.graph.tyOf).map ScalarType.regClass)
  simp only [List.length_map] at length
  have inside : i < args.length := by
    simp only [placeArgs, List.length_zip] at hi
    omega
  have fits := (List.forall₂_iff_get.1
    (suits_argLocations ((args.map S.graph.tyOf).map ScalarType.regClass))).2 i
    (by simpa using inside) (by omega)
  have mem : args[i] ∈ args := List.getElem_mem inside
  simp only [placeArgs, List.getElem_zip, List.getElem_map]
  refine ⟨rfl, Suits.mono ?_ le, t.reads _ (operands ▸ mem), uses _ ▸ t.live (operands ▸ mem)⟩
  simpa using fits

theorem nodup_placeArgs : ((placeArgs args (args.map g.tyOf)).map fun pl => pl.2.2).Nodup := by
  have length := length_argLocations ((args.map g.tyOf).map ScalarType.regClass)
  rw [List.length_map] at length
  have places : (placeArgs args (args.map g.tyOf)).map (fun pl => pl.2.2) =
      argLocations ((args.map g.tyOf).map ScalarType.regClass) := by
    rw [placeArgs, show (fun pl : Placement => pl.2.2) = Prod.snd ∘ Prod.snd from rfl,
      ← List.map_map, List.map_snd_zip (by simp), List.map_snd_zip (by omega)]
  rw [places]
  exact nodup_argLocations _

theorem generates_lowerCall {target : Word}
    (turn : ∀ τ, T τ → Turn S E σ₀ p₀ D τ R id n) (gens : Operands S gen T args σ)
    (kind : n.kind = .call target args) :
    Generates S (lowerCall S.ctx gen id target args n.ty) σ fun _ σ' =>
      ∃ τ, T τ ∧ Took S E σ₀ p₀ D τ R id n σ' := by
  have operands : n.operands = args := by rw [Node.operands, kind]; rfl
  refine .seq gens.forM fun _ τ hτ => ?_
  have t := turn τ hτ
  refine .seq t.stage.spillCallerSaved ?_
  rintro _ σ₁ ⟨reads₁, cleared, stage₁⟩
  refine .seq (stage₁.inv.typesOf_eq fun x hx => reads₁.uses_eq x ▸ t.live (operands ▸ hx)) ?_
  rintro _ _ ⟨rfl, rfl⟩
  dsimp only
  generalize hb : alignStack (argBytes ((args.map S.graph.tyOf).map ScalarType.regClass)) = bytes
  have outgoing_eq (A : Moment) :
      outgoing (World.callOf S.graph A target args n.ty) = bytes := by
    rw [← hb, ← types_callOf S.graph A target args n.ty, outgoing, List.map_map]
    rfl
  have le : argBytes ((args.map S.graph.tyOf).map ScalarType.regClass) ≤ bytes :=
    hb ▸ le_alignStack _
  have aligned : bytes % 16 = 0 := hb ▸ alignStack_mod _
  have calls (A : Moment) : S.Calls (World.callOf S.graph A target args n.ty) :=
    ⟨id, t.below, args, by rw [t.node, World.callOf, ← kind], types_callOf ..⟩
  have roomy : Roomy S E bytes := fun _ within => by
    have served := within.calls _ (calls ⟨fun _ => none, []⟩)
    exact ⟨outgoing_eq _ ▸ served.room, outgoing_eq _ ▸ served.small⟩
  refine .seq (stage₁.adjust bytes rfl (fun _ within => (roomy _ within).2)
    (.inl ⟨rfl, (Nat.zero_add _).symm⟩)) ?_
  rintro _ σ₂ ⟨coded₂, stage₂⟩
  have stage₂ : Stage S E σ₀ p₀ D σ₂ R (.calling bytes) := stage₂
  have cleared₂ : Cleared σ₂ := by
    obtain ⟨asm, rfl⟩ := coded₂.same
    exact cleared
  have reads₂ : Reads τ σ₂ [] := reads₁.trans coded₂.reads
  have movable : ∀ pl ∈ placeArgs args (args.map S.graph.tyOf), Movable S D σ₂ bytes pl :=
    fun pl hpl => t.movable operands reads₂.uses_eq le hpl
  refine .seq (Block.storeStackArgs stage₂.inv roomy movable nodup_placeArgs) ?_
  intro _ σ₃ block₃
  refine .seq (block₃.moveRegisterArgs cleared₂ movable nodup_placeArgs) ?_
  intro _ σ₄ block₄
  have apart : Apart bytes (· ∈ placeArgs args (args.map S.graph.tyOf)) (.register .scratch) := by
    refine fun pl hpl => ⟨(movable pl hpl).suits, fun he => ?_⟩
    have suits := (movable pl hpl).suits
    rw [he] at suits
    exact (valid_of_mem_argRegs suits).2.2.2.1 rfl
  refine .seq (block₄.loadTarget apart target) ?_
  intro _ σ₅ block₅
  refine .seq (stage₂.callOut id block₅ cleared₂ outgoing_eq le aligned calls) ?_
  rintro _ σ₆ ⟨coded₆, stage₆⟩
  have hret := valid_returnReg n.ty.regClass
  refine .seq (stage₆.adjust 0 (Pose.known_learn_of_ne hret.2.1.symm)
    (fun _ within => (roomy _ within).2) (.inr ⟨rfl, (Nat.zero_add _).symm⟩)) ?_
  rintro _ σ₇ ⟨coded₇, stage₇⟩
  have reads₇ : Reads τ σ₇ [] :=
    (reads₂.trans coded₆.reads).trans coded₇.reads
  refine .seq (Stage.consumeAll rfl args stage₇ fun x => ?_) ?_
  · rw [reads₇.uses_eq]
    exact operands ▸ t.uses x
  rintro _ σ₈ ⟨reads₈, stage₈⟩
  have free : σ₈.regs.owner (returnReg n.ty.regClass) = none :=
    stage₂.inv.owner_none_of_grows stage₈.inv
      ((coded₆.grows.trans coded₇.grows).trans reads₈.grows) hret.1.1
      (cleared₂ _ hret.1.1 hret.2.2) rfl fun _ hx hD => absurd hx hD
  refine .seq (stage₈.take hret.1.1 free (mem_budgeted_of_ample (first_returnReg _)) .temp) ?_
  rintro _ σ₉ ⟨reads₉, -, -, stage₉⟩
  refine .seq (stage₉.normalize hret.1 Pose.held_hand (Pose.known_learn (P := Replied n.ty))) ?_
  rintro _ σ₁₀ ⟨coded₁₀, stage₁₀⟩
  refine .seq stage₁₀.noteCall ?_
  rintro _ _ ⟨rfl, stage₁₁⟩
  have reads : Reads τ σ₁₀ n.operands := by
    simpa [operands] using ((reads₇.trans reads₈).trans reads₉).trans coded₁₀.reads
  refine .bind (.of_modify ?_)
  refine (t.finish (reads.counted kind) (stage₁₁.count _) (goes_call kind) hret.1 Pose.held_hand
    (Pose.known_learn (P := fun A w => ∃ w₀, Replied n.ty A w₀ ∧ n.ty.view w = n.ty.settle w₀))
    (fun A w hw => ?_) (forget_temporary rfl rfl rfl)).mono
    (fun _ σ' took => ⟨τ, hτ, took⟩) fun _ _ he => he
  obtain ⟨w₀, ⟨e, rest, events, settled⟩, hw⟩ := hw
  exact ⟨e, rest, events, by rw [hw, settled]⟩

end NativeExpr.Lowering
