import NativeExpr.Lowering.Function
import NativeExpr.Proofs.Convention
import NativeExpr.Proofs.Lowering.Turn

/-!
# Binding parameters

The arguments come in where the convention puts them. A register that may be handed
out is claimed before anything moves, so an incoming word stays as it is until its
parameter gets a place. Afterwards the tables know the canonical value of every
parameter that is read.
-/
namespace NativeExpr

open Lowering X64 Convention

/-! ## Words of parameters -/

namespace World

variable (ω : World) (g : Graph)

def paramWord (x : NodeId) : Option Word :=
  match g.node? x with
  | some ⟨.parameter i, ty⟩ => some (ty.settle (ω.param i))
  | _ => none

def enter (D : Finset NodeId) (m : Moment) : Moment :=
  { m with found := fun x => if x ∈ D then ω.paramWord g x else m.found x }

variable {ω : World} {g : Graph} {D : Finset NodeId} {x : NodeId} {w : Word} {m : Moment}

theorem enter_empty : ω.enter g ∅ m = m := by
  simp [enter]

theorem found_enter_of_mem (h : x ∈ D) : (ω.enter g D m).found x = ω.paramWord g x := if_pos h

theorem find_enter (h : ω.paramWord g x = some w) :
    (ω.enter g D m).find x w = ω.enter g (insert x D) m := by
  unfold enter Moment.find
  congr 1
  funext y
  by_cases hy : y = x
  · rw [if_pos hy, if_pos (hy ▸ Finset.mem_insert_self ..), hy, h]
  · rw [if_neg hy]
    exact if_congr (by rw [Finset.mem_insert, or_iff_right hy]) rfl rfl

end World

namespace Lowering

variable {S : Setting} {E : Env} {σ₀ σ σ' : State} {p : Pose} {D : Finset NodeId}
variable {x y : Incoming} {r : Reg} {o : Nat} {all : List Incoming}

def Setting.locations (S : Setting) : List ArgLocation :=
  argLocations (S.graph.paramTypes.map ScalarType.regClass)

/-- The raw argument at a place when the body begins. -/
def Env.incoming (E : Env) : ArgLocation → Word
  | .register r => E.start.named r
  | .stack offset => E.pushed offset

/-- Whether the arguments are where the convention puts them. -/
def Given (S : Setting) (E : Env) : Prop :=
  ∀ i l, S.locations[i]? = some l → E.incoming l = E.world.param i

/-- What is known of a parameter that is read. -/
structure Enters (S : Setting) (x : Incoming) : Prop where
  index : ∃ i : Nat, S.graph.params[i]? = some x.id ∧ S.locations[i]? = some x.location
  ty : x.ty = S.graph.tyOf x.id

theorem mem_incoming (w : S.graph.WellFormed) {values : ValueTable}
    (h : x ∈ incoming S.graph values) : Enters S x ∧ 0 < (values.entry x.id).usesLeft := by
  obtain ⟨listed, alive⟩ := List.mem_filter.1 h
  obtain ⟨⟨id, ty, l⟩, mem, rfl⟩ := List.mem_map.1 listed
  obtain ⟨i, hi⟩ := List.mem_iff_getElem?.1 mem
  obtain ⟨hid, hrest⟩ := List.getElem?_zip_eq_some.1 hi
  obtain ⟨hty, hl⟩ := List.getElem?_zip_eq_some.1 hrest
  rw [w.paramTypes_eq, List.getElem?_map, hid] at hty
  refine ⟨⟨⟨i, hid, hl⟩, (Option.some.inj hty).symm⟩, Nat.pos_of_ne_zero fun dead => ?_⟩
  simp [Assignment.isDead, dead] at alive

theorem exists_incoming (w : S.graph.WellFormed) {values : ValueTable} {id : NodeId} {i : Nat}
    (hid : S.graph.params[i]? = some id) (live : 0 < (values.entry id).usesLeft) :
    ∃ x ∈ incoming S.graph values, x.id = id := by
  have bound : i < S.locations.length := by
    rw [Setting.locations, length_argLocations, List.length_map, w.paramTypes_eq, List.length_map]
    exact (List.getElem?_eq_some_iff.1 hid).1
  refine ⟨⟨id, S.graph.tyOf id, S.locations[i]⟩, List.mem_filter.2 ⟨List.mem_map.2
    ⟨(id, S.graph.tyOf id, S.locations[i]), List.mem_iff_getElem?.2 ⟨i, ?_⟩, rfl⟩, ?_⟩, rfl⟩
  · refine List.getElem?_zip_eq_some.2 ⟨hid, List.getElem?_zip_eq_some.2 ⟨?_, ?_⟩⟩
    · rw [w.paramTypes_eq, List.getElem?_map, hid]
      rfl
    · exact List.getElem?_eq_getElem bound
  · simp [Assignment.isDead, Nat.pos_iff_ne_zero.1 live]

theorem nodup_params {g : Graph} (w : g.WellFormed) : g.params.Nodup := by
  refine List.pairwise_iff_getElem.2 fun i j hi hj lt same => ?_
  obtain ⟨ty, hn⟩ := w.bound (List.getElem?_eq_getElem hi)
  obtain ⟨ty', hn'⟩ := w.bound (List.getElem?_eq_getElem hj)
  rw [same, hn'] at hn
  cases hn
  exact Nat.lt_irrefl _ lt

theorem nodup_incoming {g : Graph} (w : g.WellFormed) {values : ValueTable} :
    ((incoming g values).map Incoming.id).Nodup := by
  have ids : ((g.params.zip (g.paramTypes.zip
      (argLocations (g.paramTypes.map ScalarType.regClass)))).map fun x =>
        Incoming.mk x.1 x.2.1 x.2.2).map Incoming.id = g.params := by
    rw [List.map_map]
    refine (List.map_fst_zip ?_).trans rfl
    rw [List.length_zip, length_argLocations, List.length_map, Nat.min_self, w.paramTypes_eq,
      List.length_map]
  have sub := (List.filter_sublist (p := fun x : Incoming => !(values.entry x.id).isDead)
    (l := (g.params.zip (g.paramTypes.zip
      (argLocations (g.paramTypes.map ScalarType.regClass)))).map fun x =>
        Incoming.mk x.1 x.2.1 x.2.2)).map Incoming.id
  rw [ids] at sub
  exact sub.nodup (nodup_params w)

namespace Enters

variable (h : Enters S x)
include h

theorem node (w : S.graph.WellFormed) {i : Nat} (hi : S.graph.params[i]? = some x.id) :
    S.graph.node? x.id = some ⟨.parameter i, x.ty⟩ := by
  obtain ⟨ty, hn⟩ := w.bound hi
  rw [h.ty, (Graph.hasType_of_node? hn).tyOf_eq, hn]

theorem paramWord (w : S.graph.WellFormed) (given : Given S E) :
    E.world.paramWord S.graph x.id = some (x.ty.settle (E.incoming x.location)) := by
  obtain ⟨i, hid, hl⟩ := h.index
  rw [World.paramWord, h.node w hid, given i _ hl]

theorem id_eq (h' : Enters S y) (same : x.location = y.location) :
    x.id = y.id := by
  obtain ⟨i, hid, hl⟩ := h.index
  obtain ⟨j, hid', hl'⟩ := h'.index
  have bound : i < S.locations.length := (List.getElem?_eq_some_iff.1 hl).1
  have eq : i = j := (List.getElem?_inj bound (nodup_argLocations _)).1 (by
    rw [hl, hl', same])
  rw [eq, hid'] at hid
  exact (Option.some.inj hid).symm

theorem suits (w : S.graph.WellFormed) :
    Suits (argBytes (S.graph.paramTypes.map ScalarType.regClass)) x.ty.regClass x.location := by
  obtain ⟨i, hid, hl⟩ := h.index
  have all := suits_argLocations (S.graph.paramTypes.map ScalarType.regClass)
  have hc : (S.graph.paramTypes.map ScalarType.regClass)[i]? = some x.ty.regClass := by
    rw [w.paramTypes_eq, List.map_map, List.getElem?_map, hid, h.ty]
    rfl
  obtain ⟨lt, hc⟩ := List.getElem?_eq_some_iff.1 hc
  obtain ⟨lt', hl⟩ := List.getElem?_eq_some_iff.1 hl
  have own := all.get lt lt'
  rw [List.get_eq_getElem, List.get_eq_getElem, hc] at own
  exact hl ▸ own

theorem register (w : S.graph.WellFormed) (hl : x.location = .register r) :
    r ∈ argRegs x.ty.regClass := by
  have := h.suits w
  rwa [hl] at this

theorem stack (hl : x.location = .stack o) : stackArgOffset o ∈ S.incomingOffsets := by
  obtain ⟨i, -, hi⟩ := h.index
  exact List.mem_filterMap.2 ⟨.stack o, List.mem_iff_getElem?.2 ⟨i, hl ▸ hi⟩, rfl⟩

end Enters

/-! ## Between two parameters -/

/-- What is known when the body begins: the words in the argument registers. -/
def Pose.entry (E : Env) : Pose :=
  { Pose.idle with known := fun r =>
      if r ∈ argRegs .general ++ argRegs .float then some fun _ w => w = E.start.named r else none }

def Pose.drop (p : Pose) (r : Reg) : Pose :=
  { p with known := fun q => if q = r then none else p.known q }

/-- Some parameters have their places, and the words of the others are where they came in. -/
structure Binding (S : Setting) (E : Env) (σ₀ : State) (all : List Incoming) (D : Finset NodeId)
    (σ : State) (p : Pose) : Prop where
  stage : Stage S E σ₀ (Pose.entry E) D σ (fun m o => o = .ok (E.world.enter S.graph D m)) p
  reads : Reads σ₀ σ []
  held : p.held = fun _ => none
  locks : p.locks = fun _ => 0
  lowered : p.lowered = 0
  flags : ∀ A f, p.flags A f
  raw : ∀ q P, p.known q = some P → P = fun _ w => w = E.start.named q
  waiting : ∀ x ∈ all, x.id ∉ D → ∀ r, x.location = .register r →
    p.known r ≠ none ∧ σ.regs.owner r = none

namespace Binding

variable (h : Binding S E σ₀ all D σ p)
include h

theorem known {x : Incoming} (hx : x ∈ all) (hD : x.id ∉ D) (hl : x.location = .register r) :
    p.known r = some fun _ w => w = E.start.named r := by
  obtain ⟨P, hP⟩ := Option.ne_none_iff_exists'.1 (h.waiting x hx hD r hl).1
  rw [hP, h.raw r P hP]

theorem solid : p.Solid := fun q owner hq => by
  rw [h.held] at hq
  cases hq

theorem room (c : RegClass) : Room S p c :=
  room_of_few [] (by cases c <;> decide) fun q _ busy => by
    rw [h.held, h.locks] at busy
    exact (busy.elim (fun ne => ne rfl) fun ne => ne rfl).elim

theorem live (hx : 0 < σ₀.uses x.id) : 0 < σ.uses x.id := h.reads.uses_eq x.id ▸ hx

/-- A parameter gets a register that is held for it and has its word. -/
theorem settle (given : Given S E) (w : S.graph.WellFormed) (enters : Enters S x)
    (live : 0 < σ₀.uses x.id) (fresh : x.id ∉ D) {τ : State} {q : Pose}
    (stage : Stage S E σ₀ (Pose.entry E) D τ (fun m o => o = .ok (E.world.enter S.graph D m)) q)
    (reads : Reads σ τ []) (hr : r.Of x.ty.regClass)
    (held : q.held = (p.hand r (some (.value x.id))).held) (locks : q.locks = p.locks)
    (lowered : q.lowered = p.lowered)
    {P : Moment → Word → Prop} (known : q.known r = some P)
    (word : ∀ A u, P A u → x.ty.view u = x.ty.settle (E.incoming x.location))
    (others : ∀ i, i ≠ r → q.known i = p.known i)
    (waiting : ∀ y ∈ all, y.id ∉ insert x.id D → ∀ i, y.location = .register i →
      i ≠ r ∧ τ.regs.owner i = none) :
    Generates S (setStorage x.id (.register r)) τ fun _ σ' =>
      (∃ p', Binding S E σ₀ all (insert x.id D) σ' p') ∧ Grows σ σ' := by
  refine yields_setStorage ?_
  have own : q.held r = some (.value x.id) := held ▸ Pose.held_hand
  have word' (A u) (hu : P A u) :
      (S.graph.tyOf x.id).view u = x.ty.settle (E.incoming x.location) :=
    enters.ty ▸ word A u hu
  have lasting : Lasting q (p.drop r) := by
    intro i P' hi
    dsimp only [Pose.drop] at hi
    split at hi
    · cases hi
    · next ne =>
      rw [others i ne, h.raw i P' hi]
      exact ⟨h.raw i P' hi ▸ hi, fun _ _ _ hw => hw⟩
  have back : (p.drop r).held = (q.hand r none).held := by
    funext i
    show p.held i = if i = r then none else q.held i
    rw [held, h.held]
    by_cases hi : i = r
    · rw [if_pos hi]
    · rw [if_neg hi, Pose.held_hand_of_ne hi, h.held]
  obtain ⟨reads', stage'⟩ := stage.settle (p.drop r) fresh (reads.uses_eq x.id ▸ h.live live)
    (enters.ty ▸ hr) own known (stage.inv.handed_self hr.1 own)
    (f := fun A o => o = .ok (A.find x.id (x.ty.settle (E.incoming x.location))))
    (fun A u hu => by rw [word' A u hu]) back locks.symm lowered.symm (fun A f => h.flags A f)
    lasting
  refine ⟨⟨p.drop r, stage'.mono fun m o ho => ?_, (h.reads.trans reads).trans reads', h.held,
    h.locks, h.lowered, h.flags, fun i P' hi => ?_, fun y hy hD i hl => ?_⟩,
    reads.grows.trans reads'.grows⟩
  · rcases ho with ⟨m', hm', ho⟩ | ⟨e, he, -⟩
    · cases hm'
      rw [ho, World.find_enter (enters.paramWord w given)]
    · cases he
  · dsimp only [Pose.drop] at hi
    split at hi
    · cases hi
    · exact h.raw i P' hi
  · obtain ⟨ne, free⟩ := waiting y hy hD i hl
    refine ⟨?_, free⟩
    dsimp only [Pose.drop]
    rw [if_neg ne]
    exact (h.waiting y hy (fun hm => hD (Finset.mem_insert_of_mem hm)) i hl).1

end Binding

/-- The place may be noted before or after the word is made canonical. -/
theorem generates_swap {id : NodeId} {pl : Storage} {ty : ScalarType} {post : Unit → State → Prop}
    (h : Generates S (do
      normalize r ty
      setStorage id pl) σ post) :
    Generates S (do
      setStorage id pl
      normalize r ty) σ post := by
  unfold normalize at h ⊢
  cases hk : extension ty with
  | none =>
    rw [hk] at h
    exact h
  | some kind =>
    rw [hk] at h
    obtain ⟨asm, regs, values, frame, stats, journal⟩ := σ
    unfold Generates Yields setStorage modifyValues at h ⊢
    dsimp only [bind, modify, modifyGet, MonadStateOf.modifyGet] at h ⊢
    unfold EStateM.bind EStateM.modifyGet emit at h ⊢
    dsimp only at h ⊢
    cases hm : Assembler.extend kind r r asm with
    | ok a asm' =>
      rw [hm] at h
      exact h
    | error e asm' =>
      rw [hm] at h
      exact h

/-! ## The three passes -/

theorem mem_budgeted_iff (regular : σ.regs.Regular S.budget) (hr : r.Valid) :
    σ.regs.isAllocatable r = true ↔ r ∈ budgeted S.budget r.regClass :=
  regular.allocatable_iff hr

theorem of_mem_argRegs {c : RegClass} (h : r ∈ argRegs c) : r.Of c := by
  revert h r
  cases c <;> decide

theorem Stage.copyReg {p₀ : Pose} {R : Course} {q : Reg} (h : Stage S E σ₀ p₀ D σ R p)
    {ty : ScalarType} (hr : r.Of ty.regClass) (hq : q.Of ty.regClass) (writable : Writable σ r)
    {P : Moment → Word → Prop} (known : p.known q = some P) :
    Generates S (Lowering.copyTo r ty (.reg q)) σ fun _ σ' =>
      Coded σ σ' ∧ Stage S E σ₀ p₀ D σ' R (p.learn r P) := by
  unfold Lowering.copyTo
  cases hp : ty.precision? with
  | none =>
    have hc := ScalarType.regClass_of_no_precision hp
    exact h.assign writable (Machine.performs_mov (hc ▸ hr)
      (show (Operand.reg q).Ready .general from hc ▸ hq))
      fun _ _ _ _ hm => hm.known known
  | some prec =>
    have hc := ScalarType.regClass_of_precision hp
    exact h.assign writable
      (Machine.performs_movFloat prec (hc ▸ hr)
        (show (Operand.reg q).Ready .float from hc ▸ hq))
      fun _ _ _ _ hm => hm.known known

theorem Stage.noteStackParams {p₀ : Pose} {R : Course} (h : Stage S E σ₀ p₀ D σ R p) :
    Reads σ { σ with frame.usesStackParams := true } [] ∧
      Stage S E σ₀ p₀ D { σ with frame.usesStackParams := true } R p := by
  have grows : Grows σ { σ with frame.usesStackParams := true } :=
    ⟨⟨[], .refl⟩, .refl, Nat.le_refl _, fun _ => rfl, (·), fun _ => (·), fun _ => Nat.le_refl _,
      fun _ _ _ => .inl rfl, List.suffix_rfl, fun _ => rfl⟩
  have inv : Inv S D { σ with frame.usesStackParams := true } p :=
    { h.inv with stack := fun hs => (h.inv.stack hs).imp_right fun hs => ⟨hs.1, rfl⟩ }
  exact ⟨.of_eq grows (fun _ => rfl) rfl, h.tables inv grows rfl fun _ _ _ _ hm =>
    hm.congr (fun _ _ hu hpl => ⟨hu, hpl⟩) (fun _ => (·)) (fun _ _ hk => hk) rfl fun _ hf => hf⟩

theorem load_prefix (m : Memory) (a : Word) (kind : Extension) :
    m.load a (Machine.extensionSize kind) =
      ((m.load a 8).setWidth (8 * Machine.extensionSize kind)).setWidth 64 := by
  apply BitVec.eq_of_toNat_eq
  cases kind <;>
    simp only [Machine.extensionSize, Memory.load, Memory.bytes, List.range, List.range.loop,
      List.map, leNat, BitVec.toNat_ofNat, BitVec.toNat_setWidth] <;>
    omega

namespace Binding

variable (h : Binding S E σ₀ all D σ p) (given : Given S E) (w : S.graph.WellFormed)
variable (enters : ∀ y ∈ all, Enters S y) (hx : x ∈ all) (live : 0 < σ₀.uses x.id)
variable (fresh : x.id ∉ D)

section
include h given w enters hx live fresh

theorem claim (hl : x.location = .register r) (mem : r ∈ budgeted S.budget r.regClass) :
    Generates S (do
      onRegs (RegisterFile.take r (.value x.id))
      setStorage x.id (.register r)
      normalize r x.ty) σ fun _ σ' =>
        (∃ p', Binding S E σ₀ all (insert x.id D) σ' p') ∧ Grows σ σ' := by
  have hr : r.Of x.ty.regClass := of_mem_argRegs ((enters x hx).register w hl)
  refine .seq (h.stage.take hr.1 (h.waiting x hx fresh r hl).2 (fun _ => mem) _) ?_
  rintro _ σ₁ ⟨reads, owners, -, stage₁⟩
  refine generates_swap (.seq (stage₁.normalize hr Pose.held_hand (h.known hx fresh hl)) ?_)
  rintro _ σ₂ ⟨coded, stage₂⟩
  refine h.settle given w (enters x hx) live fresh stage₂ (reads.trans coded.reads) hr rfl rfl rfl
    Pose.known_learn ?_ (fun i hi => Pose.known_learn_of_ne hi) fun y hy hD i hi => ?_
  · rintro A u ⟨_, rfl, hu⟩
    rw [hu, hl]
    rfl
  · have ne : i ≠ r := fun he => hD (by
      rw [(enters y hy).id_eq (enters x hx) (by rw [hi, hl, he])]
      exact Finset.mem_insert_self ..)
    have hi' : i.Valid := (of_mem_argRegs ((enters y hy).register w hi)).1
    refine ⟨ne, ?_⟩
    obtain ⟨asm, rfl⟩ := coded.same
    show σ₁.regs.owner i = none
    rw [owners hi', if_neg ne]
    exact (h.waiting y hy (fun hm => hD (Finset.mem_insert_of_mem hm)) i hi).2

theorem leave (hl : x.location = .stack o) (wide : extension x.ty = none)
    (frame : σ.frame.usesStackParams = true) :
    Generates S (setStorage x.id (.stack (stackArgOffset o))) σ fun _ σ' =>
      (∃ p', Binding S E σ₀ all (insert x.id D) σ' p') ∧ Grows σ σ' := by
  have mem := (enters x hx).stack hl
  have lasting : Lasting p p := fun i P hi => ⟨hi, fun _ _ _ hw => by
    rw [h.raw i P hi] at hw ⊢
    exact hw⟩
  refine yields_setStorage ?_
  have housed : Housed S σ p x.id (.stack (stackArgOffset o)) σ.regs p :=
    h.stage.inv.housed_aside nofun (fun _ he => by cases he; exact ⟨mem, frame⟩) nofun rfl rfl
  obtain ⟨reads, stage⟩ := h.stage.place p fresh (h.live live) housed rfl h.flags lasting
    (f := fun A o => o = .ok (A.find x.id (x.ty.settle (E.incoming x.location))))
    fun sound within A c hm => by
      rw [← (enters x hx).ty, settle_of_no_extension wide, hl]
      have incoming := within.incoming frame _ mem
      have same : content E.stack c.state (.stack (stackArgOffset o)) = E.incoming (.stack o) :=
        (Memory.load_congr fun i hi =>
          hm.kept _ (sound.stack.incoming_kept _ incoming i hi)).trans (sound.pushed o incoming)
      rw [same]
  refine ⟨⟨p, stage.mono fun m out ho => ?_, h.reads.trans reads, h.held, h.locks, h.lowered,
    h.flags, h.raw, fun y hy hD i hi =>
      h.waiting y hy (fun hm => hD (Finset.mem_insert_of_mem hm)) i hi⟩, reads.grows⟩
  rcases ho with ⟨m', hm', ho⟩ | ⟨e, he, -⟩
  · cases hm'
    rw [ho, World.find_enter ((enters x hx).paramWord w given)]
  · cases he

/-- A parameter is moved to a register that may be handed out. -/
theorem move (hl : x.location = .register r)
    (before : ∀ y ∈ all, ∀ i, y.location = .register i →
      i ∈ budgeted S.budget i.regClass → y.id ∈ D) :
    Generates S (do
      let q ← alloc x.ty.regClass (.value x.id) none
      copyTo q x.ty (.reg r)
      normalize q x.ty
      setStorage x.id (.register q)) σ fun _ σ' =>
        (∃ p', Binding S E σ₀ all (insert x.id D) σ' p') ∧ Grows σ σ' := by
  have hr : r.Of x.ty.regClass := of_mem_argRegs ((enters x hx).register w hl)
  refine .seq (h.stage.alloc h.solid (h.room _) (.value x.id) none) ?_
  rintro q σ₁ ⟨free, reads₁, stage₁⟩
  refine .seq (stage₁.copyReg free.of hr (stage₁.inv.writable free.of.1 Pose.held_hand)
    (h.known hx fresh hl)) ?_
  rintro _ σ₂ ⟨coded₂, stage₂⟩
  refine .seq (stage₂.normalize free.of Pose.held_hand Pose.known_learn) ?_
  rintro _ σ₃ ⟨coded₃, stage₃⟩
  refine h.settle given w (enters x hx) live fresh stage₃
    ((reads₁.trans coded₂.reads).trans coded₃.reads) free.of rfl rfl rfl Pose.known_learn ?_
    (fun i hi => ?_) fun y hy hD i hi => ?_
  · rintro A u ⟨_, rfl, hu⟩
    rw [hu, hl]
    rfl
  · rw [Pose.known_learn_of_ne hi, Pose.known_learn_of_ne hi]
    rfl
  · have hi' : i.Valid := (of_mem_argRegs ((enters y hy).register w hi)).1
    have outside : i ∉ budgeted S.budget i.regClass := fun hm =>
      hD (Finset.mem_insert_of_mem (before y hy i hi hm))
    refine ⟨?_, Classical.byContradiction fun owned => outside
      (stage₃.inv.regular.owned_mem hi' owned)⟩
    rintro rfl
    exact outside (free.of.2 ▸ free.mem)

theorem widen (hl : x.location = .stack o) {kind : Extension} (narrow : extension x.ty = some kind)
    (frame : σ.frame.usesStackParams = true)
    (before : ∀ y ∈ all, ∀ i, y.location = .register i → y.id ∈ D) :
    Generates S (do
      let q ← alloc .general (.value x.id) none
      emit (Assembler.load (some kind) q (.frame (stackArgOffset o)))
      setStorage x.id (.register q)) σ fun _ σ' =>
        (∃ p', Binding S E σ₀ all (insert x.id D) σ' p') ∧ Grows σ σ' := by
  have mem := (enters x hx).stack hl
  have hc := (settle_of_extension narrow 0).2
  refine .seq (h.stage.alloc h.solid (h.room _) (.value x.id) none) ?_
  rintro q σ₁ ⟨free, reads₁, stage₁⟩
  have address : (Mem.frame (stackArgOffset o)).Ready := Mem.ready_baseDisp (by decide) _
  refine .seq (stage₁.assign (stage₁.inv.writable free.of.1 Pose.held_hand)
    (Machine.performs_loadNarrow kind free.of address)
    (P := fun _ u => u = x.ty.settle (E.incoming x.location)) fun sound within A c hm => ?_) ?_
  · have incoming := within.incoming (reads₁.grows.stackParams frame) _ mem
    have same : c.state.memory.load (E.stack.cell (stackArgOffset o)) 8 = E.incoming (.stack o) :=
      (Memory.load_congr fun i hi =>
        hm.kept _ (sound.stack.incoming_kept _ incoming i hi)).trans (sound.pushed o incoming)
    rw [hm.memAddress_frame (sound.stack.near _ (.inr incoming)), load_prefix, same,
      Machine.widen_low, (settle_of_extension narrow _).1, hl]
  rintro _ σ₂ ⟨coded₂, stage₂⟩
  refine h.settle given w (enters x hx) live fresh stage₂ (reads₁.trans coded₂.reads)
    (hc.symm ▸ free.of) rfl rfl rfl Pose.known_learn (fun A u hu => ?_)
    (fun i hi => Pose.known_learn_of_ne hi) fun y hy hD i hi => ?_
  · rw [hu, ScalarType.view_of_general hc]
  · exact absurd (Finset.mem_insert_of_mem (before y hy i hi)) hD

end

end Binding

/-- Whether a parameter can stay where it comes in. -/
def stays (S : Setting) (x : Incoming) : Bool :=
  match x.location with
  | .register r => decide (r ∈ budgeted S.budget r.regClass)
  | .stack _ => (extension x.ty).isNone

def onStack (x : Incoming) : Bool :=
  match x.location with
  | .register _ => false
  | .stack _ => true

/-- The nodes that have their places after a pass over parameters that binds some of them. -/
def passed (takes : Incoming → Bool) : List Incoming → Finset NodeId → Finset NodeId
  | [], D => D
  | x :: xs, D => passed takes xs (if takes x = true then insert x.id D else D)

theorem mem_passed {takes : Incoming → Bool} {id : NodeId} :
    id ∈ passed takes all D ↔ id ∈ D ∨ ∃ x ∈ all, takes x = true ∧ x.id = id := by
  induction all generalizing D with
  | nil => simp [passed]
  | cons x xs ih =>
    rw [passed, ih, List.exists_mem_cons_iff]
    cases takes x with
    | false => simp
    | true =>
      rw [if_pos rfl, Finset.mem_insert, eq_comm, eq_self, true_and, or_comm (b := id ∈ D),
        or_assoc]

theorem subset_passed {takes : Incoming → Bool} : D ⊆ passed takes all D :=
  fun _ h => mem_passed.2 (.inl h)

theorem generates_pass {f : Incoming → Lower Unit} (takes : Incoming → Bool)
    (Q : Incoming → State → Prop) (mono : ∀ {x σ σ'}, Q x σ → Grows σ σ' → Q x σ')
    {start : Finset NodeId} {τ : State}
    (step : ∀ x ∈ all, ∀ D σ p, start ⊆ D → Grows τ σ → Binding S E σ₀ all D σ p →
      (takes x = true → x.id ∉ D) → Generates S (f x) σ fun _ σ' =>
        (∃ p', Binding S E σ₀ all (if takes x = true then insert x.id D else D) σ' p') ∧
          Grows σ σ' ∧ Q x σ') :
    ∀ xs : List Incoming, (∀ x ∈ xs, x ∈ all) → (xs.map Incoming.id).Nodup → ∀ D σ p,
      start ⊆ D → Grows τ σ → (∀ x ∈ xs, takes x = true → x.id ∉ D) → Binding S E σ₀ all D σ p →
        Generates S (xs.forM f) σ fun _ σ' =>
          (∃ p', Binding S E σ₀ all (passed takes xs D) σ' p') ∧ Grows σ σ' ∧ ∀ x ∈ xs, Q x σ' := by
  intro xs
  induction xs with
  | nil =>
    exact fun _ _ D σ p _ _ _ bound => .of_pure ⟨⟨p, bound⟩, .refl,
      fun _ h => absurd h List.not_mem_nil⟩
  | cons x xs ih =>
    intro sub nodup D σ p le grows fresh bound
    rw [List.map_cons, List.nodup_cons] at nodup
    refine .seq (step x (sub x (List.mem_cons_self ..)) D σ p le grows bound
      (fresh x (List.mem_cons_self ..))) ?_
    rintro _ σ₁ ⟨⟨p₁, bound₁⟩, grows₁, own⟩
    have le₁ : D ⊆ if takes x = true then insert x.id D else D := by
      split
      · exact Finset.subset_insert ..
      · exact fun _ h => h
    refine (ih (fun y hy => sub y (List.mem_cons_of_mem _ hy)) nodup.2 _ σ₁ p₁ (le.trans le₁)
      (grows.trans grows₁) (fun y hy took hm => ?_) bound₁).mono ?_ fun _ _ he => he
    · split at hm
      · rcases Finset.mem_insert.1 hm with he | hm
        · exact nodup.1 (he ▸ List.mem_map_of_mem hy)
        · exact fresh y (List.mem_cons_of_mem _ hy) took hm
      · exact fresh y (List.mem_cons_of_mem _ hy) took hm
    · rintro _ σ₂ ⟨bound₂, grows₂, rest⟩
      refine ⟨bound₂, grows₁.trans grows₂, fun y hy => ?_⟩
      rcases List.mem_cons.1 hy with rfl | hy
      · exact mono own grows₂
      · exact rest y hy

section

variable (given : Given S E) (w : S.graph.WellFormed) (enters : ∀ y ∈ all, Enters S y)
variable (live : ∀ y ∈ all, 0 < σ₀.uses y.id)
include given w enters live

theorem generates_bindInPlace (h : Binding S E σ₀ all D σ p) (hx : x ∈ all)
    (fresh : stays S x = true → x.id ∉ D) :
    Generates S (bindInPlace x) σ fun _ σ' =>
      (∃ p', Binding S E σ₀ all (if stays S x = true then insert x.id D else D) σ' p') ∧
        Grows σ σ' ∧ ∀ o, x.location = .stack o → σ'.frame.usesStackParams = true := by
  unfold bindInPlace
  unfold stays at fresh ⊢
  cases hl : x.location with
  | register r =>
    rw [hl] at fresh
    dsimp only at fresh ⊢
    have hr := (of_mem_argRegs ((enters x hx).register w hl)).1
    refine .bind (.of_get ?_)
    by_cases mem : r ∈ budgeted S.budget r.regClass
    · rw [if_pos ((mem_budgeted_iff h.stage.inv.regular hr).2 mem), if_pos (decide_eq_true mem)]
      exact (h.claim given w enters hx (live x hx) (fresh (decide_eq_true mem)) hl mem).mono
        (fun _ _ h => ⟨h.1, h.2, fun _ he => by cases he⟩) fun _ _ he => he
    · rw [if_neg fun ha => mem ((mem_budgeted_iff h.stage.inv.regular hr).1 ha),
        if_neg fun hd => mem (of_decide_eq_true hd)]
      exact .of_pure ⟨⟨p, h⟩, .refl, fun _ he => by cases he⟩
  | stack o =>
    rw [hl] at fresh
    dsimp only at fresh ⊢
    obtain ⟨reads, stage⟩ := h.stage.noteStackParams
    have bound : Binding S E σ₀ all D { σ with frame.usesStackParams := true } p :=
      { h with stage := stage, reads := h.reads.trans reads }
    refine .bind (.of_modify ?_)
    cases wide : extension x.ty with
    | none =>
      refine (bound.leave given w enters hx (live x hx) (fresh (by rw [wide]; rfl)) hl wide
        rfl).mono (fun _ _ h => ⟨h.1, reads.grows.trans h.2, fun _ _ => h.2.stackParams rfl⟩)
        fun _ _ he => he
    | some kind => exact .of_pure ⟨⟨p, bound⟩, reads.grows, fun _ _ => rfl⟩

theorem generates_bindMoved (h : Binding S E σ₀ all D σ p) (hx : x ∈ all)
    (before : ∀ y ∈ all, stays S y = true → y.id ∈ D)
    (fresh : (!stays S x && !onStack x) = true → x.id ∉ D) :
    Generates S (bindMoved x) σ fun _ σ' =>
      (∃ p', Binding S E σ₀ all (if (!stays S x && !onStack x) = true
        then insert x.id D else D) σ' p') ∧ Grows σ σ' := by
  unfold bindMoved
  unfold onStack at fresh ⊢
  cases hl : x.location with
  | register r =>
    rw [hl] at fresh
    have hr := (of_mem_argRegs ((enters x hx).register w hl)).1
    have here : stays S x = decide (r ∈ budgeted S.budget r.regClass) := by rw [stays, hl]
    rw [here] at fresh ⊢
    dsimp only at fresh ⊢
    refine .bind (.of_get ?_)
    by_cases mem : r ∈ budgeted S.budget r.regClass
    · rw [if_pos ((mem_budgeted_iff h.stage.inv.regular hr).2 mem), decide_eq_true mem]
      exact .of_pure ⟨⟨p, h⟩, .refl⟩
    · rw [if_neg fun ha => mem ((mem_budgeted_iff h.stage.inv.regular hr).1 ha),
        decide_eq_false mem]
      rw [decide_eq_false mem] at fresh
      refine h.move given w enters hx (live x hx) (fresh rfl) hl fun y hy i hi hm => ?_
      refine before y hy ?_
      rw [stays, hi]
      exact decide_eq_true hm
  | stack o => exact .of_pure ⟨⟨p, by rwa [Bool.not_true, Bool.and_false]⟩, .refl⟩

theorem generates_bindNarrow (h : Binding S E σ₀ all D σ p) (hx : x ∈ all)
    (before : ∀ y ∈ all, onStack y = false → y.id ∈ D)
    (frame : ∀ o, x.location = .stack o → σ.frame.usesStackParams = true)
    (fresh : (!stays S x && onStack x) = true → x.id ∉ D) :
    Generates S (bindNarrow x) σ fun _ σ' =>
      (∃ p', Binding S E σ₀ all (if (!stays S x && onStack x) = true
        then insert x.id D else D) σ' p') ∧ Grows σ σ' := by
  unfold bindNarrow
  unfold onStack at fresh ⊢
  cases hl : x.location with
  | register r => exact .of_pure ⟨⟨p, by rwa [Bool.and_false]⟩, .refl⟩
  | stack o =>
    have here : stays S x = (extension x.ty).isNone := by rw [stays, hl]
    rw [hl, here] at fresh
    rw [here]
    cases narrow : extension x.ty with
    | none => exact .of_pure ⟨⟨p, h⟩, .refl⟩
    | some kind =>
      rw [narrow] at fresh
      refine h.widen given w enters hx (live x hx) (fresh rfl) hl narrow (frame o hl)
        fun y hy i hi => before y hy ?_
      rw [onStack, hi]

end

/-- When the body begins no parameter has its place, and none of their registers is taken. -/
theorem Binding.start (w : S.graph.WellFormed) (enters : ∀ y ∈ all, Enters S y)
    (inv : Inv S ∅ σ₀ (Pose.entry E)) (free : ∀ r, σ₀.regs.owner r = none) :
    Binding S E σ₀ all ∅ σ₀ (Pose.entry E) := by
  refine ⟨(Stage.refl inv).mono fun m o ho => ?_, .refl, rfl, rfl, rfl, fun _ _ => trivial,
    fun q P hq => ?_, fun x hx _ r hl => ⟨?_, free r⟩⟩
  · rw [World.enter_empty]
    exact ho
  · dsimp only [Pose.entry] at hq
    split at hq
    · exact (Option.some.inj hq).symm
    · cases hq
  · have mem := (enters x hx).register w hl
    dsimp only [Pose.entry]
    rw [if_pos]
    · exact Option.some_ne_none _
    · rw [List.mem_append]
      cases hc : x.ty.regClass with
      | general => exact .inl (hc ▸ mem)
      | float => exact .inr (hc ▸ mem)

theorem generates_bindParameters (given : Given S E) (w : S.graph.WellFormed)
    (inv : Inv S ∅ σ₀ (Pose.entry E)) (free : ∀ r, σ₀.regs.owner r = none) :
    Generates S (bindParameters S.ctx) σ₀ fun _ σ' => ∃ D p,
      Binding S E σ₀ (incoming S.graph σ₀.values) D σ' p ∧
        ∀ y, y ∈ D ↔ ∃ x ∈ incoming S.graph σ₀.values, x.id = y := by
  unfold bindParameters
  refine .bind (.of_get ?_)
  generalize hall : incoming S.ctx.graph σ₀.values = all
  have known (y) (hy : y ∈ all) : Enters S y ∧ 0 < σ₀.uses y.id := mem_incoming w (hall ▸ hy)
  have enters (y) (hy : y ∈ all) := (known y hy).1
  have live (y) (hy : y ∈ all) := (known y hy).2
  have nodup : (all.map Incoming.id).Nodup := hall ▸ nodup_incoming w
  have once {x y : Incoming} (hx : x ∈ all) (hy : y ∈ all) (same : x.id = y.id) : x = y :=
    List.inj_on_of_nodup_map nodup hx hy same
  -- First those that stay where they are, then those in registers, then those on the stack.
  refine .seq (generates_pass (stays S)
    (fun x σ => ∀ o, x.location = .stack o → σ.frame.usesStackParams = true)
    (fun h grows o hl => grows.stackParams (h o hl))
    (fun x hx D σ p _ _ bound fresh => generates_bindInPlace given w enters live bound hx fresh)
    all (fun _ hx => hx) nodup ∅ σ₀ _ (fun _ h => h) .refl
    (fun _ _ _ => Finset.notMem_empty _) (.start w enters inv free)) ?_
  rintro _ σ₁ ⟨⟨p₁, bound₁⟩, -, frame₁⟩
  have other₁ (x) (hx : x ∈ all) (moves : stays S x = false) : x.id ∉ passed (stays S) all ∅ := by
    intro hm
    obtain ⟨y, hy, took, same⟩ := (mem_passed.1 hm).resolve_left (Finset.notMem_empty _)
    rw [once hy hx same, moves] at took
    cases took
  refine .seq (generates_pass (fun x => !stays S x && !onStack x) (fun _ _ => True)
    (fun _ _ => trivial)
    (fun x hx D σ p le _ bound fresh => (generates_bindMoved given w enters live bound hx
      (fun y hy took => le (mem_passed.2 (.inr ⟨y, hy, took, rfl⟩))) fresh).mono
        (fun _ _ h => ⟨h.1, h.2, trivial⟩) fun _ _ he => he)
    all (fun _ hx => hx) nodup _ σ₁ p₁ (fun _ h => h) .refl (fun x hx took => ?_) bound₁) ?_
  · rw [Bool.and_eq_true, Bool.not_eq_true'] at took
    exact other₁ x hx took.1
  rintro _ σ₂ ⟨⟨p₂, bound₂⟩, grows₂, -⟩
  have registers (y) (hy : y ∈ all) (off : onStack y = false) :
      y.id ∈ passed (fun x => !stays S x && !onStack x) all (passed (stays S) all ∅) := by
    cases hs : stays S y with
    | true => exact subset_passed (mem_passed.2 (.inr ⟨y, hy, hs, rfl⟩))
    | false => exact mem_passed.2 (.inr ⟨y, hy, by rw [hs, off]; rfl, rfl⟩)
  refine (generates_pass (fun x => !stays S x && onStack x) (fun _ _ => True)
    (fun _ _ => trivial)
    (fun x hx D σ p le grows bound fresh => (generates_bindNarrow given w enters live bound hx
      (fun y hy off => le (registers y hy off))
      (fun o hl => grows.stackParams (grows₂.stackParams (frame₁ x hx o hl))) fresh).mono
        (fun _ _ h => ⟨h.1, h.2, trivial⟩) fun _ _ he => he)
    all (fun _ hx => hx) nodup _ σ₂ p₂ (fun _ h => h) .refl (fun x hx took hm => ?_) bound₂).mono
    ?_ fun _ _ he => he
  · rw [Bool.and_eq_true, Bool.not_eq_true'] at took
    rcases mem_passed.1 hm with hm | ⟨y, hy, took', same⟩
    · exact other₁ x hx took.1 hm
    · rw [once hy hx same, took.2, Bool.not_true, Bool.and_false] at took'
      cases took'
  · rintro _ σ₃ ⟨⟨p₃, bound₃⟩, -⟩
    refine ⟨_, p₃, bound₃, fun y => ⟨fun hy => ?_, ?_⟩⟩
    · rw [mem_passed, mem_passed, mem_passed] at hy
      rcases hy with ((hy | ⟨x, hx, -, he⟩) | ⟨x, hx, -, he⟩) | ⟨x, hx, -, he⟩
      · exact absurd hy (Finset.notMem_empty _)
      · exact ⟨x, hx, he⟩
      · exact ⟨x, hx, he⟩
      · exact ⟨x, hx, he⟩
    · rintro ⟨x, hx, rfl⟩
      cases off : onStack x with
      | false => exact subset_passed (registers x hx off)
      | true =>
        cases hs : stays S x with
        | true => exact subset_passed (subset_passed (mem_passed.2 (.inr ⟨x, hx, hs, rfl⟩)))
        | false => exact mem_passed.2 (.inr ⟨x, hx, by rw [hs, off]; rfl, rfl⟩)

end Lowering

end NativeExpr
