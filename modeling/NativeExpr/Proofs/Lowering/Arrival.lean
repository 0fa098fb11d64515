import NativeExpr.Proofs.Lowering.Entered
import NativeExpr.Proofs.Lowering.Lockstep

/-!
# The arrival of arguments

The code that binds parameters stands behind the prologue of a frame that has room for its
spill slots. When it has run, every parameter that is read has a place, and the place holds
the canonical value of the argument, wherever the convention has put it. This holds for any
number of reads and any budget of registers: an argument whose register is never handed out
is moved when those that can stay have been claimed, and what is evicted for it is spilled.
-/
namespace NativeExpr

open X64 Machine

/-! ## Code without branches -/

/-- Instructions leave nothing to be patched. -/
instance : Assembler.Steady fun a => a.buffer.pending = #[] where
  emit _ _ unbranched _ _ := unbranched

theorem Lowering.unbranched_bindParameters {ctx : Context} {σ₀ σ : State}
    (start : σ₀.buffer.pending = #[]) (bound : bindParameters ctx σ₀ = .ok () σ) :
    σ.buffer.pending = #[] := by
  have step := (inStep_bindParameters (I := fun a => a.buffer.pending = #[]) (.refl ctx)).at_
    σ₀ σ₀ (.refl start)
  obtain ⟨u, _, _, ⟨twin, -⟩, rfl, -⟩ := step.of_ok σ₀.asm.buffer.capacity bound
  exact twin.assembled

/-! ## In front of a body -/

namespace Frame

def emitFront (f : Frame) : Asm Unit := if f.isNeeded then f.emitPrologue else pure ()

theorem yields_emitFront {f : Frame} {a : Assembler} (keeps : f.Keeps) (ha : a.residue = []) :
    Yields f.emitFront a
      (fun _ a' => Straight a a' (fun L s => f.isNeeded = true → f.Opens L s) f.Enters)
      fun e _ => e.IsOverflow := by
  unfold emitFront Enters
  split
  · next needed =>
    apply (yields_emitPrologue keeps ha).mono
    · intro _ a' opened
      exact opened.imp (fun _ _ hp => hp needed) fun _ _ _ _ h => h
    · exact fun _ _ he => he
  · exact .of_pure (.refl ha fun _ => rfl)

/-- A frame has room for what was asked for so far. -/
structure Hosts (f asked : Frame) : Prop where
  keeps : f.Keeps
  small : f.size < 2147483648
  spills : asked.spillSlots ≤ f.spillSlots
  stackParams : asked.usesStackParams = true → f.usesStackParams = true

theorem Hosts.bare {f asked : Frame} (hosts : f.Hosts asked) (bare : f.isNeeded = false) :
    asked.spillSlots = 0 ∧ asked.usesStackParams = false := by
  rw [isNeeded, Bool.or_eq_false_iff, Bool.or_eq_false_iff, Bool.or_eq_false_iff,
    decide_eq_false_iff_not] at bare
  obtain ⟨⟨⟨spills, -⟩, -⟩, params⟩ := bare
  constructor
  · have le := hosts.spills
    omega
  · rw [Bool.eq_false_iff]
    intro used
    rw [hosts.stackParams used] at params
    cases params

/-- Code begins with what stands in front of a body, so many bytes, and goes on with the body. -/
structure Fronts (f : Frame) (body code : Array Byte) (front : Nat) : Prop where
  parts : ∃ capacity a rest, f.emitFront (.new capacity) = .ok () a ∧ a.buffer.size = front ∧
    code.toList = a.buffer.bytes.toList ++ (body.toList ++ rest)

theorem Fronts.leads {f : Frame} {body code : Array Byte} {front : Nat} {h : Host} {s₀ : State}
    (fronts : f.Fronts body code front) (keeps : f.Keeps) (small : f.size < 2147483648)
    (loaded : Loaded h code s₀) : ∃ n c, Steps h code n ⟨[], s₀⟩ c ∧ c.entered = [] ∧
      c.state.pc = h.base + BitVec.ofNat 64 front ∧ f.Enters s₀ c.state := by
  obtain ⟨capacity, a, rest, emitted, size, split⟩ := fronts.parts
  have entering := (yields_emitFront (a := .new capacity) keeps rfl).ok emitted
  obtain ⟨is, written⟩ := entering.written
  let L : Site := ⟨h, code, 0, a.buffer, fun _ _ => True, fun _ => True⟩
  have sound : L.Sound := ⟨⟨⟨a.buffer.bytes, 0⟩, [], body.toList ++ rest,
    CodeBuffer.finalize_of_instrs written, split, rfl⟩, loaded.room, loaded.clear⟩
  have start : L.Covers (Assembler.new capacity).buffer := ⟨⟨capacity, [], .refl⟩, _, written⟩
  have done : L.Covers a.buffer := ⟨⟨capacity, _, written⟩, [], .refl⟩
  have begins : L.At 0 ⟨[], s₀⟩ := loaded.pc.trans (BitVec.add_zero _).symm
  have opens (s : State) : f.Opens L s :=
    ⟨small, fun _ _ _ _ => trivial, fun _ _ _ => trivial, fun _ _ _ _ _ _ => trivial⟩
  obtain ⟨n, c, walk, -, at_, fresh, enters⟩ :=
    entering.leads L sound start done ⟨[], s₀⟩ begins fun _ => opens s₀
  have pc : c.state.pc = h.base + BitVec.ofNat 64 front := by
    rw [← size, at_, Site.address, Nat.zero_add]
  exact ⟨n, c, walk.steps, fresh, pc, enters⟩

end Frame

/-! ## The parameters alone -/

namespace Graph

variable {g : Graph}

theorem countUses_of_unused {opens : NodeId → Nat → Bool} (closed : ∀ id, opens id 0 = false)
    {uses : Array Nat} (unused : ∀ id, uses.getD id 0 = 0) (bound : Nat) :
    g.countUses opens bound uses = uses := by
  induction bound with
  | zero => rfl
  | succ id ih => rwa [countUses, unused, closed, if_neg Bool.false_ne_true]

theorem below_size (g : Graph) : g.below g.size = ∅ := by
  have none : addUses (Array.replicate g.size 0) [g.size] = Array.replicate g.size 0 := by
    rw [addUses, List.foldl_cons, List.foldl_nil]
    apply Array.ext
    · simp
    · intro id inside _
      have ne : g.size ≠ id := by
        simp at inside
        omega
      simp [Array.getElem_modify, ne]
  have unused (id : NodeId) : (Array.replicate g.size 0).getD id 0 = 0 := by
    by_cases lt : id < g.size <;> simp [Array.getD_eq_getD_getElem?, lt]
  rw [below, Finset.filter_eq_empty_iff]
  intro id _ live
  rw [reachableUses, none, countUses_of_unused (fun _ => rfl) unused, unused] at live
  exact Nat.lt_irrefl _ live

theorem not_calls_size {k : Call} : ¬ g.Calls g.size k := by
  rintro ⟨id, hid, -⟩
  rw [below_size] at hid
  exact Finset.notMem_empty _ hid

theorem callRoom_size (g : Graph) : g.callRoom g.size = 0 := by
  rw [callRoom, below_size]
  rfl

end Graph

/-- Surroundings of which nothing is known but the arguments of a function. -/
def World.bearing (g : Graph) (s₀ : State) : World where
  param i :=
    (((Convention.argLocations (g.paramTypes.map ScalarType.regClass))[i]?).map s₀.argument).getD 0
  reply _ _ _ := True
  view _ := s₀.memory
  heap _ := false

theorem Graph.entered_bearing {g : Graph} {h : Host} {code : Array Byte} {s₀ : State}
    (loaded : Loaded h code s₀) (frameSize : Nat) :
    g.Entered (.bearing g s₀) h (fun _ _ => True) g.size ⟨code, frameSize, 0, 0⟩ s₀ where
  loaded := loaded
  params i l hl := by simp [World.bearing, hl]
  heap _ known := by cases known
  apart _ known := by cases known
  serves _ made := absurd made not_calls_size

namespace Lowering

open Convention

variable {g : Graph} {root : NodeId} {o : Options} {uses : Array Nat} {σ : State} {c : Config}
variable {s₀ : Machine.State}

/-- Every parameter that is read has a storage, and in a state of the machine the storage holds
the canonical value of the argument that was there at the entry. -/
def State.HoldsArguments (σ : State) (g : Graph) (uses : Array Nat) (s₀ s : Machine.State) : Prop :=
  ∀ (i : Nat) id ty l, g.params[i]? = some id → g.paramTypes[i]? = some ty →
    (argLocations (g.paramTypes.map ScalarType.regClass))[i]? = some l → 0 < uses.getD id 0 →
      ∃ place, σ.place id = some place ∧ ty.view (place.word s) = ty.settle (s₀.argument l)

theorem Binding.leads {E : Env} {D : Finset NodeId} {p : Pose}
    (binding : Binding (.of g root o) E (.counting uses o)
      (incoming g (State.counting uses o).values) D σ p)
    (mem : ∀ y, y ∈ D ↔ ∃ x ∈ incoming g (State.counting uses o).values, x.id = y)
    (w : g.WellFormed) (sound : E.Sound) (within : Within (.of g root o) E σ)
    (params : ∀ i l, (Setting.of g root o).locations[i]? = some l → s₀.argument l = E.world.param i)
    (at_ : E.site.At 0 c)
    (start : Matches g E ⟨fun _ => none, []⟩ (.counting uses o) (Pose.entry E) c) :
    E.site.Leads 0 σ.offset c fun c' =>
      c'.entered = [] ∧ σ.HoldsArguments g uses s₀ c'.state := by
  obtain ⟨_, rfl, ends⟩ := binding.stage.run sound within _ c at_ start
  have ends : E.site.Leads 0 σ.offset c fun c' =>
    Matches g E (E.world.enter g D ⟨fun _ => none, []⟩) σ p c' := ends
  apply ends.mono
  intro c' there
  constructor
  · have log : Logged _ _ c'.entered [] := there.log
    generalize c'.entered = called at log ⊢
    cases log
    rfl
  intro i id ty l hid hty hl read
  have live : 0 < σ.uses id := by
    rw [binding.reads.uses_eq, State.uses, entry_counting]
    exact read
  have unread : 0 < ((State.counting uses o).values.entry id).usesLeft := by rwa [entry_counting]
  obtain ⟨x, hx, same⟩ := exists_incoming (S := .of g root o) w hid unread
  have done : id ∈ D := (mem id).2 ⟨x, hx, same⟩
  obtain ⟨place, placed⟩ := binding.stage.inv.placed done live
  use place, placed.place
  obtain ⟨ty', node⟩ := w.bound hid
  have type : g.tyOf id = ty' := (Graph.hasType_of_node? node).tyOf_eq
  rw [w.paramTypes_eq, List.getElem?_map, hid] at hty
  have hty : g.tyOf id = ty := Option.some.inj hty
  have found := there.values live placed.place
  rw [World.found_enter_of_mem done, World.paramWord, node, content_eq there.bp, type] at found
  rw [params i l hl, ← hty, type]
  exact (Option.some.inj found).symm

/-- Surroundings of a body that may do everything and has to leave nothing alone. -/
structure Env.Free (E : Env) (σ : State) : Prop where
  permits : ∀ s i, E.site.permits s i
  watch : ∀ c, E.site.watch c
  spared : ∀ r, ¬ E.spared r
  journal : E.journal = σ.journal
  body : E.site.body = σ.buffer

theorem Env.Free.all {E : Env} (free : E.Free σ) : E.Permits where
  quiet _ _ := free.permits _ _
  slot _ _ _ _ := free.permits _ _
  outgoing _ _ _ _ _ _ := free.permits _ _
  call _ _ _ _ := free.permits _ _

section

variable (w : g.WellFormed) (counts : uses.size = g.size)
  (bound : bindParameters ⟨g, g.size, o.fuseCompares⟩ (.counting uses o) = .ok () σ)
include w counts bound

/-- The code that binds parameters runs to its end, and then the storages hold the arguments. -/
theorem leads_bindParameters {E : Env} (free : E.Free σ) (sound : E.Sound)
    (spills : σ.frame.spillSlots ≤ E.stack.spills)
    (listed : σ.frame.usesStackParams = true →
      ∀ i ∈ (Setting.of g g.size o).incomingOffsets, i ∈ E.stack.incoming)
    (given : Given (.of g g.size o) E)
    (params : ∀ i l, (Setting.of g g.size o).locations[i]? = some l →
      s₀.argument l = E.world.param i) (at_ : E.site.At 0 c)
    (start : Matches g E ⟨fun _ => none, []⟩ (.counting uses o) (Pose.entry E) c) :
    E.site.Leads 0 σ.offset c fun c' =>
      c'.entered = [] ∧ σ.HoldsArguments g uses s₀ c'.state := by
  obtain ⟨D, p, binding, mem⟩ := (generates_bindParameters given w (inv_counting counts)
    fun r => RegisterFile.owner_new ..).ok bound
  have within : Within (.of g g.size o) E σ := by
    constructor
    case code => exact ⟨binding.stage.inv.begun, [], free.body ▸ .refl⟩
    case spills => exact spills
    case incoming => exact listed
    case calls => exact fun _ made => absurd made Graph.not_calls_size
    case spared => exact fun r spared => absurd spared (free.spared r)
    case journal => exact fun _ noted => free.journal ▸ noted
    case watch => exact fun _ _ _ _ _ _ => free.watch _
  exact binding.leads mem w sound within params at_ start

variable {f : Frame} {h : Host} {code : Array Byte} {L : Site} (hosts : f.Hosts σ.frame)
  (loaded : Machine.Loaded h code s₀) (site : L.Sound) (body : L.body = σ.buffer)
  (permits : ∀ s i, L.permits s i) (watch : ∀ c, L.watch c) (at_ : L.At 0 c)
  (fresh : c.entered = [])
include hosts loaded site body permits watch at_ fresh

theorem arrives_framed (reach : g.paramRoom + 16 < 2147483648) (opened : f.Opened s₀ c.state) :
    L.Leads 0 σ.offset c fun c' => c'.entered = [] ∧ σ.HoldsArguments g uses s₀ c'.state := by
  have entered := Graph.entered_bearing (g := g) loaded f.size
  let E := surroundings (.bearing g s₀) L σ.journal (f.stack s₀ (World.bearing g s₀).heap
    (Setting.of g g.size o).incomingOffsets g.paramRoom (g.callRoom g.size)) s₀ c.state
    (fun _ => False) fun _ _ => True
  have free : E.Free σ := ⟨permits, watch, fun _ => not_false, rfl, body⟩
  have compact : g.Compact g.size ⟨code, f.size, 0, 0⟩ :=
    ⟨hosts.small, Graph.callRoom_size g ▸ Nat.zero_le _, reach⟩
  have sound : E.Sound := sound_framed site free.all compact entered rfl opened
  have start : Matches g E ⟨fun _ => none, []⟩ (.counting uses o) (Pose.entry E) c :=
    matches_counting fresh rfl opened.sp opened.bp fun _ known => by cases known
  exact leads_bindParameters w counts bound free sound hosts.spills (fun _ _ listed => listed)
    (given_surroundings entered opened.named) entered.params at_ start

theorem arrives_bare (bare : f.isNeeded = false) (start : c.state = s₀) :
    L.Leads 0 σ.offset c fun c' => c'.entered = [] ∧ σ.HoldsArguments g uses s₀ c'.state := by
  obtain ⟨spills, unused⟩ := hosts.bare bare
  have entered := Graph.entered_bearing (g := g) loaded f.size
  let E := surroundings (.bearing g s₀) L σ.journal (bareStack s₀ (World.bearing g s₀).heap) s₀ s₀
    (fun _ => False) fun _ _ => True
  have free : E.Free σ := ⟨permits, watch, fun _ => not_false, rfl, body⟩
  have sound : E.Sound := sound_bare site free.all
  have listed : σ.frame.usesStackParams = true →
      ∀ i ∈ (Setting.of g g.size o).incomingOffsets, i ∈ E.stack.incoming := by
    intro used
    rw [unused] at used
    cases used
  have start : Matches g E ⟨fun _ => none, []⟩ (.counting uses o) (Pose.entry E) c :=
    matches_counting fresh start.symm (congrArg (Machine.State.named · .rsp) start)
      (congrArg (Machine.State.named · .rbp) start) fun _ known => by cases known
  exact leads_bindParameters w counts bound free sound (Nat.le_of_eq spills) listed
    (given_surroundings entered fun _ _ _ _ => rfl) entered.params at_ start

end

end Lowering

namespace Graph

open Lowering

/-- Arguments arrive. Behind the prologue of a frame that has room for what binding the parameters
asks for, the code that binds them, which has no branches, runs straight to its end. From every
entry of the function it brings every parameter that is read to a storage that holds the canonical
value of its argument, whatever the number of parameters, the reads and the registers to hand out.
The frame and the stack arguments are addressed by 32 bits, so they have to be within their
reach. -/
theorem arguments_arrive {ctx : Context} {uses : Array Nat} {o : Options} {σ : Lowering.State}
    {f : Frame} {h : Host} {code : Array Byte} {front : Nat} {s₀ : Machine.State}
    (built : ctx.graph.Built) (counts : uses.size = ctx.graph.size)
    (bound : bindParameters ctx (.counting uses o) = .ok () σ) (hosts : f.Hosts σ.frame)
    (fronts : f.Fronts σ.asm.buffer.bytes code front)
    (reach : ctx.graph.paramRoom + 16 < 2147483648) (loaded : Machine.Loaded h code s₀) :
    σ.asm.finalize = .ok ⟨σ.asm.buffer.bytes, 0⟩ ∧
      ∃ n c, Steps h code n ⟨[], s₀⟩ c ∧ c.entered = [] ∧
        c.state.pc = h.base + BitVec.ofNat 64 (front + σ.offset) ∧
        σ.HoldsArguments ctx.graph uses s₀ c.state := by
  have w := built.wellFormed
  have finished := CodeBuffer.finalize_of_unbranched (unbranched_bindParameters rfl bound)
  use finished
  obtain ⟨n, c, entering, fresh, pc, enters⟩ := fronts.leads hosts.keeps hosts.small loaded
  obtain ⟨capacity, a, rest, -, size, split⟩ := fronts.parts
  let L : Site := ⟨h, code, front, σ.buffer, fun _ _ => True, fun _ => True⟩
  have site : L.Sound := ⟨⟨_, a.buffer.bytes.toList, rest, finished, split, size⟩, loaded.room,
    loaded.clear⟩
  have arrives : L.Leads 0 σ.offset c fun c' =>
      c'.entered = [] ∧ σ.HoldsArguments ctx.graph uses s₀ c'.state := by
    unfold Frame.Enters at enters
    split at enters
    · exact arrives_framed w counts bound hosts loaded site rfl (fun _ _ => trivial)
        (fun _ => trivial) pc fresh reach enters
    · next bare =>
      exact arrives_bare w counts bound hosts loaded site rfl (fun _ _ => trivial)
        (fun _ => trivial) pc fresh (Bool.eq_false_iff.2 bare) enters
  obtain ⟨m, c', binding, -, at_, called, holds⟩ := arrives
  exact ⟨n + m, c', entering.trans binding.steps, called, at_, holds⟩

/-- Seven parameters, the last of them on the stack. -/
def crowded : Graph where
  nodes := #[⟨.parameter 0, .i8⟩, ⟨.parameter 1, .i64⟩, ⟨.parameter 2, .i64⟩, ⟨.parameter 3, .i64⟩,
    ⟨.parameter 4, .i64⟩, ⟨.parameter 5, .u16⟩, ⟨.parameter 6, .i16⟩]
  params := [0, 1, 2, 3, 4, 5, 6]
  parents := #[0, 0, 0, 0, 0, 0, 0]

theorem built_crowded : crowded.Built := by
  obtain ⟨_, d, started, same⟩ :=
    exists_of_succeeds (m := Builder.start [.i8, .i64, .i64, .i64, .i64, .u16, .i16])
      (s := ⟨roomy, .empty⟩) (p := fun _ d => decide (d.graph = crowded)) (by decide +kernel)
  rw [← of_decide_eq_true same]
  exact .start started

/-- All parameters but two are read, with two general registers to hand out. -/
def crowdedStart : Lowering.State := .counting #[1, 0, 1, 2, 0, 1, 1] ⟨256, 2, 2, true⟩

/-- An entry with narrow arguments below bits that do not count. -/
def crowdedEntry : Machine.State :=
  entryState (fun _ => 0) [.i8, .i64, .i64, .i64, .i64, .u16, .i16]
    [0xffff000000000080, 1, 2, 3, 4, 5, 0xffff000000008000]

/-- The first argument is moved out of its register and then spilled, and the last one is loaded. -/
theorem arguments_arrive_crowded : ∃ a σ n c,
    Frame.emitFront ⟨3, [], false, true⟩ (.new 64) = .ok () a ∧
    bindParameters ⟨crowded, 0, true⟩ crowdedStart = .ok () σ ∧
    Steps (Environment.host fun _ => none) (a.buffer.bytes ++ σ.asm.buffer.bytes ++ #[0xC3]) n
      ⟨[], crowdedEntry⟩ c ∧
    σ.place 0 = some (.stack (-8)) ∧ (Storage.stack (-8)).word c.state = -128 ∧
    σ.place 6 = some (.register .rax) ∧ c.state.named .rax = -32768 := by
  obtain ⟨_, a, front, sized⟩ :=
    exists_of_succeeds (m := Frame.emitFront ⟨3, [], false, true⟩) (s := .new 64)
      (p := fun _ a => decide (a.buffer.bytes.size = 8)) (by decide +kernel)
  obtain ⟨_, σ, bound, found⟩ :=
    exists_of_succeeds (m := bindParameters ⟨crowded, 0, true⟩) (s := crowdedStart)
      (p := fun _ σ => decide (σ.frame.spillSlots = 3 ∧ σ.buffer.bytes.size = 33 ∧
        σ.place 0 = some (.stack (-8)) ∧ σ.place 6 = some (.register .rax))) (by decide +kernel)
  obtain ⟨spills, size, first, last⟩ := of_decide_eq_true found
  have sized := of_decide_eq_true sized
  have hosts : Frame.Hosts ⟨3, [], false, true⟩ σ.frame :=
    ⟨⟨fun _ h => absurd h List.not_mem_nil, .nil⟩, by decide, Nat.le_of_eq spills, fun _ => rfl⟩
  have fronts : Frame.Fronts ⟨3, [], false, true⟩ σ.asm.buffer.bytes
      (a.buffer.bytes ++ σ.asm.buffer.bytes ++ #[0xC3]) 8 :=
    ⟨64, a, [0xC3], front, sized, by simp⟩
  have loaded : Machine.Loaded (Environment.host fun _ => none)
      (a.buffer.bytes ++ σ.asm.buffer.bytes ++ #[0xC3]) crowdedEntry := by
    refine loaded_entryState rfl (by decide) ?_ fun _ _ => rfl
    rw [Array.size_append, Array.size_append, sized, show σ.asm.buffer.bytes.size = 33 from size]
    decide
  obtain ⟨-, n, c, steps, -, -, holds⟩ :=
    arguments_arrive built_crowded rfl bound hosts fronts (by decide +kernel) loaded
  obtain ⟨place, placed, narrow⟩ := holds 0 0 .i8 (.register .rdi) rfl rfl rfl (by decide)
  obtain ⟨place', placed', pushed⟩ := holds 6 6 .i16 (.stack 0) rfl rfl rfl (by decide)
  cases first.symm.trans placed
  cases last.symm.trans placed'
  have extended : ScalarType.i8.settle (crowdedEntry.argument (.register .rdi)) = -128 := by
    decide +kernel
  have loaded : ScalarType.i16.settle (crowdedEntry.argument (.stack 0)) = -32768 := by
    decide +kernel
  exact ⟨a, σ, n, c, front, bound, steps, first, narrow.trans extended, last, pushed.trans loaded⟩

end Graph

end NativeExpr
