import NativeExpr.Proofs.Lowering.Crossing

/-!
# The invariant of lowering

At every point of lowering the tables describe the machine that has run the code
so far. `Inv` says how the tables fit together: a register has one owner, a live
value one place, a spill slot one value. `Matches` says what the machine holds: in
the place of every live value the word that the schedule found for it, in held
registers what is known of them, and memory as the world shows it.

A `Stage` is a point of lowering that is reached from an earlier one. Its code
leads every machine that matched the earlier point to one that matches this one,
with what it finds on the way, and carries out permitted instructions only.
-/
namespace NativeExpr

open X64

/-- Whether a call is one of a node that a root needs. -/
def Graph.Calls (g : Graph) (root : NodeId) (k : Call) : Prop :=
  ∃ id ∈ g.below root, ∃ args, g.node? id = some ⟨.call k.target args, k.ret⟩ ∧
    k.args.map Value.ty = args.map g.tyOf

namespace Lowering

namespace State

variable (σ : State)

def uses (x : NodeId) : Nat := (σ.values.entry x).usesLeft

def place (x : NodeId) : Option Storage := (σ.values.entry x).storage

def slot (x : NodeId) : Option Int := (σ.values.entry x).spillSlot

def buffer : CodeBuffer := σ.asm.buffer

def offset : Nat := σ.asm.buffer.size

end State

/-- What is known at a point of lowering besides the tables. -/
structure Pose where
  /-- The owners of registers that are held by temporaries or set aside for a value. -/
  held : Reg → Option Owner
  /-- What is known of registers, given what has been found. -/
  known : Reg → Option (Moment → Word → Prop)
  locks : Reg → Nat
  /-- How far the stack pointer is lowered for outgoing arguments. -/
  lowered : Nat
  flags : Moment → Machine.Flags → Prop

namespace Pose

def idle : Pose := ⟨fun _ => none, fun _ => none, fun _ => 0, 0, fun _ _ => True⟩

variable (p : Pose) (r : Reg)

def setFlags (flags : Moment → Machine.Flags → Prop) : Pose := { p with flags }

def learn (known : Moment → Word → Prop) : Pose :=
  { p with known := fun q => if q = r then some known else p.known q }

/-- Something else is known of a register, and nothing of the flags. -/
def write (known : Moment → Word → Prop) : Pose := (p.learn r known).setFlags fun _ _ => True

/-- A register is held for another owner, or for none any more. -/
def hand (owner : Option Owner) : Pose :=
  { p with held := fun q => if q = r then owner else p.held q }

theorem hand_none {p : Pose} {r : Reg} (h : p.held r = none) : p.hand r none = p := by
  have same : (fun q => if q = r then none else p.held q) = p.held := by
    funext q
    split
    · next he => rw [he, h]
    · rfl
  rw [hand, same]

@[simp] theorem known_learn {p : Pose} {r : Reg} {P : Moment → Word → Prop} :
    (p.learn r P).known r = some P := if_pos rfl

theorem known_learn_of_ne {p : Pose} {q r : Reg} {P : Moment → Word → Prop} (h : q ≠ r) :
    (p.learn r P).known q = p.known q := if_neg h

@[simp] theorem held_hand {p : Pose} {r : Reg} {owner : Option Owner} :
    (p.hand r owner).held r = owner := if_pos rfl

theorem held_hand_of_ne {p : Pose} {q r : Reg} {owner : Option Owner} (h : q ≠ r) :
    (p.hand r owner).held q = p.held q := if_neg h

theorem learn_learn {p : Pose} {r : Reg} {P Q : Moment → Word → Prop} :
    (p.learn r P).learn r Q = p.learn r Q := by
  have same : (fun q => if q = r then some Q else if q = r then some P else p.known q) =
      fun q => if q = r then some Q else p.known q := by
    funext q
    split <;> rfl
  simp only [learn, same]

theorem hand_hand {p : Pose} {r : Reg} {a b : Option Owner} :
    (p.hand r a).hand r b = p.hand r b := by
  have same : (fun q => if q = r then b else if q = r then a else p.held q) =
      fun q => if q = r then b else p.held q := by
    funext q
    split <;> rfl
  simp only [hand, same]

theorem hand_comm {p : Pose} {q r : Reg} {a b : Option Owner} (h : q ≠ r) :
    (p.hand q a).hand r b = (p.hand r b).hand q a := by
  have same : (fun i => if i = r then b else if i = q then a else p.held i) =
      fun i => if i = q then a else if i = r then b else p.held i := by
    funext i
    by_cases hi : i = r
    · rw [if_pos hi, if_neg (hi ▸ h.symm), if_pos hi]
    · rw [if_neg hi, if_neg hi]
  simp only [hand, same]

/-- One more lock is on a register, if there is one. -/
def lock (r : Option Reg) : Pose :=
  { p with locks := fun q => if r = some q then p.locks q + 1 else p.locks q }

def forget : Pose := { p with known := fun _ => none, flags := fun _ _ => True }

/-- A pose that knows the same of the registers that are held. -/
structure Beside (p p' : Pose) : Prop where
  held : p'.held = p.held
  locks : p'.locks = p.locks
  lowered : p'.lowered = p.lowered
  known : ∀ q owner, p.held q = some owner → p'.known q = p.known q

theorem beside_learn {p : Pose} {r : Reg} {P : Moment → Word → Prop} (h : p.held r = none) :
    p.Beside (p.learn r P) :=
  ⟨rfl, rfl, rfl, fun q owner hq => known_learn_of_ne fun he => by
    rw [he, h] at hq
    cases hq⟩

/-- Whether only temporaries are held. -/
def Solid : Prop := ∀ q owner, p.held q = some owner → owner = .temp

end Pose

/-- What is fixed while a function is generated. -/
structure Setting where
  ctx : Context
  budget : ByClass Nat

namespace Setting

abbrev graph (S : Setting) : Graph := S.ctx.graph

/-- The budgets with which registers never run out. -/
def Ample (S : Setting) : Prop := 4 ≤ S.budget.general ∧ 2 ≤ S.budget.float

/-- Offsets of the stack arguments from the frame pointer. -/
def incomingOffsets (S : Setting) : List Int :=
  (Convention.argLocations (S.graph.paramTypes.map ScalarType.regClass)).filterMap fun
    | .register _ => none
    | .stack offset => some (stackArgOffset offset)

/-- Whether a call is one that the function may make. -/
abbrev Calls (S : Setting) (k : Call) : Prop := S.graph.Calls S.ctx.root k

end Setting

/-- Whether there is native code for a node. -/
def Expressible (g : Graph) (x : NodeId) : Prop :=
  ∀ n, g.node? x = some n →
    match n.kind with
    | .arith .rem _ _ => n.ty.isFloat = false
    | .cast v => (g.tyOf v).lacksConversion n.ty = false
    | _ => True

theorem expressible_iff {g : Graph} {x : NodeId} {n : Node} (hn : g.node? x = some n) :
    Expressible g x ↔
      match n.kind with
      | .arith .rem _ _ => n.ty.isFloat = false
      | .cast v => (g.tyOf v).lacksConversion n.ty = false
      | _ => True := by
  refine ⟨fun h => h n hn, fun h m hm => ?_⟩
  rw [hn] at hm
  cases hm
  exact h

/-- Whether all that is in a journal is sound, and code branches where branches are noted. -/
structure Tells (g : Graph) (root : NodeId) (journal : List Note) (b : CodeBuffer) : Prop where
  sound : Clean g root journal
  branches : ∀ {s start branch}, .forked s start branch ∈ journal → b.BranchesAt branch.offset

/-! ## What is counted -/

/-- What has been counted. -/
structure Tally where
  nodes : Nat
  fused : Nat
  conditionals : Nat
  calls : Nat
  branches : Nat
  /-- Whether a call was made. -/
  calling : Bool
  generatedNodes : List NodeId
  fusedNodes : List NodeId

namespace State

variable (σ : State)

/-- Whether the journal tells of the code so far. -/
abbrev Clean (g : Graph) (root : NodeId) : Prop := Tells g root σ.journal σ.buffer

/-- The reads of a value so far, whichever arms they were made in. -/
def readsOf (x : NodeId) : Nat := (σ.journal.filterMap Note.read?).count x

def tally : Tally where
  nodes := σ.stats.nodes
  fused := σ.stats.fused
  conditionals := σ.stats.conditionals
  calls := σ.stats.calls
  branches := σ.asm.buffer.pending.size
  calling := σ.frame.makesCalls
  generatedNodes := σ.journal.filterMap Note.generated?
  fusedNodes := σ.journal.filterMap Note.fused?

end State

/-- The errors of lowering that are not excluded. -/
def Permitted (S : Setting) : CompileError → Prop
  | .bufferOverflow .. => True
  | .registerAllocation _ => ¬ S.Ample
  | .unsupported _ => ∃ x ∈ S.graph.below S.ctx.root, ¬ Expressible S.graph x
  | _ => False

theorem permitted_of_overflow {S : Setting} {e : CompileError} (h : e.IsOverflow) :
    Permitted S e := by
  cases e with
  | bufferOverflow => trivial
  | _ => cases h

/-! ## The tables -/

/-- How the tables fit together when the nodes of `D` are done. -/
structure Inv (S : Setting) (D : Finset NodeId) (σ : State) (p : Pose) : Prop where
  size : σ.values.size = S.graph.size
  regular : σ.regs.Regular S.budget
  locks : ∀ {r}, r.Valid → σ.regs.lockCount r = p.locks r
  held : ∀ {r owner}, r.Valid → p.held r = some owner → σ.regs.owner r = some owner
  temp : ∀ {r}, r.Valid → σ.regs.owner r = some .temp → p.held r = some .temp
  owned : ∀ {r x}, r.Valid → p.held r = none →
    (σ.regs.owner r = some (.value x) ↔ σ.place x = some (.register r) ∧ 0 < σ.uses x)
  notHeld : ∀ {x r}, σ.place x = some (.register r) → 0 < σ.uses x → p.held r = none
  register : ∀ {x r}, σ.place x = some (.register r) → 0 < σ.uses x →
    r.Of (S.graph.tyOf x).regClass
  done : ∀ {x}, x ∈ D → 0 < σ.uses x → σ.place x ≠ none
  notDone : ∀ {x}, x ∉ D → σ.place x = none
  stack : ∀ {x o}, σ.place x = some (.stack o) →
    σ.slot x = some o ∨ o ∈ S.incomingOffsets ∧ σ.frame.usesStackParams = true
  constant : ∀ {x v}, σ.place x = some (.immediate v) → 0 < σ.uses x →
    (S.graph.tyOf x).isFloat = false ∧ (v.setWidth 32).signExtend 64 = v
  slot_eq : ∀ {x o}, σ.slot x = some o → ∃ j < σ.frame.spillSlots, o = -8 * (j + 1 : Nat)
  slot_inj : ∀ {x y o}, σ.slot x = some o → σ.slot y = some o → x = y
  knownValid : ∀ {r P}, p.known r = some P → r.Valid
  saved : σ.frame.saved = []
  residue : σ.asm.residue = []
  begun : ∃ capacity its, CodeBuffer.Written (.new capacity) σ.buffer its
  clean : σ.Clean S.graph S.ctx.root

/-- Whether the place of a value is as it was, or its slot instead of a register. -/
def Moved (σ σ' : State) (x : NodeId) : Prop :=
  σ'.place x = σ.place x ∨ ∃ r o, σ.place x = some (.register r) ∧ σ'.place x = some (.stack o)

/-- What only grows while code is generated. -/
structure Grows (σ σ' : State) : Prop where
  written : ∃ its, σ.buffer.Written σ'.buffer its
  balanced : σ.buffer.Balanced σ'.buffer
  spills : σ.frame.spillSlots ≤ σ'.frame.spillSlots
  stackParams : σ.frame.usesStackParams = true → σ'.frame.usesStackParams = true
  calls : σ.frame.makesCalls = true → σ'.frame.makesCalls = true
  touched : ∀ r, σ.regs.touched.contains r = true → σ'.regs.touched.contains r = true
  uses_le : ∀ x, σ'.uses x ≤ σ.uses x
  moved : ∀ x, 0 < σ'.uses x → σ.place x ≠ none → Moved σ σ' x
  journal : σ.journal <:+ σ'.journal
  reads : ∀ x, σ'.uses x + σ'.readsOf x = σ.uses x + σ.readsOf x

theorem Moved.trans {σ σ' σ'' : State} {x : NodeId} (h : Moved σ σ' x) (h' : Moved σ' σ'' x) :
    Moved σ σ'' x := by
  rcases h with h | ⟨r, o, hr, ho⟩
  · rcases h' with h' | ⟨r, o, hr, ho⟩
    · exact .inl (h'.trans h)
    · exact .inr ⟨r, o, h ▸ hr, ho⟩
  · rcases h' with h' | ⟨r', o', hr', -⟩
    · exact .inr ⟨r, o, hr, h'.trans ho⟩
    · rw [ho] at hr'
      cases hr'

theorem Moved.place_ne_none {σ σ' : State} {x : NodeId} (h : Moved σ σ' x)
    (hp : σ.place x ≠ none) : σ'.place x ≠ none := by
  rcases h with h | ⟨r, o, -, ho⟩
  · rwa [h]
  · rw [ho]
    exact Option.some_ne_none _

theorem Grows.refl {σ : State} : Grows σ σ :=
  ⟨⟨[], .refl⟩, .refl, Nat.le_refl _, id, id, fun _ => id, fun _ => Nat.le_refl _,
    fun _ _ _ => .inl rfl, List.suffix_rfl, fun _ => rfl⟩

/-- The reads to come and those made so far are as before if the table and the journal are. -/
theorem reads_of_eq {σ σ' : State} (uses : ∀ x, σ'.uses x = σ.uses x)
    (journal : σ'.journal = σ.journal) (x : NodeId) :
    σ'.uses x + σ'.readsOf x = σ.uses x + σ.readsOf x := by
  rw [uses, State.readsOf, journal]
  rfl

theorem Grows.trans {σ σ' σ'' : State} (h : Grows σ σ') (h' : Grows σ' σ'') : Grows σ σ'' := by
  obtain ⟨its, hw⟩ := h.written
  obtain ⟨its', hw'⟩ := h'.written
  refine ⟨⟨its ++ its', hw.trans hw'⟩, h.balanced.trans h'.balanced hw.labels hw'.labels,
    Nat.le_trans h.spills h'.spills, fun hs => h'.stackParams (h.stackParams hs),
    fun hc => h'.calls (h.calls hc), fun r hr => h'.touched r (h.touched r hr),
    fun x => Nat.le_trans (h'.uses_le x) (h.uses_le x), fun x hu hp => ?_,
    h.journal.trans h'.journal, fun x => (h'.reads x).trans (h.reads x)⟩
  have first := h.moved x (Nat.lt_of_lt_of_le hu (h'.uses_le x)) hp
  exact first.trans (h'.moved x hu (first.place_ne_none hp))

/-! ## The machine -/

/-- A function that runs: its code and the journal of its lowering, its stack, its surroundings,
the state in which its body begins, its stack arguments by offset, the registers that it leaves
alone, and what is to be noted of states in which it calls outside code. -/
structure Env where
  site : Machine.Site
  journal : List Note
  stack : Stack
  world : World
  start : Machine.State
  pushed : Nat → Word
  spared : Reg → Prop
  noted : Call → Machine.State → Prop

def content (T : Stack) (s : Machine.State) : Storage → Word
  | .register r => s.named r
  | .stack o => s.memory.load (T.cell o) 8
  | .immediate v => v

theorem content_eq {T : Stack} {s : Machine.State} (bp : s.named .rbp = T.bp) (place : Storage) :
    content T s place = place.word s := by
  cases place with
  | stack offset => rw [content, Storage.word, Stack.cell, bp]
  | register | immediate => rfl

/-- What the machine holds at a point of lowering. -/
structure Matches (g : Graph) (E : Env) (A : Moment) (σ : State) (p : Pose) (c : Machine.Config) :
    Prop where
  values : ∀ {x pl}, 0 < σ.uses x → σ.place x = some pl →
    A.found x = some ((g.tyOf x).view (content E.stack c.state pl))
  known : ∀ {r P}, p.known r = some P → P A (c.state.named r)
  sp : c.state.named .rsp = E.stack.sp - BitVec.ofNat 64 p.lowered
  bp : c.state.named .rbp = E.stack.bp
  heap : ∀ a, E.stack.heap a = true → c.state.memory a = E.world.view A.calls a
  kept : ∀ a, E.stack.kept a → c.state.memory a = E.start.memory a
  saved : ∀ r ∈ Convention.calleeSaved, σ.regs.touched.contains r = false →
    c.state.named r = E.start.named r
  log : Logged E.site.host E.noted c.entered A.events
  flags : p.flags A c.state.flags

/-- Bytes below the frame for the stack arguments of a call. -/
def outgoing (k : Call) : Nat :=
  Convention.alignStack (Convention.argBytes (k.args.map fun v => v.ty.regClass))

/-- How outside code answers a call: it is entered in one state and comes back in
another. It keeps what a callee has to keep, and the rest is arbitrary. -/
structure Answers (E : Env) (calls : List Call) (k : Call) (s s' : Machine.State) : Prop where
  pc : s'.pc = s.memory.load (s.named .rsp) 8
  sp : s'.named .rsp = s.named .rsp + 8
  saved : ∀ r ∈ .rbp :: Convention.calleeSaved, s'.named r = s.named r
  kept : ∀ a, E.stack.kept a → s'.memory a = s.memory a
  slots : ∀ o, E.stack.IsSlot o → ∀ i < 8,
    s'.memory (E.stack.cell o + BitVec.ofNat 64 i) = s.memory (E.stack.cell o + BitVec.ofNat 64 i)
  heap : ∀ a, E.stack.heap a = true → s'.memory a = E.world.view (k :: calls) a
  reply : ∃ w, E.world.reply calls k w ∧
    k.ret.settle (s'.named (Convention.returnReg k.ret.regClass)) = k.ret.settle w

/-- Whether there is stack and outside code for a call. -/
structure Served (E : Env) (k : Call) : Prop where
  room : outgoing k + 8 ≤ E.stack.reserve
  small : outgoing k < 2147483648
  outside : k.target ≠ E.site.host.stop
  answers : ∃ f, E.site.host.callees k.target = some f ∧ ∀ entered events s,
    Logged E.site.host E.noted entered events → k.MadeIn s →
    s.named .rsp + BitVec.ofNat 64 (outgoing k + 8) = E.stack.sp →
    E.site.host.Spans E.site.code.size (s.memory.load (s.named .rsp) 8) →
    (∀ a, E.stack.heap a = true → s.memory a = E.world.view (events.map Event.toCall) a) →
    E.noted k s ∧ Answers E (events.map Event.toCall) k s (f entered s)

/-- Whether a point of lowering is one of the function that runs. -/
structure Within (S : Setting) (E : Env) (σ : State) : Prop where
  code : E.site.Covers σ.buffer
  spills : σ.frame.spillSlots ≤ E.stack.spills
  incoming : σ.frame.usesStackParams = true → ∀ o ∈ S.incomingOffsets, o ∈ E.stack.incoming
  calls : ∀ k, S.Calls k → Served E k
  spared : ∀ r, E.spared r → r ∈ Convention.calleeSaved ∧ σ.regs.touched.contains r = false
  journal : ∀ n ∈ σ.journal, n ∈ E.journal
  watch : ∀ s m c, .joined s m ∈ E.journal → m.branch.Reached E.site.host E.site.start c →
    m.Crosses S.graph S.ctx.root E.world E.noted E.site.host E.site.code E.site.start s c →
      E.site.watch c

/-- What a state of the machine still has of the state in which the body began. -/
structure Env.Keeps (E : Env) (s : Machine.State) : Prop where
  bp : s.named .rbp = E.stack.bp
  registers : ∀ r, E.spared r → s.named r = E.start.named r
  memory : ∀ a, E.stack.kept a → s.memory a = E.start.memory a

/-- The instructions of a body that have to be permitted: those that write no memory,
stores to spill slots and to outgoing arguments, and calls with an aligned stack. -/
structure Env.Permits (E : Env) : Prop where
  quiet : ∀ {s i}, E.Keeps s → Machine.storeAddress? s i = none → E.site.permits s i
  slot : ∀ {s i o}, E.Keeps s → Machine.isStraight i = true → E.stack.IsSlot o →
    Machine.storeAddress? s i = some (E.stack.cell o) → E.site.permits s i
  outgoing : ∀ {s i o bytes}, E.Keeps s → Machine.isStraight i = true →
    s.named .rsp = E.stack.sp - BitVec.ofNat 64 bytes → bytes + 8 ≤ E.stack.reserve →
    o + 8 ≤ bytes → Machine.storeAddress? s i = some (s.named .rsp + BitVec.ofNat 64 o) →
    E.site.permits s i
  call : ∀ {s r bytes}, E.Keeps s → s.named .rsp = E.stack.sp - BitVec.ofNat 64 bytes →
    bytes % 16 = 0 → bytes + 8 ≤ E.stack.reserve → E.site.permits s (.callReg r)

/-- What the surroundings of a function satisfy. -/
structure Env.Sound (E : Env) : Prop where
  site : E.site.Sound
  stack : E.stack.Sound
  heap : E.world.heap = E.stack.heap
  permits : E.Permits
  pushed : ∀ offset, stackArgOffset offset ∈ E.stack.incoming →
    E.start.memory.load (E.stack.cell (stackArgOffset offset)) 8 = E.pushed offset

theorem Matches.keeps {S : Setting} {E : Env} {A : Moment} {σ : State} {p : Pose}
    {c : Machine.Config} (h : Matches S.graph E A σ p c) (within : Within S E σ) :
    E.Keeps c.state :=
  ⟨h.bp, fun r hr => h.saved r (within.spared r hr).1 (within.spared r hr).2, h.kept⟩

/-- What a later state has of an earlier one, whatever became of the places of values. -/
structure Precedes (σ σ' : State) : Prop where
  written : ∃ its, σ.buffer.Written σ'.buffer its
  spills : σ.frame.spillSlots ≤ σ'.frame.spillSlots
  stackParams : σ.frame.usesStackParams = true → σ'.frame.usesStackParams = true
  calls : σ.frame.makesCalls = true → σ'.frame.makesCalls = true
  touched : ∀ r, σ.regs.touched.contains r = true → σ'.regs.touched.contains r = true
  journal : σ.journal <:+ σ'.journal

theorem Grows.precedes {σ σ' : State} (h : Grows σ σ') : Precedes σ σ' :=
  ⟨h.written, h.spills, h.stackParams, h.calls, h.touched, h.journal⟩

theorem Precedes.trans {σ σ' σ'' : State} (h : Precedes σ σ') (h' : Precedes σ' σ'') :
    Precedes σ σ'' := by
  obtain ⟨its, hw⟩ := h.written
  obtain ⟨its', hw'⟩ := h'.written
  exact ⟨⟨_, hw.trans hw'⟩, Nat.le_trans h.spills h'.spills,
    fun hs => h'.stackParams (h.stackParams hs),
    fun hc => h'.calls (h.calls hc), fun r hr => h'.touched r (h.touched r hr),
    h.journal.trans h'.journal⟩

theorem Precedes.offset_le {σ σ' : State} (h : Precedes σ σ') : σ.offset ≤ σ'.offset := by
  obtain ⟨its, hw⟩ := h.written
  show σ.buffer.size ≤ σ'.buffer.size
  rw [hw.size]
  exact Nat.le_add_right ..

theorem Precedes.begun {σ σ' : State} (h : Precedes σ σ')
    (begun : ∃ capacity its, CodeBuffer.Written (.new capacity) σ.buffer its) :
    ∃ capacity its, CodeBuffer.Written (.new capacity) σ'.buffer its := by
  obtain ⟨its, hw⟩ := h.written
  obtain ⟨capacity, pre, hpre⟩ := begun
  exact ⟨capacity, _, hpre.trans hw⟩

theorem Within.before {S : Setting} {E : Env} {σ σ' : State} (h : Within S E σ')
    (begun : ∃ capacity its, CodeBuffer.Written (.new capacity) σ.buffer its)
    (first : Precedes σ σ') : Within S E σ := by
  obtain ⟨its, hw⟩ := first.written
  refine ⟨h.code.before begun hw, Nat.le_trans first.spills h.spills,
    fun hs => h.incoming (first.stackParams hs), h.calls, fun r hr => ?_,
    fun n hn => h.journal n (first.journal.subset hn), h.watch⟩
  obtain ⟨saved, untouched⟩ := h.spared r hr
  refine ⟨saved, Bool.eq_false_iff.2 fun touched => ?_⟩
  rw [first.touched r touched] at untouched
  cases untouched

theorem Within.of_grows {S : Setting} {E : Env} {σ σ' : State} (h : Within S E σ')
    (begun : ∃ capacity its, CodeBuffer.Written (.new capacity) σ.buffer its) (hg : Grows σ σ') :
    Within S E σ := h.before begun hg.precedes

/-- What becomes of a machine between two points of lowering, if things go on like this. -/
def Ends (S : Setting) (E : Env) (σ₀ σ : State) (p : Pose) (c : Machine.Config) :
    Except (List Event) Moment → Prop
  | .ok A => E.site.Leads σ₀.offset σ.offset c fun c' => Matches S.graph E A σ p c'
  | .error events => E.site.Traps σ₀.offset σ.offset c fun c' =>
      Logged E.site.host E.noted c'.entered events

/-- A point of lowering that was reached from an earlier one. What the code in between
does is one of the ways in which the course goes on. -/
structure Stage (S : Setting) (E : Env) (σ₀ : State) (p₀ : Pose) (D : Finset NodeId) (σ : State)
    (R : Course) (p : Pose) : Prop where
  inv : Inv S D σ p
  grows : Grows σ₀ σ
  run : E.Sound → Within S E σ → ∀ A c, E.site.At σ₀.offset c → Matches S.graph E A σ₀ p₀ c →
    ∃ o, R A o ∧ Ends S E σ₀ σ p c o

theorem Stage.refl {S : Setting} {E : Env} {D : Finset NodeId} {σ : State} {p : Pose}
    (h : Inv S D σ p) : Stage S E σ p D σ .stay p :=
  ⟨h, .refl, fun _ _ A _ at_ hm => ⟨.ok A, rfl, .refl at_ hm⟩⟩

theorem Stage.mono {S : Setting} {E : Env} {σ₀ σ : State} {p₀ p : Pose} {D : Finset NodeId}
    {R R' : Course} (h : Stage S E σ₀ p₀ D σ R p) (hR : ∀ m o, R m o → R' m o) :
    Stage S E σ₀ p₀ D σ R' p :=
  ⟨h.inv, h.grows, fun sound within A c at_ hm =>
    (h.run sound within A c at_ hm).imp fun _ ho => ⟨hR _ _ ho.1, ho.2⟩⟩

/-- A computation whose errors are all permitted. -/
abbrev Generates (S : Setting) {α : Type} (m : Lower α) (σ : State) (post : α → State → Prop) :
    Prop :=
  Yields m σ post fun e σ' => Permitted S e ∧ Clean S.graph S.ctx.root σ'.journal

/-- Between two states of lowering the listed values were read, one entry for each time. -/
structure Reads (σ σ' : State) (xs : List NodeId) : Prop where
  grows : Grows σ σ'
  uses : ∀ x, σ'.uses x + xs.count x = σ.uses x
  tally : σ'.tally = σ.tally

theorem Reads.of_eq {σ σ' : State} (grows : Grows σ σ') (h : ∀ x, σ'.uses x = σ.uses x)
    (tally : σ'.tally = σ.tally) : Reads σ σ' [] :=
  ⟨grows, fun x => by rw [h, List.count_nil, Nat.add_zero], tally⟩

theorem Reads.refl {σ : State} : Reads σ σ [] := .of_eq .refl (fun _ => rfl) rfl

theorem Reads.trans {σ σ' σ'' : State} {xs ys : List NodeId} (h : Reads σ σ' xs)
    (h' : Reads σ' σ'' ys) : Reads σ σ'' (xs ++ ys) :=
  ⟨h.grows.trans h'.grows, fun x => by
    rw [← h.uses, ← h'.uses, List.count_append, Nat.add_assoc, Nat.add_comm (ys.count x)],
    h'.tally.trans h.tally⟩

theorem Reads.uses_eq {σ σ' : State} (h : Reads σ σ' []) (x : NodeId) : σ'.uses x = σ.uses x :=
  h.uses x

theorem Reads.perm {σ σ' : State} {xs ys : List NodeId} (h : Reads σ σ' xs) (hp : xs.Perm ys) :
    Reads σ σ' ys :=
  ⟨h.grows, fun x => by rw [← hp.count_eq]; exact h.uses x, h.tally⟩

theorem Reads.live {σ σ' : State} {xs : List NodeId} {y : NodeId} (h : Reads σ σ' xs)
    (ys : List NodeId) (enough : ∀ x, (xs ++ ys).count x ≤ σ.uses x) (hy : y ∈ ys) :
    0 < σ'.uses y := by
  have left := h.uses y
  have all := enough y
  have own := List.count_pos_iff.2 hy
  rw [List.count_append] at all
  omega

end Lowering
end NativeExpr
