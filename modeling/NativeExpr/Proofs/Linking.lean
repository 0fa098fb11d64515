import NativeExpr.Proofs.Calls

/-!
# Calls between generated functions

A generated function may call another one. What the caller passes is what the callee finds in
its parameters, whatever the numbers, classes and widths of the arguments are and however the
two were generated, and the value of the call is the one that the callee finds for its root.
The words are the same bit for bit, also where they are NaNs.
-/
namespace NativeExpr

open X64 Machine
open NativeExpr.Frame (returned named_returned)
open Lowering (outgoing Reading eventOf)

/-- A generated function: a root of a graph that factory calls made, with the code that some
options give. -/
structure Routine where
  graph : Graph
  root : NodeId
  options : Options
  code : Generated
  built : graph.Built
  generated : graph.generate root options = .ok code
  compact : graph.Compact root code.image

namespace Routine

variable (p q : Routine)

def bytes : Array Byte := p.code.image.bytes

def ret : ScalarType := p.graph.tyOf p.root

/-- Where the arguments are at the entry. -/
def places : List ArgLocation :=
  Convention.argLocations (p.graph.paramTypes.map ScalarType.regClass)

/-- The lowest address of the frame of a function that was entered in a state. -/
def low (s₀ : State) : Word := s₀.named .rsp - 8 - BitVec.ofNat 64 p.code.image.frameSize

/-- Bytes from the return address of a callee to the end of the arguments of the function. -/
def reach : Nat := p.graph.callRoom p.root + p.code.image.frameSize + 16 + p.graph.paramRoom

/-- What surrounds a function that was entered in a state: memory is as it was then, as far as
it is known, and outside code may return anything. -/
def world (heap : Word → Bool) (s : State) : World :=
  { p.graph.anything s with
    view := fun _ => s.memory
    heap }

/-- The memory that a callee knows: what its caller knows, and the stack of its caller. -/
def known (heap : Word → Bool) (s : State) (a : Word) : Bool :=
  heap a || decide (8 ≤ (a - s.named .rsp).toNat ∧ (a - s.named .rsp).toNat < p.reach)

/-- The surroundings of code that was entered in a state: it returns to where it was called. -/
def host (target : Word) (inner : Word → Option (List State → State → State)) (s : State) : Host :=
  ⟨target, s.memory.load (s.named .rsp) 8, inner⟩

/-- Code as outside code for other code. Where a division fails the program ends, so that it does
not matter how the call goes on. -/
def answering (code : Array Byte) (target : Word)
    (inner : Word → Option (List State → State → State)) : List State → State → State := fun _ s =>
  match (run (host target inner s) code (stepBound code) ⟨[], s⟩).1 with
  | .returned s' => s'
  | .divideError | .stuck => returned s

def asOutside (target : Word) (inner : Word → Option (List State → State → State)) :
    List State → State → State := answering q.bytes target inner

/-- Outside code for the calls of a function: it abides by the convention and leaves alone the
memory that is known and the stack from the frame of the function on. -/
def Attended (callees : Word → Option (List State → State → State)) (heap : Word → Bool)
    (height : Nat) (target : Word) (args : List NodeId) : Prop :=
  ∃ f, callees target = some f ∧ ∀ called s,
    Abides (s.named .rsp + BitVec.ofNat 64 (p.graph.outgoingBytes args + 8)) height s (f called s) ∧
      ∀ a, heap a = true → (f called s).memory a = s.memory a

variable {p q}

theorem root_lt : p.root < p.graph.size := by
  obtain ⟨σ, _, _, lowered, -⟩ := Graph.generate_eq_ok p.generated
  exact (Graph.exists_lowering lowered).1

theorem reach_lt : p.reach < 6442450960 := by
  have := p.compact.frame
  have := p.compact.calls
  have := p.compact.params
  unfold reach
  omega

theorem stackRoom_lt : p.graph.stackRoom p.root p.code.image < 4294967304 := by
  have := p.compact.frame
  have := p.compact.calls
  unfold Graph.stackRoom
  omega

end Routine

theorem Machine.Abides.mono {low : Word} {height height' : Nat} {s s' : State}
    (h : Abides low height s s') (le : height' ≤ height) : Abides low height' s s' :=
  ⟨h.pc, h.sp, h.saved, fun i hi => h.stack i (Nat.lt_of_lt_of_le hi le)⟩

theorem abides_returned (low : Word) (height : Nat) (s : State) :
    Abides low height s (returned s) := by
  refine ⟨rfl, ?_, fun r hr => ?_, fun _ _ => rfl⟩
  · rw [named_returned (by decide), if_pos rfl]
  · have valid : ∀ r ∈ Reg.rbp :: Convention.calleeSaved, r.Valid ∧ r ≠ .rsp := by decide
    rw [named_returned (valid r hr).1, if_neg (valid r hr).2]

/-- A generated function that calls another one at an address. The code of the two is apart, and
so is memory that they know from what they use of the stack. All other calls of the two are
answered by outside code. -/
structure Links (p q : Routine) (h : Host) (target : Word)
    (inner : Word → Option (List State → State → State)) (heap : Word → Bool) (s₀ : State) :
    Prop where
  loaded : Loaded h p.bytes s₀
  callee : h.callees target = some (q.asOutside target inner)
  outside : target ≠ h.stop
  room : q.bytes.size < 18446744073709551616
  apart : ∀ i ≤ p.bytes.size, ∀ j < q.bytes.size,
    target + BitVec.ofNat 64 j ≠ h.base + BitVec.ofNat 64 i
  clear : ∀ j < q.bytes.size, inner (target + BitVec.ofNat 64 j) = none
  aside : ∀ a, heap a = true →
    p.graph.stackRoom p.root p.code.image + q.graph.stackRoom q.root q.code.image ≤
      (a - (s₀.named .rsp - BitVec.ofNat 64 (p.graph.stackRoom p.root p.code.image +
        q.graph.stackRoom q.root q.code.image))).toNat
  others : ∀ x t args ty, p.graph.Reaches p.root x → p.graph.node? x = some ⟨.call t args, ty⟩ →
    t ≠ target → t ≠ h.stop ∧
      p.Attended h.callees heap (p.code.image.frameSize + 16 + p.graph.paramRoom) t args
  nested : ∀ x t args ty, q.graph.Reaches q.root x → q.graph.node? x = some ⟨.call t args, ty⟩ →
    (∀ i ≤ p.bytes.size, t ≠ h.base + BitVec.ofNat 64 i) ∧
      q.Attended inner heap (q.code.image.frameSize + 16 + q.graph.paramRoom + p.reach) t args

/-- A state in which a function has called something. -/
structure Routine.Calling (p : Routine) (h : Host) (heap : Word → Bool) (s₀ : State) (k : Call)
    (s : State) : Prop where
  pc : s.pc = k.target
  sp : s.named .rsp + BitVec.ofNat 64 (outgoing k + 8) = p.low s₀
  room : outgoing k + 8 ≤ p.graph.callRoom p.root
  back : h.Spans p.bytes.size (s.memory.load (s.named .rsp) 8)
  heap : ∀ a, heap a = true → s.memory a = s₀.memory a

namespace Links

variable {p q : Routine} {h : Host} {target : Word}
variable {inner : Word → Option (List State → State → State)} {heap : Word → Bool} {s₀ s : State}
variable {k : Call} (link : Links p q h target inner heap s₀) (calling : p.Calling h heap s₀ k s)
include link calling

theorem apart_known {a : Word} (ha : p.known heap s a = true) :
    q.graph.stackRoom q.root q.code.image ≤
      (a - (s.named .rsp - BitVec.ofNat 64 (q.graph.stackRoom q.root q.code.image))).toNat := by
  have small := p.reach_lt
  have thin := q.stackRoom_lt
  rcases Bool.or_eq_true_iff.1 ha with ha | ha
  · have far := link.aside a ha
    have sp := calling.sp
    have room := calling.room
    -- the stack pointer of the callee is a part of the stack of the caller below that of the caller
    obtain ⟨d, hd⟩ := Nat.exists_eq_add_of_le room
    have stack : p.graph.stackRoom p.root p.code.image =
        8 + p.code.image.frameSize + (outgoing k + 8) + d := by
      unfold Graph.stackRoom
      omega
    rw [stack] at far
    have shift : a - (s.named .rsp - BitVec.ofNat 64 (q.graph.stackRoom q.root q.code.image)) =
        a - (s₀.named .rsp - BitVec.ofNat 64 (8 + p.code.image.frameSize + (outgoing k + 8) + d +
          q.graph.stackRoom q.root q.code.image)) - BitVec.ofNat 64 d := by
      unfold Routine.low at sp
      simp only [BitVec.ofNat_add] at sp ⊢
      grind
    rw [shift, toNat_sub_ofNat (by omega)]
    omega
  · obtain ⟨-, near⟩ := of_decide_eq_true ha
    have shift : a - (s.named .rsp - BitVec.ofNat 64 (q.graph.stackRoom q.root q.code.image)) =
        a - s.named .rsp + BitVec.ofNat 64 (q.graph.stackRoom q.root q.code.image) := by
      grind
    rw [shift, BitVec.toNat_add, BitVec.toNat_ofNat]
    omega

theorem entered (here : k.target = target) :
    q.graph.Entered (q.world (p.known heap s) s) (Routine.host target inner s) (fun _ _ => True)
      q.root q.code.image s := by
  obtain ⟨i, hi, back⟩ := calling.back
  refine ⟨⟨calling.pc.trans here, rfl, link.room, fun j hj => ⟨?_, link.clear j hj⟩⟩, ?_,
    fun _ _ => rfl, fun a => link.apart_known calling, ?_⟩
  · show _ ≠ s.memory.load (s.named .rsp) 8
    rw [back]
    exact link.apart i hi j hj
  · intro i l hl
    show _ = (_ : Option Word).getD 0
    rw [hl]
    rfl
  · rintro k' ⟨x, hx, args, node, types⟩
    obtain ⟨outside, f, hf, attends⟩ := link.nested x k'.target args k'.ret
      ((q.built.wellFormed.mem_below q.root_lt).1 hx) node
    refine ⟨fun same => outside i hi (same.trans back), f, hf,
      fun called events t _ _ sp _ same => ⟨trivial, ?_⟩⟩
    obtain ⟨abides, kept⟩ := attends called t
    rw [Lowering.outgoing_eq types] at sp
    rw [sp] at abides
    refine ⟨abides.mono (Nat.le_add_right ..), fun a ha => Eq.trans ?_ (same a ha), _, trivial, rfl⟩
    rcases Bool.or_eq_true_iff.1 ha with ha | ha
    · exact kept a ha
    · obtain ⟨-, near⟩ := of_decide_eq_true ha
      have inside := abides.stack (8 + q.code.image.frameSize + (a - s.named .rsp).toNat) (by omega)
      have here : s.named .rsp - 8 - BitVec.ofNat 64 q.code.image.frameSize +
          BitVec.ofNat 64 (8 + q.code.image.frameSize + (a - s.named .rsp).toNat) = a := by
        simp only [BitVec.ofNat_add, BitVec.ofNat_toNat, BitVec.setWidth_eq]
        grind
      rwa [here] at inside

theorem callee_runs (here : k.target = target) : ∃ a out called,
    (q.world (p.known heap s) s).course q.graph q.root ⟨fun _ => none, []⟩ a ∧
      run (Routine.host target inner s) q.bytes (stepBound q.bytes) ⟨[], s⟩ = (out, called) ∧
      (∀ s', out = .returned s' → s'.pc = s.memory.load (s.named .rsp) 8) ∧
      q.graph.Concludes (q.world (p.known heap s) s) (Routine.host target inner s) (fun _ _ => True)
        q.root s a called out := by
  obtain ⟨σ, _, _, lowered, -⟩ := Graph.generate_eq_ok q.generated
  obtain ⟨L, host, code, -, a, c, out, course, finishes, concludes⟩ :=
    q.built.runs q.generated lowered q.compact (link.entered calling here)
  have runs := finishes.run_eq
  rw [host, code] at runs
  refine ⟨a, out, c.entered, course, runs, fun s' comes => ?_, concludes⟩
  subst comes
  have stop := finishes.returned
  rwa [host] at stop

/-- The callee is outside code that answers the calls of the function. -/
theorem obeys (here : k.target = target) (called : List State) (calls : List Call) :
    (p.world heap s₀).Obeys (p.low s₀) (p.code.image.frameSize + 16 + p.graph.paramRoom) calls k s
      (q.asOutside target inner called s) := by
  obtain ⟨a, out, _, -, runs, back, concludes⟩ := link.callee_runs calling here
  have small := p.reach_lt
  unfold Routine.asOutside Routine.answering
  rw [runs]
  cases a with
  | ok A =>
    obtain ⟨s', rfl, -, restores, -, memory⟩ := concludes.ok
    refine ⟨⟨back s' rfl, restores.sp, restores.saved, fun i hi => memory _ ?_⟩,
      fun a ha => ?_, _, trivial, rfl⟩
    · have near : p.low s₀ + BitVec.ofNat 64 i - s.named .rsp =
          BitVec.ofNat 64 (outgoing k + 8 + i) := by
        rw [← calling.sp, BitVec.ofNat_add (outgoing k + 8)]
        grind
      have room := calling.room
      unfold Routine.reach at small
      refine Bool.or_eq_true_iff.2 (.inr (decide_eq_true ?_))
      rw [near, BitVec.toNat_ofNat]
      unfold Routine.reach
      omega
    · refine (memory a ?_).trans (calling.heap a ha)
      exact Bool.or_eq_true_iff.2 (.inl ha)
  | error events =>
    obtain ⟨rfl, -⟩ := concludes.error
    exact ⟨abides_returned .., fun a ha => calling.heap a ha, _, trivial, rfl⟩

omit calling in
/-- The caller is entered as a function has to be, and its calls are on record. -/
theorem caller_entered :
    p.graph.Entered (p.world heap s₀) h (p.Calling h heap s₀) p.root p.code.image s₀ := by
  refine ⟨link.loaded, fun i l hl => ?_, fun _ _ => rfl, fun a ha => ?_, ?_⟩
  · show _ = (_ : Option Word).getD 0
    rw [hl]
    rfl
  · have far := link.aside a ha
    have small := p.stackRoom_lt
    have thin := q.stackRoom_lt
    have shift : a - (s₀.named .rsp - BitVec.ofNat 64 (p.graph.stackRoom p.root p.code.image)) =
        a - (s₀.named .rsp - BitVec.ofNat 64 (p.graph.stackRoom p.root p.code.image +
          q.graph.stackRoom q.root q.code.image)) -
            BitVec.ofNat 64 (q.graph.stackRoom q.root q.code.image) := by
      rw [BitVec.ofNat_add]
      grind
    rw [shift, toNat_sub_ofNat (by omega)]
    omega
  · intro k calls
    have room := Lowering.outgoing_le_callRoom calls
    obtain ⟨x, hx, args, node, types⟩ := calls
    by_cases here : k.target = target
    · rw [← here] at link
      refine ⟨link.outside, _, link.callee, fun called events s _ made sp spans same => ?_⟩
      have calling : p.Calling h heap s₀ k s := ⟨made.1, sp, room, spans, same⟩
      exact ⟨calling, link.obeys calling rfl called _⟩
    · obtain ⟨outside, f, hf, attends⟩ := link.others x k.target args k.ret
        ((p.built.wellFormed.mem_below p.root_lt).1 hx) node here
      refine ⟨outside, f, hf, fun called events s _ made sp spans same =>
        ⟨⟨made.1, sp, room, spans, same⟩, ?_⟩⟩
      obtain ⟨abides, kept⟩ := attends called s
      rw [Lowering.outgoing_eq types] at sp
      rw [sp] at abides
      exact ⟨abides, fun a ha => (kept a ha).trans (same a ha), _, trivial, rfl⟩

end Links

def EndsAt (m : Moment) : Except (List Event) Moment → Prop
  | .ok A => A = m
  | .error events => m.events = events

/-- What a callee has of its caller in the state in which it is entered for a call with some
arguments and some result. -/
structure Agrees (p q : Routine) (target : Word)
    (inner : Word → Option (List State → State → State)) (heap : Word → Bool) (m : Moment)
    (args : List NodeId) (w : Word) (s : State) : Prop where
  /-- The arguments are in the places where the callee looks for its parameters. -/
  places : ∀ (i : Nat) l x, q.places[i]? = some l → args[i]? = some x →
    (p.graph.tyOf x).view (s.argument l) = m.word x
  /-- Each parameter has the value of the argument. -/
  params : ∀ (i : Nat) id x, q.graph.params[i]? = some id → args[i]? = some x →
    (q.world (p.known heap s) s).paramWord q.graph id = some (m.word x)
  /-- The result is what the callee finds for its root. -/
  value : ∃ a out called, (q.world (p.known heap s) s).course q.graph q.root ⟨fun _ => none, []⟩ a ∧
    run (Routine.host target inner s) q.bytes (stepBound q.bytes) ⟨[], s⟩ = (out, called) ∧
    (out = .divideError ∨ ∃ s' A, out = .returned s' ∧ a = .ok A ∧ w = A.word q.root)

namespace Links

variable {p q : Routine} {h : Host} {target : Word}
variable {inner : Word → Option (List State → State → State)} {heap : Word → Bool} {s₀ s : State}

theorem agrees (link : Links p q h target inner heap s₀) {m : Moment} {D : Finset NodeId}
    (recorded : m.Recorded p.graph D) {e : Event} {args : List NodeId} {w : Word}
    (types : args.map p.graph.tyOf = q.graph.paramTypes)
    (same : e = eventOf p.graph m target args q.ret e.node w) (made : e.MadeIn s)
    (calling : p.Calling h heap s₀ e.toCall s) {called : List State}
    (result : e.ret.settle ((q.asOutside target inner called s).named
      (Convention.returnReg e.ret.regClass)) = e.result) :
    Agrees p q target inner heap m args e.result s := by
  have passed : e.args.map Value.ty = args.map p.graph.tyOf := same ▸ Lowering.types_callOf ..
  have places (i : Nat) (l : ArgLocation) (x : NodeId) (hl : q.places[i]? = some l)
      (hx : args[i]? = some x) : (p.graph.tyOf x).view (s.argument l) = m.word x := by
    have sent : e.sent = args.map m.word := congrArg Event.sent same
    obtain ⟨v, hv, ty⟩ : ∃ v, e.args[i]? = some v ∧ v.ty = p.graph.tyOf x := by
      have at_ : (e.args.map Value.ty)[i]? = some (p.graph.tyOf x) := by
        rw [passed, List.getElem?_map, hx]
        rfl
      rw [List.getElem?_map] at at_
      exact Option.map_eq_some_iff.1 at_
    have found : (s.arguments (e.args.map Value.ty))[i]? = some (s.argument l) := by
      rw [passed, types, State.arguments, List.getElem?_map]
      exact congrArg (Option.map s.argument) hl
    have word := congrArg (fun ws : List Word => ws[i]?) (made.2.trans sent)
    simp only [List.getElem?_zipWith, hv, found, List.getElem?_map, hx] at word
    exact ty ▸ Option.some.inj word
  refine ⟨places, fun i id x hid hx => ?_, ?_⟩
  · obtain ⟨t, hn⟩ := q.built.wellFormed.bound hid
    have ty : p.graph.tyOf x = t := by
      have at_ := congrArg (fun ts : List ScalarType => ts[i]?) types
      simp only [q.built.wellFormed.paramTypes_eq, List.getElem?_map, hx, hid,
        Option.map_some] at at_
      exact (Option.some.inj at_).trans (Graph.hasType_of_node? hn).tyOf_eq
    obtain ⟨l, hl⟩ : ∃ l, q.places[i]? = some l := by
      have inside := (List.getElem?_eq_some_iff.1 hid).1
      refine ⟨_, List.getElem?_eq_getElem ?_⟩
      rw [Routine.places, Convention.length_argLocations, List.length_map,
        q.built.wellFormed.paramTypes_eq, List.length_map]
      exact inside
    have word := places i l x hl hx
    rw [ty] at word
    have param : (q.world (p.known heap s) s).param i = s.argument l := by
      show (_ : Option Word).getD 0 = _
      rw [show (Convention.argLocations _)[i]? = some l from hl]
      rfl
    rw [World.paramWord, hn]
    dsimp only
    rw [param, ScalarType.settle_eq_view fun integer => ?_, word]
    rw [word]
    exact ty ▸ recorded.settled.word (ty.symm ▸ integer)
  · have here : e.target = target := congrArg (fun e => e.target) same
    have ret : e.ret = q.ret := congrArg (fun e => e.ret) same
    obtain ⟨a, out, called', course, runs, -, concludes⟩ := link.callee_runs calling here
    refine ⟨a, out, called', course, runs, ?_⟩
    have settled := World.settled_course q.built.wellFormed q.root_lt course
    cases a with
    | ok A =>
      have settled : A.Settled q.graph (q.graph.below q.root) := settled
      obtain ⟨s', rfl, reading, -⟩ := concludes.ok
      have reading : q.ret.view (s'.named (Convention.returnReg q.ret.regClass)) =
        A.word q.root := reading
      refine .inr ⟨s', A, rfl, rfl, ?_⟩
      rw [← result, ret, Routine.asOutside, Routine.answering, runs]
      dsimp only
      rw [ScalarType.settle_eq_view fun integer => ?_]
      · exact reading
      · rw [reading]
        exact settled.word integer
    | error events => exact .inl concludes.error.1

/-- Caller and callee agree on the arguments of a call and on its value, and no two arguments
share a place. -/
theorem calls_agree (link : Links p q h target inner heap s₀) :
    q.places.Nodup ∧ ∃ a out called,
      (p.world heap s₀).course p.graph p.root ⟨fun _ => none, []⟩ a ∧
      run h p.bytes (stepBound p.bytes) ⟨[], s₀⟩ = (out, called) ∧
      p.graph.Concludes (p.world heap s₀) h (p.Calling h heap s₀) p.root s₀ a called out ∧
      ∃ m, EndsAt m a ∧ ∀ x args w, p.graph.node? x = some ⟨.call target args, q.ret⟩ →
        args.map p.graph.tyOf = q.graph.paramTypes → m.found x = some w →
          ∃ s ∈ called, s.pc = target ∧ Agrees p q target inner heap m args w s := by
  refine ⟨Convention.nodup_argLocations _, ?_⟩
  obtain ⟨σ, _, _, lowered, -⟩ := Graph.generate_eq_ok p.generated
  obtain ⟨L, rfl, code, -, a, c, out, course, finishes, concludes⟩ :=
    p.built.runs p.generated lowered p.compact link.caller_entered
  have runs := finishes.run_eq
  rw [code] at runs
  refine ⟨a, out, c.entered, course, runs, concludes, ?_⟩
  have recorded := World.recorded_course p.built.wellFormed p.root_lt course
  have pass {m : Moment} {D : Finset NodeId} (recorded : m.Recorded p.graph D)
      (log : Logged L.host (p.Calling L.host heap s₀) c.entered m.events)
      (x : NodeId) (args : List NodeId) (w : Word)
      (hx : p.graph.node? x = some ⟨.call target args, q.ret⟩)
      (types : args.map p.graph.tyOf = q.graph.paramTypes) (hw : m.found x = some w) :
      ∃ s ∈ c.entered, s.pc = target ∧ Agrees p q target inner heap m args w s := by
    obtain ⟨e, he, node⟩ := recorded.made x target args q.ret (by rw [hw]; exact nofun) hx
    obtain ⟨args', w', hn, same, found⟩ := recorded.sent e he
    obtain ⟨s, hs, made, calling, f, called, hf, result⟩ := log.exists_entered he
    rw [node, hx] at hn
    rw [node, hw] at found
    injection hn with hn
    injection hn with kind ret
    injection kind with here arguments
    subst arguments
    rw [← here, link.callee] at hf
    cases hf
    cases found
    rw [← here, ← ret] at same
    exact ⟨s, hs, here ▸ made.1.1, link.agrees recorded types same made calling result⟩
  cases a with
  | ok A =>
    have recorded : A.Recorded p.graph (p.graph.below p.root) := recorded
    obtain ⟨s, -, -, -, log, -⟩ := concludes.ok
    exact ⟨A, rfl, pass recorded log⟩
  | error events =>
    obtain ⟨D, m, recorded, rfl⟩ := recorded
    exact ⟨m, rfl, pass recorded concludes.error.2⟩

end Links

/-! ## A function that calls another one -/

/-- A function that passes a sum and an argument on to outside code. -/
def delegate : Graph where
  nodes := #[⟨.parameter 0, .i64⟩, ⟨.parameter 1, .i64⟩, ⟨.arith .add 0 1, .i64⟩,
    ⟨.call 0x100000200000 [2, 1], .i64⟩]
  params := [0, 1]
  parents := #[1, 2, 1, 0]

theorem built_delegate : delegate.Built :=
  .of_built? [.i64, .i64] [.arith .add 0 1, .call 0x100000200000 [2, 1] .i64] (by decide +kernel)

theorem exists_routine {g : Graph} {root : NodeId} (built : g.Built)
    (small : g.isSmall root .default = true)
    (calls : g.callRoom root ≤ 2147483648) (params : g.paramRoom + 16 < 2147483648) :
    ∃ p : Routine, p.graph = g ∧ p.root = root ∧ g.generate root .default = .ok p.code ∧
      p.bytes.size ≤ 4096 := by
  obtain ⟨c, hc, frame, size⟩ := Graph.exists_of_isSmall small
  exact ⟨⟨g, root, .default, c, built, hc, frame, calls, params⟩, rfl, rfl, hc, size⟩

/-- Surroundings in which some code is all the outside code that there is. -/
def Routine.alone (code : Array Byte) : Host :=
  ⟨codeBase, returnAddress, fun a =>
    if a = 0x100000200000 then some (answering code 0x100000200000 fun _ => none) else none⟩

/-- Whether code that calls other code passes 12 and 7 and returns 5. -/
def delegates (c d : Generated) : Bool :=
  match run (Routine.alone d.image.bytes) c.image.bytes (stepBound c.image.bytes)
      ⟨[], entryState .zero [.i64, .i64] [5, 7]⟩ with
  | (.returned t, [s]) =>
    decide (t.named .rax = 5 ∧ s.named .rdi = 12 ∧ s.named .rsi = 7)
  | _ => false

theorem of_delegates {c d : Generated} (h : delegates c d = true) : ∃ t s : State,
    run (Routine.alone d.image.bytes) c.image.bytes (stepBound c.image.bytes)
      ⟨[], entryState .zero [.i64, .i64] [5, 7]⟩ = (.returned t, [s]) ∧
    t.named .rax = 5 ∧ s.named .rdi = 12 ∧ s.named .rsi = 7 := by
  unfold delegates at h
  split at h
  · next t s runs => exact ⟨t, s, runs, of_decide_eq_true h⟩
  · cases h

theorem exists_links : ∃ p q : Routine, p.graph = delegate ∧ p.root = 3 ∧
    q.graph = Graph.distance ∧ q.root = 5 ∧ delegates p.code q.code = true ∧
    Links p q (Routine.alone q.bytes) 0x100000200000 (fun _ => none) (fun _ => false)
      (entryState .zero [.i64, .i64] [5, 7]) := by
  obtain ⟨p, hp, rootp, codep, sizep⟩ := @exists_routine delegate 3 built_delegate
    (by decide +kernel) (by decide +kernel) (by decide +kernel)
  obtain ⟨q, hq, rootq, codeq, sizeq⟩ := @exists_routine Graph.distance 5 Graph.built_distance
    (by decide +kernel) (by decide +kernel) (by decide +kernel)
  have passes : delegates p.code q.code = true :=
    Graph.of_generatesWith _ (Graph.of_generatesWith (fun c =>
      Graph.distance.generatesWith 5 .default (delegates c)) (by decide +kernel) codep) codeq
  refine ⟨p, q, hp, rootp, hq, rootq, passes, ?_⟩
  have base : codeBase.toNat = 0x555500000000 := rfl
  -- the callee lies more than a page away from the caller
  have apart (i : Nat) (hi : i ≤ 4096) (j : Nat) (hj : j < 4096) :
      (0x100000200000 : Word) + BitVec.ofNat 64 j ≠ codeBase + BitVec.ofNat 64 i := fun same => by
    have same := congrArg BitVec.toNat same
    rw [BitVec.toNat_add, BitVec.toNat_add, BitVec.toNat_ofNat, BitVec.toNat_ofNat] at same
    have target : (0x100000200000 : Word).toNat = 0x100000200000 := rfl
    omega
  refine ⟨loaded_entryState rfl (by decide) sizep fun k hk => if_neg fun same => ?_, ?_, ?_,
    by omega, fun i hi j hj => apart i (by omega) j (by omega), fun _ _ => rfl, nofun, ?_, ?_⟩
  · exact apart k (by omega) 0 (by decide) ((BitVec.add_zero _).trans same.symm)
  · show (if (0x100000200000 : Word) = 0x100000200000 then
      some (q.asOutside 0x100000200000 fun _ => none) else none) = _
    rw [if_pos rfl]
  · show (0x100000200000 : Word) ≠ returnAddress
    decide
  · intro x t args ty _ node ne
    have only : ∀ n ∈ delegate.nodes, ∀ t a, n.kind = .call t a → t = 0x100000200000 := by
      simp [delegate]
    exact absurd (only _ (Array.mem_of_getElem? (hp ▸ node)) t args rfl) ne
  · intro x t args ty _ node
    exact absurd (hq ▸ node) Graph.distance_call

/-- The sum 12 of 5 and 7 and the argument 7 arrive, and their distance 5 is the value of the
call. -/
theorem calls_agree_delegate : ∃ p q : Routine, p.graph = delegate ∧ q.graph = Graph.distance ∧
    ∃ t s m, run (Routine.alone q.bytes) p.bytes (stepBound p.bytes)
        ⟨[], entryState .zero [.i64, .i64] [5, 7]⟩ = (.returned t, [s]) ∧
      t.named .rax = 5 ∧ s.named .rdi = 12 ∧ s.named .rsi = 7 ∧ s.pc = 0x100000200000 ∧
      m.found 3 = some 5 ∧
      Agrees p q 0x100000200000 (fun _ => none) (fun _ => false) m [2, 1] 5 s := by
  obtain ⟨p, q, hp, rootp, hq, rootq, passes, link⟩ := exists_links
  obtain ⟨t, s, runs', rax, rdi, rsi⟩ := of_delegates passes
  obtain ⟨-, a, out, called, -, runs, concludes, m, ends, agrees⟩ := link.calls_agree
  cases runs.symm.trans runs'
  have found : m.found 3 = some 5 := by
    cases a with
    | error events => cases concludes.error.1
    | ok A =>
      obtain rfl : A = m := ends
      obtain ⟨_, same, reading, -⟩ := concludes.ok
      cases same
      have word : (5 : Word) = A.word 3 := by
        have reading : (p.graph.tyOf p.root).view
          (t.named (Convention.returnReg (p.graph.tyOf p.root).regClass)) = A.word p.root := reading
        rw [hp, rootp] at reading
        exact rax.symm.trans reading
      -- what has not been found is read as zero
      rw [Moment.word] at word
      cases hw : A.found 3 with
      | none => rw [hw] at word; cases word
      | some w => rw [hw] at word; rw [word]; rfl
  have ret : q.ret = .i64 := by rw [Routine.ret, hq, rootq]; rfl
  obtain ⟨s', hs, pc, agree⟩ := agrees 3 [2, 1] 5 (by rw [hp, ret]; rfl)
    (by rw [hp, hq]; decide +kernel) found
  obtain rfl := List.mem_singleton.1 hs
  exact ⟨p, q, hp, hq, t, _, m, runs, rax, rdi, rsi, pc, found, agree⟩

end NativeExpr
