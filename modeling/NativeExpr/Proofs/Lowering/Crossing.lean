import NativeExpr.Proofs.Lowering.Noted

/-!
# From a branch to where the arms meet

What a machine holds at a point of lowering is told by the tables: every value that is to be
read is in its place. A run that comes to the branch of a conditional runs one of the arms and
comes to where they meet. On the way what is still to be read there has stayed or come back
where it was.
-/
namespace NativeExpr

open X64

/-- Whether outside code was entered with the arguments of a call. -/
def Call.MadeIn (k : Call) (s : Machine.State) : Prop :=
  s.pc = k.target ∧
    List.zipWith (fun v raw => Value.unify ⟨v.ty, v.ty.view raw⟩) k.args
      (s.arguments (k.args.map Value.ty)) = k.args

/-- Whether outside code was entered with the words that a call passes. -/
def Event.MadeIn (e : Event) (s : Machine.State) : Prop :=
  e.toCall.MadeIn s ∧
    List.zipWith (fun v raw => v.ty.view raw) e.args (s.arguments (e.args.map Value.ty)) = e.sent

/-- Whether outside code was entered for calls, latest first, in states with something to note
about them, and came back with the results of the calls. -/
inductive Logged (h : Machine.Host) (noted : Call → Machine.State → Prop) :
    List Machine.State → List Event → Prop
  | nil : Logged h noted [] []
  | cons {entered events s e f} : Logged h noted entered events → e.MadeIn s → noted e.toCall s →
    h.callees e.target = some f →
    e.ret.settle ((f entered s).named (Convention.returnReg e.ret.regClass)) = e.result →
    Logged h noted (s :: entered) (e :: events)

theorem Logged.exists_entered {h : Machine.Host} {noted : Call → Machine.State → Prop}
    {entered : List Machine.State} {events : List Event} (log : Logged h noted entered events)
    {e : Event} (he : e ∈ events) :
    ∃ s ∈ entered, e.MadeIn s ∧ noted e.toCall s ∧ ∃ f called, h.callees e.target = some f ∧
      e.ret.settle ((f called s).named (Convention.returnReg e.ret.regClass)) = e.result := by
  induction log with
  | nil => cases he
  | cons _ made note callee result ih =>
    rcases List.mem_cons.1 he with rfl | he
    · exact ⟨_, List.mem_cons_self .., made, note, _, _, callee, result⟩
    · obtain ⟨s, hs, rest⟩ := ih he
      exact ⟨s, List.mem_cons_of_mem _ hs, rest⟩

def Storage.word (s : Machine.State) : Storage → Word
  | .register r => s.named r
  | .stack offset => s.memory.load (s.named .rbp + BitVec.ofInt 64 offset) 8
  | .immediate v => v

namespace Lowering

variable (g : Graph) (root : NodeId) (ω : World) (noted : Call → Machine.State → Prop)
variable (h : Machine.Host) (code : Array Byte) (start : Nat)

def Reading (x : NodeId) (A : Moment) (w : Word) : Prop := (g.tyOf x).view w = A.word x

namespace Mark

/-- Control stands at a point of lowering, whose code begins at `start`. -/
def Reached (t : Mark) (c : Machine.Config) : Prop :=
  c.state.pc = h.base + BitVec.ofNat 64 (start + t.offset)

instance (t : Mark) (c : Machine.Config) : Decidable (t.Reached h start c) :=
  inferInstanceAs (Decidable (_ = _))

/-- Every value that is to be read is in its place, and outside code was entered for the calls
that have been made. -/
structure Holds (t : Mark) (A : Moment) (c : Machine.Config) : Prop where
  values : ∀ {x place}, 0 < (t.tables.values.entry x).usesLeft →
    (t.tables.values.entry x).storage = some place →
      A.found x = some ((g.tyOf x).view (place.word c.state))
  log : Logged h noted c.entered A.events

end Mark

namespace Meeting

/-- What is to be read where the arms have met is where it was at the branch, as it was found
there, and the register of the result has the word of the arm. -/
structure Keeps (m : Meeting) (A A' : Moment) (arm : NodeId) (s : Machine.State) : Prop where
  values : ∀ {x place}, 0 < (m.after.tables.values.entry x).usesLeft →
    (m.branch.tables.values.entry x).storage = some place →
      A.found x = some ((g.tyOf x).view (place.word s))
  result : Reading g arm A' (s.named m.result)

/-- How an arm goes that is taken at the branch in `c₀`: a division fails, or its end is reached
and then the place where the arms have met. -/
def Runs (m : Meeting) (A : Moment) (arm : NodeId) (last : Mark) (c₀ : Machine.Config) :
    Except (List Event) Moment → Prop
  | .error events => ∃ n c₁, Machine.Steps h code n c₀ c₁ ∧
      Machine.step h code c₁ = .error .divideError ∧ Logged h noted c₁.entered events
  | .ok A' => ∃ n₁ c₁ n₂ c₂,
      Machine.Steps h code n₁ c₀ c₁ ∧ last.Reached h start c₁ ∧ m.Keeps g A A' arm c₁.state ∧
      Machine.Steps h code n₂ c₁ c₂ ∧ m.after.Reached h start c₂ ∧ m.Keeps g A A' arm c₂.state ∧
        m.after.Holds g noted h A' c₂

/-- From the branch of a conditional a run goes through the arm that the condition selects. It
does there what the schedule says, given what was found before the branch; which NaN arithmetic
gives is left open there. -/
def Crosses (m : Meeting) (s : NodeId) (c₀ : Machine.Config) : Prop :=
  ∃ D c a b A o, g.Fork root D s c a b ∧
    remainingUses m.branch.tables.values = g.remaining root D ∧
    m.branch.Holds g noted h A c₀ ∧
    ω.play g root (World.arm A c a b + 1) D (World.arm A c a b) A o ∧
    m.Runs g noted h code start A (World.arm A c a b)
      (if A.word c != 0 then m.thenEnd else m.elseEnd) c₀ o

end Meeting

end Lowering

end NativeExpr
