import NativeExpr.Proofs.Alike
import NativeExpr.Proofs.Safety

/-!
# What the surroundings determine

Where outside code answers every call in one way only and loads find memory that is known, the
schedule of a function goes one way only, up to the NaNs of floats, which outside code does not
tell apart. The schedule depends on the graph alone, so that functions that were generated for
one root with different options do the same: they make the same calls, fail at the same point of
them, and return the same result.
-/
namespace NativeExpr

open Lowering

/-! ## Moments up to NaNs -/

/-- A call with NaNs unified among the words that it passes. -/
def Event.unify (e : Event) : Event :=
  { e with sent := List.zipWith (fun v w => (Value.unify ⟨v.ty, w⟩).bits) e.args e.sent }

def Moment.unify (g : Graph) (m : Moment) : Moment where
  found x := (m.found x).map fun w => (Value.unify ⟨g.tyOf x, w⟩).bits
  events := m.events.map Event.unify

def World.unifyOutcome (g : Graph) : Except (List Event) Moment → Except (List Event) Moment
  | .ok m => .ok (m.unify g)
  | .error events => .error (events.map Event.unify)

/-- Whether what has been found and called is the same up to NaNs. -/
def Moment.Alike (g : Graph) (m m' : Moment) : Prop := m.unify g = m'.unify g

namespace Moment.Alike

variable {g : Graph} {m m' : Moment} {id x : NodeId} {w w' : Word}

theorem outcome (h : m.Alike g m') :
    World.unifyOutcome g (.ok m) = World.unifyOutcome g (.ok m') := congrArg Except.ok h

theorem value (h : m.Alike g m') (x : NodeId) : (m.value g x).Alike (m'.value g x) := by
  have found : (m.found x).map _ = (m'.found x).map _ := congrFun (congrArg Moment.found h) x
  unfold Moment.value Moment.word
  cases first : m.found x <;> cases second : m'.found x <;> rw [first, second] at found
  · rfl
  · cases found
  · cases found
  · exact .of_bits rfl (Option.some.inj found)

theorem word (h : m.Alike g m') (general : (g.tyOf x).precision? = none) :
    m.word x = m'.word x :=
  congrArg Value.bits ((h.value x).eq general)

theorem calls (h : m.Alike g m') : m.calls = m'.calls := by
  have events : (m.events.map Event.unify).map Event.toCall =
      (m'.events.map Event.unify).map Event.toCall :=
    congrArg (fun m => m.events.map Event.toCall) h
  rwa [List.map_map, List.map_map] at events

theorem callOf (h : m.Alike g m') (target : Word) (args : List NodeId) (ret : ScalarType) :
    World.callOf g m target args ret = World.callOf g m' target args ret :=
  congrArg (Call.mk target · ret) (List.map_congr_left fun x _ => h.value x)

theorem find (h : m.Alike g m') (alike : Value.Alike ⟨g.tyOf id, w⟩ ⟨g.tyOf id, w'⟩) :
    (m.find id w).Alike g (m'.find id w') := by
  refine congrArg₂ Moment.mk (funext fun x => ?_) (congrArg Moment.events h)
  unfold Moment.find
  dsimp only
  split
  · next same => exact same ▸ congrArg (fun v => some (Value.bits v)) alike
  · exact congrFun (congrArg Moment.found h) x

theorem call (h : m.Alike g m') (target : Word) (args : List NodeId) (ret : ScalarType) :
    (m.call ⟨World.callOf g m target args ret, id, args.map m.word, w⟩).Alike g
      (m'.call ⟨World.callOf g m' target args ret, id, args.map m'.word, w⟩) := by
  refine congrArg₂ Moment.mk (congrArg Moment.found h)
    (congrArg₂ List.cons ?_ (congrArg Moment.events h))
  rw [← h.callOf]
  refine congrArg (Event.mk _ id · w) ?_
  simp only [World.callOf, List.zipWith_map, List.zipWith_self, Value.ty_unify]
  exact List.map_congr_left fun x _ => congrArg Value.bits (h.value x)

end Moment.Alike

/-! ## Courses that leave no choice -/

/-- Whether a way in which one course goes is, up to NaNs, the only one of another course. -/
def Course.Forces (g : Graph) (R S : Course) : Prop :=
  ∀ m m' o o', m.Alike g m' → R m o → S m' o' → World.unifyOutcome g o = World.unifyOutcome g o'

namespace Course

variable {g : Graph} {R R' S S' : Course}

theorem forces_stay : stay.Forces g stay := by
  rintro m m' _ _ alike rfl rfl
  exact alike.outcome

theorem Forces.andThen (h : R.Forces g R') (h' : S.Forces g S') :
    (R.andThen S).Forces g (R'.andThen S') := by
  rintro m m' o o' alike (⟨m₁, first, rest⟩ | ⟨e, first, rfl⟩)
    (⟨m₂, first', rest'⟩ | ⟨e', first', rfl⟩)
  · exact h' m₁ m₂ o o' (Except.ok.inj (h m m' _ _ alike first first')) rest rest'
  · cases h m m' _ _ alike first first'
  · cases h m m' _ _ alike first first'
  · exact h m m' _ _ alike first first'

end Course

namespace World

variable {ω : World} {g : Graph} {D : Finset NodeId} {root id : NodeId} {n : Node}
variable {visit visit' : NodeId → Node → Course}

theorem forces_visitAll {step step' : Finset NodeId → NodeId → Course}
    (h : ∀ D x, (step D x).Forces g (step' D x)) (xs : List NodeId) :
    (visitAll g step D xs).Forces g (visitAll g step' D xs) := by
  induction xs generalizing D with
  | nil => exact Course.forces_stay
  | cons x xs ih => exact (h D x).andThen ih

theorem forces_playBy (wf : g.WellFormed)
    (h : ∀ id n, g.node? id = some n → (visit id n).Forces g (visit' id n)) (depth : Nat) :
    (playBy g visit root depth D id).Forces g (playBy g visit' root depth D id) := by
  induction depth generalizing D id with
  | zero => exact fun _ _ _ _ _ no => no.elim
  | succ depth ih =>
    by_cases hD : id ∈ D
    · rw [playBy_of_mem hD, playBy_of_mem hD]
      exact Course.forces_stay
    cases hn : g.node? id with
    | none =>
      rw [playBy_none hD hn]
      exact fun _ _ _ _ _ no => no.elim
    | some n =>
      by_cases hk : ∃ c a b, n.kind = .select c a b
      · obtain ⟨c, a, b, hk⟩ := hk
        obtain ⟨kind, t⟩ := n
        cases hk
        rw [playBy_select hD hn rfl, playBy_select hD hn rfl]
        refine (forces_visitAll (fun D x => ih) _).andThen fun m m' o o' alike => ?_
        obtain ⟨cond, -, -⟩ := wf.typed hn
        have cond : (g.tyOf c).precision? = none := by rw [cond.tyOf_eq]; rfl
        have same : arm m' c a b = arm m c a b := by rw [arm, arm, alike.word cond]
        rw [same]
        refine Course.Forces.andThen ih ?_ m m' o o' alike
        rintro m₁ m₂ _ _ alike rfl rfl
        refine (alike.find ?_).outcome
        rw [← tyOf_arm wf hn m]
        exact alike.value _
      · have hk : ∀ c a b, n.kind ≠ .select c a b := fun c a b h => hk ⟨c, a, b, h⟩
        rw [playBy_node hD hn hk, playBy_node hD hn hk]
        exact (forces_visitAll (fun D x => ih) _).andThen (h id n hn)

/-! ## Loads from known memory -/

/-- Whether memory of some type at an address is known. -/
def Covers (ω : World) (ty : ScalarType) (address : Word) : Prop :=
  ∀ i < ty.size, ω.heap (address + BitVec.ofNat 64 i) = true

/-- Whether a node, if it is a load, reads memory that is known. -/
def Reads (ω : World) (m : Moment) (n : Node) : Prop :=
  match n.kind with
  | .field base offset => ω.Covers n.ty (fieldAddress (m.word base) offset)
  | .element base index => ω.Covers n.ty (elementAddress (m.word base) (m.word index) n.ty)
  | _ => True

def visitKnown (ω : World) (g : Graph) (id : NodeId) (n : Node) : Course := fun m o =>
  ω.Reads m n ∧ ω.visit g id n m o

/-- What a function does that loads from known memory only. -/
def courseKnown (ω : World) (g : Graph) (root : NodeId) : Course :=
  Course.andThen (fun m o => o = .ok (ω.enter g (g.inputs root) m))
    (playBy g (ω.visitKnown g) root (root + 1) (g.inputs root) root)

/-- Whether outside code answers each call in one way only. -/
def Functional (ω : World) : Prop :=
  ∀ calls k w w', ω.reply calls k w → ω.reply calls k w' → k.ret.settle w = k.ret.settle w'

theorem loads_unique {m m' : Moment} {ty : ScalarType} {address w w' : Word}
    (covers : ω.Covers ty address) (calls : m.calls = m'.calls) (h : ω.Loads m ty address w)
    (h' : ω.Loads m' ty address w') : w = w' := by
  obtain ⟨raw, rfl, known⟩ := h
  obtain ⟨raw', rfl, known'⟩ := h'
  rw [known covers, known' covers, calls]

/-- Arithmetic does the same where its operands are the same up to NaNs. -/
theorem outcome_arith {m m' : Moment} {o o' : Except (List Event) Moment} {op : ArithOp}
    {lhs rhs : NodeId} (alike : m.Alike g m') (left : g.tyOf lhs = g.tyOf id)
    (right : g.tyOf rhs = g.tyOf id) (ho : ω.visit g id ⟨.arith op lhs rhs, g.tyOf id⟩ m o)
    (ho' : ω.visit g id ⟨.arith op lhs rhs, g.tyOf id⟩ m' o') :
    unifyOutcome g o = unifyOutcome g o' := by
  simp only [visit] at ho ho'
  cases hp : (g.tyOf id).precision? with
  | some p =>
    rw [hp] at ho ho'
    cases hf : op.float? with
    | some f =>
      rw [hf] at ho ho'
      obtain ⟨w, result, rfl⟩ := ho
      obtain ⟨w', result', rfl⟩ := ho'
      refine (alike.find ((Value.Alike.float_iff hp).2 ?_)).outcome
      rw [result, result']
      refine Precision.apply_congr ((alike.value lhs).bits ?_) ((alike.value rhs).bits ?_)
      · exact (congrArg _ left).trans hp
      · exact (congrArg _ right).trans hp
    | none =>
      rw [hf] at ho
      exact ho.elim
  | none =>
    rw [hp] at ho ho'
    rw [alike.word (left ▸ hp), alike.word (right ▸ hp)] at ho
    cases hw : op.evalInt (g.tyOf id) (m'.word lhs) (m'.word rhs) <;> rw [hw] at ho ho' <;>
      cases ho <;> cases ho'
    · exact congrArg (Except.error ·.events) alike
    · exact (alike.find rfl).outcome

theorem forces_visit (wf : g.WellFormed) (functional : ω.Functional) (hn : g.node? id = some n) :
    (ω.visitKnown g id n).Forces g (ω.visit g id n) := by
  rintro m m' o o' alike ⟨reads, ho⟩ ho'
  have typed := wf.typed hn
  obtain ⟨kind, t⟩ := n
  obtain rfl : g.tyOf id = t := (Graph.hasType_of_node? hn).tyOf_eq
  have same (w : Word) : unifyOutcome g (.ok (m.find id w)) = unifyOutcome g (.ok (m'.find id w)) :=
    (alike.find rfl).outcome
  cases kind with
  | immediate value => cases value <;> cases ho <;> cases ho' <;> exact same _
  | parameter => exact ho.elim
  | select => exact ho.elim
  | arith op lhs rhs =>
    obtain ⟨left, right, -⟩ := typed
    exact outcome_arith alike left.tyOf_eq right.tyOf_eq ho ho'
  | logic op lhs rhs =>
    obtain ⟨left, right, kind⟩ := typed
    have general := ScalarType.precision?_eq_none.2 (Graph.isFloat_of_logic kind)
    cases ho
    cases ho'
    rw [alike.word (left.tyOf_eq ▸ general), alike.word (right.tyOf_eq ▸ general)]
    exact same _
  | compare pred lhs rhs =>
    obtain ⟨⟨t, left, right⟩, -⟩ := typed
    cases ho
    cases ho'
    have order := (alike.value lhs).order (alike.value rhs) (right.tyOf_eq.trans left.tyOf_eq.symm)
    rw [Value.compare, order]
    exact same _
  | field base offset =>
    obtain ⟨pointer, -⟩ := typed
    have base : m.word base = m'.word base := alike.word (by rw [pointer.tyOf_eq]; rfl)
    obtain ⟨w, loads, rfl⟩ := ho
    obtain ⟨w', loads', rfl⟩ := ho'
    rw [loads_unique reads alike.calls loads (base ▸ loads')]
    exact same _
  | element base index =>
    obtain ⟨pointer, t, position, integer⟩ := typed
    have base : m.word base = m'.word base := alike.word (by rw [pointer.tyOf_eq]; rfl)
    have index : m.word index = m'.word index := alike.word (by
      rw [position.tyOf_eq]
      exact ScalarType.precision?_eq_none.2 (ScalarType.isFloat_of_isInteger integer))
    obtain ⟨w, loads, rfl⟩ := ho
    obtain ⟨w', loads', rfl⟩ := ho'
    rw [loads_unique reads alike.calls loads (base ▸ index ▸ loads')]
    exact same _
  | call target args =>
    obtain ⟨w, reply, rfl⟩ := ho
    obtain ⟨w', reply', rfl⟩ := ho'
    rw [← alike.calls, ← alike.callOf] at reply'
    have result : (g.tyOf id).settle w' = (g.tyOf id).settle w := functional _ _ _ _ reply' reply
    dsimp only
    rw [result]
    exact ((alike.call target args _).find rfl).outcome
  | cast x =>
    cases ho
    cases ho'
    exact (alike.find (alike.value x).convert).outcome

/-- Where loads read known memory the schedule has one way to go. -/
theorem course_unique (wf : g.WellFormed) (functional : ω.Functional) {m : Moment}
    {o o' : Except (List Event) Moment} (known : ω.courseKnown g root m o)
    (course : ω.course g root m o') : unifyOutcome g o = unifyOutcome g o' := by
  refine Course.Forces.andThen ?_
    (forces_playBy wf (fun id n hn => forces_visit wf functional hn) _) m m o o' rfl known course
  rintro m m' _ _ alike rfl rfl
  refine Moment.Alike.outcome
    (congrArg₂ Moment.mk (funext fun x => ?_) (congrArg Moment.events alike))
  unfold enter
  dsimp only
  split
  · rfl
  · exact congrFun (congrArg Moment.found alike) x

/-- A step that knows more than another one keeps what the other one does. -/
theorem visitAll_of_keeps {I : Finset NodeId} {step step' : Finset NodeId → NodeId → Course}
    {m₀ : Moment} {xs : List NodeId} {m : Moment} {o : Except (List Event) Moment}
    (keeps : ∀ D x m o, I ⊆ D → step D x m o → Keeps I m o)
    (h : ∀ D x m o, I ⊆ D → Keeps I m₀ (.ok m) → step D x m o → step' D x m o)
    (le : I ⊆ D) (kept : Keeps I m₀ (.ok m)) (ho : visitAll g step D xs m o) :
    visitAll g step' D xs m o := by
  induction xs generalizing D m with
  | nil => exact ho
  | cons x xs ih =>
    rw [visitAll] at ho ⊢
    rcases ho with ⟨m', first, rest⟩ | ⟨events, first, rfl⟩
    · refine Course.andThen_ok (h D x m _ le kept first) ?_
      refine ih (le.trans Finset.subset_union_left) (fun y hy => ?_) rest
      exact (keeps D x m _ le first y hy).trans (kept y hy)
    · exact Course.andThen_error (h D x m _ le kept first)

/-- If loads read known memory whenever some nodes are as they were found first, then a function
that has found them loads from known memory. -/
theorem playKnown_of_play {I : Finset NodeId} {m₀ : Moment}
    (reads : ∀ id n m, g.node? id = some n → Keeps I m₀ (.ok m) → ω.Reads m n) {depth : Nat}
    {m : Moment} {o : Except (List Event) Moment} (le : I ⊆ D) (kept : Keeps I m₀ (.ok m))
    (ho : ω.play g root depth D id m o) : playBy g (ω.visitKnown g) root depth D id m o := by
  induction depth generalizing D id m o with
  | zero => exact ho
  | succ depth ih =>
    by_cases hD : id ∈ D
    · rw [play_of_mem hD] at ho
      rwa [playBy_of_mem hD]
    have keeps (D : Finset NodeId) (x : NodeId) (m : Moment) (o : Except (List Event) Moment)
        (le : I ⊆ D) (ho : ω.play g root depth D x m o) : Keeps I m o := keeps_play le o ho
    have operands {xs : List NodeId} {o : Except (List Event) Moment}
        (h : visitAll g (ω.play g root depth) D xs m o) :
        visitAll g (playBy g (ω.visitKnown g) root depth) D xs m o :=
      visitAll_of_keeps keeps (fun D x m o le kept ho => ih le kept ho) le kept h
    have later {xs : List NodeId} {m' : Moment}
        (h : visitAll g (ω.play g root depth) D xs m (.ok m')) : Keeps I m₀ (.ok m') :=
      fun y hy => (keeps_visitAll _ keeps le m _ h y hy).trans (kept y hy)
    cases hn : g.node? id with
    | none =>
      rw [World.play, playBy_none hD hn] at ho
      exact ho.elim
    | some n =>
      by_cases hk : ∃ c a b, n.kind = .select c a b
      · obtain ⟨c, a, b, hk⟩ := hk
        rw [play_select hD hn hk, choose] at ho
        rw [playBy_select hD hn hk, choose]
        rcases ho with ⟨m', first, rest⟩ | ⟨events, first, rfl⟩
        · refine Course.andThen_ok (operands first) ?_
          rcases rest with ⟨m'', arm, last⟩ | ⟨events, arm, rfl⟩
          · exact Course.andThen_ok (ih (le.trans Graph.subset_doneAfter) (later first) arm) last
          · exact Course.andThen_error (ih (le.trans Graph.subset_doneAfter) (later first) arm)
        · exact Course.andThen_error (operands first)
      · have hk : ∀ c a b, n.kind ≠ .select c a b := fun c a b h => hk ⟨c, a, b, h⟩
        rw [play_node hD hn hk] at ho
        rw [playBy_node hD hn hk]
        rcases ho with ⟨m', first, rest⟩ | ⟨events, first, rfl⟩
        · exact Course.andThen_ok (operands first) ⟨reads id n m' hn (later first), rest⟩
        · exact Course.andThen_error (operands first)

/-- A function whose nodes load from known memory, whatever it finds for nodes other than its
inputs, does so. -/
theorem courseKnown_of_course {m : Moment} {o : Except (List Event) Moment}
    (reads : ∀ id n m', g.node? id = some n →
      Keeps (g.inputs root) (ω.enter g (g.inputs root) m) (.ok m') → ω.Reads m' n)
    (course : ω.course g root m o) : ω.courseKnown g root m o := by
  rcases course with ⟨_, entered, play⟩ | ⟨events, entered, rfl⟩
  · cases entered
    refine Course.andThen_ok rfl ?_
    exact playKnown_of_play reads (Finset.Subset.refl _) (fun _ _ => rfl) play
  · cases entered

end World

/-! ## Options -/

theorem Logged.madeIn {h : Machine.Host} {noted : Call → Machine.State → Prop}
    {entered : List Machine.State} {events : List Event} (log : Logged h noted entered events) :
    List.Forall₂ (fun s (e : Event) => e.MadeIn s) entered events := by
  induction log with
  | nil => exact .nil
  | cons _ made _ _ _ ih => exact .cons made ih

namespace Graph

open Machine

variable {g : Graph} {root : NodeId} {o₁ o₂ : Options} {ω : World} {h₁ h₂ : Host}
variable {noted₁ noted₂ : Call → Machine.State → Prop} {s₁ s₂ : Machine.State} {c₁ c₂ : Generated}

/-- The value that a function for a root has returned in a state. -/
def resultIn (g : Graph) (root : NodeId) (s : Machine.State) : Value :=
  ⟨g.tyOf root, (g.tyOf root).view (s.named (Convention.returnReg (g.tyOf root).regClass))⟩

/-- Two functions that were generated for one root with different options, entered with the same
arguments in the same memory and with outside code that answers a call by its arguments and the
calls before it: they make the same calls with the same arguments, both return or both fail in a
division after the same calls, and they return the same, all that up to NaNs, which outside code
does not tell apart. What they load is apart from the stack that they use. -/
theorem options_agree (built : g.Built) (generated₁ : g.generate root o₁ = .ok c₁)
    (generated₂ : g.generate root o₂ = .ok c₂) (compact₁ : g.Compact root c₁.image)
    (compact₂ : g.Compact root c₂.image) (entered₁ : g.Entered ω h₁ noted₁ root c₁.image s₁)
    (entered₂ : g.Entered ω h₂ noted₂ root c₂.image s₂) (functional : ω.Functional)
    (known : ∃ a, ω.courseKnown g root ⟨fun _ => none, []⟩ a) :
    ∃ events₁ events₂ out₁ called₁ out₂ called₂,
      run h₁ c₁.image.bytes (stepBound c₁.image.bytes) ⟨[], s₁⟩ = (out₁, called₁) ∧
      run h₂ c₂.image.bytes (stepBound c₂.image.bytes) ⟨[], s₂⟩ = (out₂, called₂) ∧
      List.Forall₂ (fun s (e : Event) => e.MadeIn s) called₁ events₁ ∧
      List.Forall₂ (fun s (e : Event) => e.MadeIn s) called₂ events₂ ∧
      events₁.map Event.unify = events₂.map Event.unify ∧
      (out₁ = .divideError ∧ out₂ = .divideError ∨
        ∃ t₁ t₂, out₁ = .returned t₁ ∧ out₂ = .returned t₂ ∧
          (g.resultIn root t₁).Alike (g.resultIn root t₂)) := by
  obtain ⟨a, known⟩ := known
  obtain ⟨σ₁, _, _, lowered₁, -⟩ := generate_eq_ok generated₁
  obtain ⟨σ₂, _, _, lowered₂, -⟩ := generate_eq_ok generated₂
  obtain ⟨L₁, rfl, code₁, -, a₁, d₁, out₁, course₁, finishes₁, concludes₁⟩ :=
    built.runs generated₁ lowered₁ compact₁ entered₁
  obtain ⟨L₂, rfl, code₂, -, a₂, d₂, out₂, course₂, finishes₂, concludes₂⟩ :=
    built.runs generated₂ lowered₂ compact₂ entered₂
  have agree := (World.course_unique built.wellFormed functional known course₁).symm.trans
    (World.course_unique built.wellFormed functional known course₂)
  have run₁ := code₁ ▸ finishes₁.run_eq
  have run₂ := code₂ ▸ finishes₂.run_eq
  cases a₁ with
  | ok A =>
    cases a₂ with
    | error => cases agree
    | ok B =>
      have alike : A.Alike g B := Except.ok.inj agree
      obtain ⟨t₁, rfl, reading₁, -, log₁, -⟩ := concludes₁.ok
      obtain ⟨t₂, rfl, reading₂, -, log₂, -⟩ := concludes₂.ok
      refine ⟨A.events, B.events, _, _, _, _, run₁, run₂, log₁.madeIn, log₂.madeIn,
        congrArg Moment.events alike, .inr ⟨t₁, t₂, rfl, rfl, ?_⟩⟩
      rw [resultIn, resultIn, reading₁, reading₂]
      exact alike.value root
  | error events =>
    cases a₂ with
    | ok => cases agree
    | error events' =>
      obtain ⟨rfl, log₁⟩ := concludes₁.error
      obtain ⟨rfl, log₂⟩ := concludes₂.error
      exact ⟨events, events', _, _, _, _, run₁, run₂, log₁.madeIn, log₂.madeIn,
        Except.error.inj agree, .inl ⟨rfl, rfl⟩⟩

theorem functional_around {heap : Word → Bool} {answer : Call → Word} :
    (g.around s₁ heap answer).Functional := by
  rintro _ _ _ _ rfl rfl
  rfl

def weighHeap (a : Word) : Bool :=
  decide (0x100000000008 ≤ a.toNat ∧ a.toNat < 0x100000000010)

def weighAnswer (k : Call) : Word := square.result (k.args.map Value.bits)

theorem serves_square {k : Call} (calls : weigh.Calls 7 k) (size height : Nat) (low : Word) :
    (weigh.around weighEntry weighHeap weighAnswer).Serves square.alone (fun _ _ => True) size low
      height k := by
  obtain ⟨x, -, args, hn, types⟩ := calls
  obtain ⟨target, values, ret⟩ := k
  obtain ⟨rfl, rfl, rfl⟩ := weigh_call hn
  refine serves_around square rfl rfl (fun s made => ?_) size height low
  obtain ⟨bits, rfl⟩ := Value.eq_singleton (types : values.map Value.ty = [.f64])
  have passed : Precision.double.unifyNaN ((s.arguments [.f64]).headD 0) = bits :=
    congrArg Value.bits (List.cons.inj made.2).1
  have alike : Precision.double.unifyNaN ((s.arguments [.f64]).headD 0) =
      Precision.double.unifyNaN bits := by
    rw [← passed, Precision.unifyNaN_unifyNaN]
  show ScalarType.f64.settle (Precision.double.apply .mul ((s.arguments [.f64]).headD 0)
    ((s.arguments [.f64]).headD 0)) = ScalarType.f64.settle (Precision.double.apply .mul bits bits)
  rw [Precision.apply_congr alike alike]

/-- A function for the root is entered in the same surroundings whatever the options are. -/
theorem exists_entered_weigh {o : Options} (small : weigh.isSmall 7 o = true) :
    ∃ c, weigh.generate 7 o = .ok c ∧ weigh.Compact 7 c.image ∧
      weigh.Entered (weigh.around weighEntry weighHeap weighAnswer) square.alone
        (fun _ _ => True) 7 c.image weighEntry := by
  obtain ⟨c, hc, compact, loaded⟩ := exists_loaded_weigh small
  have frame := compact.frame
  have calls : weigh.callRoom 7 = 8 := by decide +kernel
  have stack : weighEntry.named .rsp = 0x7fff00000008 := by decide +kernel
  have beyond (a : Word) (ha : weighHeap a = true) :
      weigh.isBeyond 7 c.image weighEntry a = true := by
    have inside := of_decide_eq_true ha
    refine isBeyond_of_lt ?_
    rw [stack, stackRoom, calls, show (0x7fff00000008 : Word).toNat = 0x7fff00000008 from rfl]
    omega
  exact ⟨c, hc, compact, entered_around _ loaded beyond fun k made => serves_square made _ _ _⟩

/-- The pointer stays as it is, so that the load is from where the number is. -/
theorem reads_weigh {id : NodeId} {n : Node} {m : Moment} (hn : weigh.node? id = some n)
    (kept : World.Keeps (weigh.inputs 7)
      ((weigh.around weighEntry weighHeap weighAnswer).enter weigh (weigh.inputs 7)
        ⟨fun _ => none, []⟩) (.ok m)) :
    (weigh.around weighEntry weighHeap weighAnswer).Reads m n := by
  have kinds : ∀ n ∈ weigh.nodes, (∀ b i, n.kind ≠ .element b i) ∧
      ∀ b f, n.kind = .field b f → b = 0 ∧ f = 8 ∧ n.ty = .f64 := by
    simp [weigh]
  obtain ⟨noElement, field⟩ := kinds n (Array.mem_of_getElem? hn)
  obtain ⟨kind, ty⟩ := n
  cases kind with
  | element base index => exact absurd rfl (noElement base index)
  | field base offset =>
    obtain ⟨rfl, rfl, rfl⟩ := field base offset rfl
    have pointer : m.found 0 = some 0x100000000000 :=
      (kept 0 (by decide +kernel)).trans (by decide +kernel)
    show World.Covers _ .f64 (fieldAddress (m.word 0) 8)
    rw [Moment.word, pointer]
    exact (by decide +kernel : ∀ i < 8, weighHeap (0x100000000008 + BitVec.ofNat 64 i) = true)
  | immediate | parameter | arith | logic | compare | select | call | cast => trivial

/-- The two functions swap operands in different places and return different NaNs. -/
theorem options_agree_weigh : ∃ c₁ c₂, weigh.generate 7 .default = .ok c₁ ∧
    weigh.generate 7 ⟨65536, 4, 2, false⟩ = .ok c₂ ∧
    ∃ (events₁ events₂ : List Event) (t₁ t₂ : Machine.State) (called₁ called₂ : List Machine.State),
      run square.alone c₁.image.bytes (stepBound c₁.image.bytes) ⟨[], weighEntry⟩ =
        (.returned t₁, called₁) ∧
      run square.alone c₂.image.bytes (stepBound c₂.image.bytes) ⟨[], weighEntry⟩ =
        (.returned t₂, called₂) ∧
      List.Forall₂ (fun s (e : Event) => e.MadeIn s) called₁ events₁ ∧
      List.Forall₂ (fun s (e : Event) => e.MadeIn s) called₂ events₂ ∧
      events₁.map Event.unify = events₂.map Event.unify ∧ called₁.length = 1 ∧
      t₁.named (.xmm 0) = 0x7ff8000000000001 ∧ t₂.named (.xmm 0) = 0x7ff8000000000002 ∧
      (weigh.resultIn 7 t₁).Alike (weigh.resultIn 7 t₂) := by
  obtain ⟨c₁, hc₁, compact₁, entered₁⟩ := @exists_entered_weigh .default (by decide +kernel)
  obtain ⟨c₂, hc₂, compact₂, entered₂⟩ :=
    @exists_entered_weigh ⟨65536, 4, 2, false⟩ (by decide +kernel)
  obtain ⟨_, _, runs₁, word₁, once⟩ := of_weighs (of_generatesWith
    (weighs 0x7ff8000000000001) (by decide +kernel) hc₁)
  obtain ⟨_, _, runs₂, word₂, -⟩ := of_weighs (of_generatesWith
    (weighs 0x7ff8000000000002) (by decide +kernel) hc₂)
  obtain ⟨σ, _, _, lowered, -⟩ := generate_eq_ok hc₁
  obtain ⟨_, -, -, -, a, _, _, course, -⟩ := built_weigh.runs hc₁ lowered compact₁ entered₁
  have known := World.courseKnown_of_course (fun _ _ _ hn kept => reads_weigh hn kept) course
  obtain ⟨events₁, events₂, out₁, called₁, out₂, called₂, run₁, run₂, made₁, made₂, same, ends⟩ :=
    options_agree built_weigh hc₁ hc₂ compact₁ compact₂ entered₁ entered₂ functional_around
      ⟨a, known⟩
  have first := run₁.symm.trans runs₁
  have second := run₂.symm.trans runs₂
  cases first
  cases second
  refine ⟨c₁, c₂, hc₁, hc₂, events₁, events₂, _, _, _, _, run₁, run₂, made₁, made₂, same, once,
    word₁, word₂, ?_⟩
  rcases ends with ⟨no, -⟩ | ⟨t₁, t₂, h₁, h₂, alike⟩
  · cases no
  · cases h₁
    cases h₂
    exact alike

end Graph

end NativeExpr
