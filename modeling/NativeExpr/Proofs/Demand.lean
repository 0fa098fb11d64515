import NativeExpr.Proofs.Calls
import NativeExpr.Proofs.Correctness
import NativeExpr.Proofs.Graph.Bypass

/-!
# Calls on demand

A generated function makes the call of a node at most once, with the values of its arguments, and
what the call returns is the value of the node. It makes every call that lazy evaluation of its
root comes to. A call that is needed through one arm of a conditional only is made only if the
condition selects that arm.
-/
namespace NativeExpr

open Lowering

namespace Moment

variable {s : Scope} {answer : Call → Word} {ω : World} {root id : NodeId} {D D' : Finset NodeId}
variable {m m' : Moment} {w : Word}

/-- What is known of a moment of a function whose calls are answered: it has found values and
recorded calls, no node has made two calls, what a call returned is the value of its node, and
what a node needs was found before it. -/
structure Demanded (s : Scope) (answer : Call → Word) (root : NodeId) (D : Finset NodeId)
    (m : Moment) : Prop where
  evaluated : m.Evaluated s answer root D
  recorded : m.Recorded s.graph D
  once : (m.events.map Event.node).Nodup
  replied : ∀ e ∈ m.events, s.answered answer e.node = .ok ⟨e.ret, e.result⟩
  supported : ∀ {x y}, m.found x ≠ none → s.Needs answer x y → m.found y ≠ none

theorem Demanded.supported_find (h : m.Demanded s answer root D)
    (own : ∀ {y}, s.Needs answer id y → m.found y ≠ none) {x y : NodeId}
    (found : (m.find id w).found x ≠ none) (needs : s.Needs answer x y) :
    (m.find id w).found y ≠ none := by
  have before : m.found y ≠ none := by
    by_cases same : x = id
    · exact own (same ▸ needs)
    · rw [found_find_of_ne same] at found
      exact h.supported found needs
  by_cases same : y = id
  · rw [same, show (m.find id w).found id = some w from if_pos rfl]
    exact Option.some_ne_none w
  · rwa [found_find_of_ne same]

end Moment

namespace World

open Moment

variable {ω : World} {s : Scope} {answer : Call → Word} {root id : NodeId} {D : Finset NodeId}
variable {m : Moment} {o : Except (List Event) Moment}

theorem maintains_demanded (describes : s.Describes answer ω root)
    (express : ∀ x ∈ s.graph.below root, Expressible s.graph x) :
    ω.Maintains s.graph root (fun D m => m.Demanded s answer root D) fun _ => True where
  visit := by
    intro D id n m o below fresh closed hn operands h ho
    have w := describes.wellFormed
    have evaluated := (maintains_evaluated describes express).visit below fresh closed hn operands
      h.evaluated ho
    have recorded := (@maintains_recorded ω s.graph root w).visit below fresh closed hn operands
      h.recorded ho
    have own {y : NodeId} (needs : s.Needs answer id y) : m.found y ≠ none := by
      cases needs with
      | operand node kind mem =>
        rw [hn] at node
        cases node
        refine h.evaluated.complete (operands y mem) (Nat.lt_of_lt_of_le ?_
          (Graph.edges_le_pending below fresh))
        exact Graph.edges_pos.2 ((Graph.operandsOf_eq hn).symm ▸ mem)
      | condition node | arm node =>
        rw [hn] at node
        cases node
        exact ho.elim
    rcases visit_cases ho with ⟨u, -, rfl⟩ | ⟨target, args, u, kind, reply, rfl⟩ | rfl
    · exact ⟨evaluated, recorded, h.once, h.replied, h.supported_find own⟩
    · refine ⟨evaluated, recorded, List.nodup_cons.2 ⟨fun hm => ?_, h.once⟩, fun e he => ?_,
        h.supported_find own⟩
      · obtain ⟨e, he, same⟩ := List.mem_map.1 hm
        obtain ⟨_, _, -, -, result⟩ := h.recorded.sent e he
        have same : e.node = id := same
        exact fresh (same ▸ h.recorded.settled.inside _ _ result)
      · obtain ⟨kind', t⟩ := n
        cases kind
        rcases List.mem_cons.1 he with rfl | he
        · exact answered_call describes hn
            (fun y hy => h.evaluated.gives (own (.operand hn nofun hy))) reply
        · exact h.replied e he
    · trivial
  choose := by
    intro D y c a b n m m' fork hn kind before keeps h
    have w := describes.wellFormed
    obtain ⟨_, t⟩ := n
    cases kind
    have evaluated := (maintains_evaluated describes express).choose fork hn rfl before.evaluated
      keeps h.evaluated
    have recorded := (@maintains_recorded ω s.graph root w).choose fork hn rfl before.recorded
      keeps h.recorded
    have done := fork.cond_mem_ahead w
    have pending := fork.pending_operand (fork.notMem_ahead w) (List.mem_cons_self ..)
    have cond : m'.found c ≠ none := by
      rw [keeps c done]
      exact before.evaluated.complete done pending
    obtain ⟨bool, -, -⟩ := w.typed hn
    have value := (before.evaluated.answered done pending).eq bool.tyOf_eq rfl
    have operand : arm m c a b ∈ [c, a, b] := Graph.Fork.arm_mem m
    have chosen : m'.found (arm m c a b) ≠ none :=
      h.evaluated.complete (Finset.mem_union_right _ (fork.self_mem_below w operand))
        (fork.pending_operand (fun hy => fork.notMem_arms w (Graph.Fork.arm_subset m hy)) operand)
    refine ⟨evaluated, recorded, h.once, h.replied, h.supported_find fun {z} needs => ?_⟩
    cases needs with
    | operand node kind =>
      rw [hn] at node
      cases node
      exact absurd rfl (kind c a b)
    | condition node =>
      rw [hn] at node
      cases node
      exact cond
    | arm node found =>
      rw [hn] at node
      cases node
      rw [value] at found
      cases found
      exact chosen

theorem demanded_enter (describes : s.Describes answer ω root) :
    (ω.enter s.graph (s.graph.inputs root) ⟨fun _ => none, []⟩).Demanded s answer root
      (s.graph.inputs root) := by
  have parameter {x : NodeId} (found : (ω.enter s.graph (s.graph.inputs root)
      ⟨fun _ => none, []⟩).found x ≠ none) : ∃ i t, s.graph.node? x = some ⟨.parameter i, t⟩ := by
    obtain ⟨u, hu⟩ := Option.ne_none_iff_exists'.1 found
    obtain ⟨-, i, t, hn, -⟩ := found_enter hu
    exact ⟨i, t, hn⟩
  refine ⟨evaluated_enter describes, ⟨settled_enter _, nofun, ?_⟩, List.nodup_nil, nofun, ?_⟩
  · intro x target args ret found hn
    obtain ⟨i, t, hn'⟩ := parameter found
    rw [hn] at hn'
    cases hn'
  · intro x y found needs
    obtain ⟨i, t, hn⟩ := parameter found
    cases needs with
    | operand node kind mem =>
      rw [hn] at node
      cases node
      cases mem
    | condition node | arm node =>
      rw [hn] at node
      cases node

end World

/-! ## Calls behind one arm -/

namespace Moment

variable {g : Graph} {root y c a b id : NodeId} {taken : Bool} {D D' : Finset NodeId}
variable {m m' : Moment} {w : Word}

/-- Whether the condition of a conditional was found to select one of its arms. -/
structure Takes (c : NodeId) (taken : Bool) (D : Finset NodeId) (m : Moment) : Prop where
  done : c ∈ D
  found : m.found c ≠ none
  selects : (m.word c != 0) = taken

theorem Takes.keeps (h : m.Takes c taken D) (le : D ⊆ D') (keeps : World.Keeps D m (.ok m')) :
    m'.Takes c taken D' := by
  have same : m'.found c = m.found c := keeps c h.done
  exact ⟨le h.done, same ▸ h.found, by rw [word, same]; exact h.selects⟩

theorem Takes.called (h : m.Takes c taken D) (e : Event) : (m.call e).Takes c taken D :=
  ⟨h.done, h.found, h.selects⟩

/-- Whether the nodes that have no way around an arm were found only if the arm was selected,
arguments apart. -/
def Guarded (g : Graph) (root y c a b : NodeId) (taken : Bool) (D : Finset NodeId) (m : Moment) :
    Prop :=
  ∀ z, m.found z ≠ none → g.isParameter z = false →
    ¬ g.Bypasses y (Graph.keptBy c a b taken) root z → m.Takes c taken D

theorem Guarded.called (h : m.Guarded g root y c a b taken D) (e : Event) :
    (m.call e).Guarded g root y c a b taken D :=
  fun z found inner behind => (h z found inner behind).called e

theorem Guarded.find (h : m.Guarded g root y c a b taken D) (fresh : id ∉ D) (le : D ⊆ D')
    (own : ¬ g.Bypasses y (Graph.keptBy c a b taken) root id → m.Takes c taken D) :
    (m.find id w).Guarded g root y c a b taken D' := by
  intro z found inner guarded
  refine Takes.keeps ?_ le (World.keeps_find fresh)
  by_cases same : z = id
  · exact own (same ▸ guarded)
  · rw [found_find_of_ne same] at found
    exact h z found inner guarded

end Moment

namespace World

open Moment

variable {ω : World} {s : Scope} {answer : Call → Word} {root y c a b id : NodeId}
variable {taken : Bool} {D : Finset NodeId} {m : Moment} {o : Except (List Event) Moment}
variable {t : ScalarType} {depth : Nat}

/-- What holds while a node is found: values have been found, nodes behind an arm only if the arm
was selected, and the arm was selected if the node is behind it. -/
structure Ventures (s : Scope) (answer : Call → Word) (root y c a b : NodeId) (taken : Bool)
    (id : NodeId) (D : Finset NodeId) (m : Moment) : Prop where
  evaluated : m.Evaluated s answer root D
  guarded : m.Guarded s.graph root y c a b taken D
  takes : ¬ s.graph.Bypasses y (Graph.keptBy c a b taken) root id → m.Takes c taken D

/-- A conditional takes an arm that is behind another one only if this one was selected. -/
theorem Ventures.takes_arm {c' a' b' : NodeId} (w : s.graph.WellFormed)
    (fork : s.graph.Fork root D id c' a' b') (gate : s.graph.operandsOf y = [c, a, b])
    (h : Ventures s answer root y c a b taken id
      (s.graph.doneAfter D (ahead s.graph root D c' a' b')) m)
    (behind : ¬ s.graph.Bypasses y (Graph.keptBy c a b taken) root (arm m c' a' b')) :
    m.Takes c taken (s.graph.doneAfter D (ahead s.graph root D c' a' b')) := by
  by_cases same : id = y
  · subst same
    have parts := gate.symm.trans fork.operands
    cases parts
    have free : s.graph.Bypasses id (Graph.keptBy c a b taken) root id :=
      w.bypasses_of_le ((w.mem_below fork.root_lt).1 fork.user) (Nat.le_refl _)
    have done := fork.cond_mem_ahead w
    have pending := fork.pending_operand (fork.notMem_ahead w) (List.mem_cons_self ..)
    refine ⟨done, h.evaluated.complete done pending, ?_⟩
    by_contra other
    refine behind (free.of_mem ?_)
    unfold arm Graph.keptBy
    cases taken <;> simp_all
  · exact h.takes fun free =>
      behind (free.operand same (fork.operands ▸ Graph.Fork.arm_mem m))

/-- A node behind an arm is found only if the arm was selected. -/
theorem guarded_play (describes : s.Describes answer ω root)
    (express : ∀ x ∈ s.graph.below root, Expressible s.graph x)
    (hy : s.graph.node? y = some ⟨.select c a b, t⟩) (closed : s.graph.Closed D)
    (hid : id ∈ s.graph.below root) (h : Ventures s answer root y c a b taken id D m)
    (ho : ω.play s.graph root depth D id m o) :
    Meets (Guarded s.graph root y c a b taken) (fun _ => True) (D ∪ s.graph.below id) o := by
  have w := describes.wellFormed
  have gate : s.graph.operandsOf y = [c, a, b] := Graph.operandsOf_eq hy
  induction depth generalizing D id m o with
  | zero => exact ho.elim
  | succ depth ih =>
    have inside := Graph.lt_size_of_mem_below hid
    by_cases hD : id ∈ D
    · rw [play_of_mem hD] at ho
      cases ho
      have done : s.graph.below id ⊆ D := fun x hx =>
        closed.of_reaches hD ((w.mem_below inside).1 hx)
      rw [Finset.union_eq_left.2 done]
      exact h.guarded
    -- nodes that are behind the arm only if this one is
    have rest (xs : List NodeId) (below : ∀ x ∈ xs, x ∈ s.graph.below root)
        (outer : ∀ x ∈ xs, s.graph.Bypasses y (Graph.keptBy c a b taken) root id →
          s.graph.Bypasses y (Graph.keptBy c a b taken) root x) (o)
        (ho : visitAll s.graph (ω.play s.graph root depth) D xs m o) :
        Meets (Ventures s answer root y c a b taken id) (fun _ => True)
          (s.graph.doneAfter D xs) o := by
      refine meets_visitAll w (fun x hx D m o closed hm ho => ?_)
        (fun x hx => Graph.lt_size_of_mem_below (below x hx)) closed h ho
      have values := (maintains_evaluated describes express).play w describes.inside closed
        (below x hx) hm.evaluated ho
      have guards := ih closed (below x hx) ⟨hm.evaluated, hm.guarded, fun behind =>
        hm.takes fun free => behind (outer x hx free)⟩ ho
      cases o with
      | error => trivial
      | ok m' => exact ⟨values, guards, fun behind => (hm.takes behind).keeps
          Finset.subset_union_left (keeps_play (Finset.Subset.refl D) _ ho)⟩
    obtain ⟨n, hn⟩ := Graph.node?_of_lt inside
    have operands : s.graph.operandsOf id = n.operands := Graph.operandsOf_eq hn
    by_cases hk : ∃ c a b, n.kind = .select c a b
    · obtain ⟨c', a', b', hk⟩ := hk
      have fork : s.graph.Fork root D id c' a' b' :=
        ⟨describes.inside, closed, hid, hD, by rw [operands, Node.operands, hk]; rfl⟩
      rw [play_select hD hn hk, World.choose] at ho
      refine Meets.andThen (rest _ (fun x => fork.ahead_mem_below w) fun x hx free =>
        fork.bypasses_ahead w gate free hx) (fun m₁ o _ hm₁ ho => ?_) o ho
      have operand : arm m₁ c' a' b' ∈ [c', a', b'] := Graph.Fork.arm_mem m₁
      have venture : Ventures s answer root y c a b taken (arm m₁ c' a' b')
          (s.graph.doneAfter D (ahead s.graph root D c' a' b')) m₁ :=
        ⟨hm₁.evaluated, hm₁.guarded, hm₁.takes_arm w fork gate⟩
      refine Meets.andThen (fun o => ih (fork.closed_ahead w) (fork.mem_below w operand) venture)
        (fun m₂ o played hm₂ ho => ?_) o ho
      cases ho
      have later := fun hs => fork.notMem_arms w (Graph.Fork.arm_subset m₁ hs)
      refine hm₂.find later ?_ fun behind => (hm₁.takes behind).keeps Finset.subset_union_left
        (keeps_play (Finset.Subset.refl _) _ played)
      rw [← fork.insert_ahead w]
      exact (Graph.Fork.arm_subset m₁).trans (Finset.subset_insert ..)
    · have kind (c a b) : n.kind ≠ .select c a b := fun h => hk ⟨c, a, b, h⟩
      rw [play_node hD hn kind] at ho
      have notGate : id ≠ y := fun same => by
        rw [same, hy] at hn
        cases hn
        exact kind c a b rfl
      have below (x : NodeId) (hx : x ∈ n.operands) : x ∈ s.graph.below root :=
        w.operand_mem_below describes.inside hid (operands ▸ hx)
      refine Meets.andThen (rest _ below fun x hx free =>
        free.operand notGate (operands ▸ hx)) (fun m₁ o _ hm₁ ho => ?_) o ho
      have fresh := w.notMem_operands hn hD
      rw [← w.insert_doneAfter hn]
      rcases visit_cases ho with ⟨u, -, rfl⟩ | ⟨target, args, u, -, -, rfl⟩ | rfl
      · exact hm₁.guarded.find fresh (Finset.subset_insert ..) hm₁.takes
      · exact (hm₁.guarded.called _).find fresh (Finset.subset_insert ..) fun behind =>
          (hm₁.takes behind).called _
      · trivial

/-- In the end a node behind an arm was found only if the arm was selected. -/
theorem guarded_course (describes : s.Describes answer ω root)
    (express : ∀ x ∈ s.graph.below root, Expressible s.graph x)
    (hy : s.graph.node? y = some ⟨.select c a b, t⟩)
    (ho : ω.course s.graph root ⟨fun _ => none, []⟩ o) :
    Meets (Guarded s.graph root y c a b taken) (fun _ => True) (s.graph.below root) o := by
  have w := describes.wellFormed
  rcases ho with ⟨m', entered, played⟩ | ⟨_, entered, -⟩
  · cases entered
    have start : Ventures s answer root y c a b taken root (s.graph.inputs root)
        (ω.enter s.graph (s.graph.inputs root) ⟨fun _ => none, []⟩) := by
      refine ⟨evaluated_enter describes, fun z found inner _ => ?_, fun behind =>
        absurd .refl behind⟩
      obtain ⟨u, hu⟩ := Option.ne_none_iff_exists'.1 found
      have parameter := (Finset.mem_filter.1 (found_enter hu).1).2
      rw [inner] at parameter
      cases parameter
    have met := guarded_play describes express hy Graph.closed_inputs
      (w.self_mem_below describes.inside) start played
    have inside : s.graph.inputs root ⊆ s.graph.below root := Finset.filter_subset _ _
    rwa [Finset.union_eq_right.2 inside] at met
  · cases entered

end World

/-! ## Functions -/

/-- The calls of a function on demand: no node makes two calls; each call is one of a node that
the root needs, passes the values of the arguments of the node, or other NaNs, and gives the node
its value; all calls that lazy evaluation comes to are made; and a call behind one arm of a
conditional is made only if the condition selects the arm. -/
structure Scope.CallsOnDemand (s : Scope) (answer : Call → Word) (root : NodeId)
    (events : List Event) : Prop where
  once : (events.map Event.node).Nodup
  passed : ∀ e ∈ events, s.graph.Reaches root e.node ∧ ∃ args values,
    s.graph.node? e.node = some ⟨.call e.target args, e.ret⟩ ∧
      args.mapM (s.answered answer) = .ok values ∧ e.args = values.map Value.unify ∧
      List.Forall₂ (fun v w => Value.Alike ⟨v.ty, w⟩ v) values e.sent ∧
      s.answered answer e.node = .ok ⟨e.ret, e.result⟩
  made : ∀ x target args ty, Relation.ReflTransGen (s.Needs answer) root x →
    s.graph.node? x = some ⟨.call target args, ty⟩ → ∃ e ∈ events, e.node = x
  guarded : ∀ e ∈ events, ∀ y c a b ty taken, s.graph.node? y = some ⟨.select c a b, ty⟩ →
    ¬ s.graph.Bypasses y (Graph.keptBy c a b taken) root e.node →
      ∃ v, s.answered answer c = .ok v ∧ v.isTrue = taken

namespace Moment.Demanded

variable {s : Scope} {answer : Call → Word} {root x y : NodeId} {D : Finset NodeId} {m : Moment}

theorem found_of_needs (h : m.Demanded s answer root D) (found : m.found x ≠ none)
    (needs : Relation.ReflTransGen (s.Needs answer) x y) : m.found y ≠ none := by
  induction needs with
  | refl => exact found
  | tail _ next ih => exact h.supported ih next

theorem callsOnDemand (h : m.Demanded s answer root D) (w : s.graph.WellFormed)
    (inside : root < s.graph.size) (last : m.found root ≠ none)
    (guarded : ∀ {y c a b ty taken}, s.graph.node? y = some ⟨.select c a b, ty⟩ →
      m.Guarded s.graph root y c a b taken D) : s.CallsOnDemand answer root m.events := by
  refine ⟨h.once, fun e he => ?_, fun x target args ty needs hn => ?_,
    fun e he y c a b ty taken hy behind => ?_⟩
  · obtain ⟨args, u, hn, same, result⟩ := h.recorded.sent e he
    have found : m.found e.node ≠ none := by
      rw [result]
      exact Option.some_ne_none _
    have gives (y : NodeId) (hy : y ∈ args) : s.Gives answer y (m.value s.graph y) :=
      h.evaluated.gives (h.supported found (.operand hn nofun hy))
    obtain ⟨values, answers, alike⟩ := Scope.mapM_gives gives
    refine ⟨(w.mem_below inside).1 (h.evaluated.reached result), args, values, hn, answers, ?_, ?_,
      h.replied e he⟩
    · rw [Value.Alike.map_unify alike, List.map_map]
      exact congrArg (fun e => e.args) same
    · rw [show e.sent = args.map m.word from congrArg Event.sent same, List.forall₂_map_right_iff]
      exact (List.forall₂_map_right_iff.1 alike).imp fun v x alike =>
        (show v.ty = s.graph.tyOf x from alike.ty) ▸ alike.symm
  · exact h.recorded.made x target args ty (h.found_of_needs last needs) hn
  · obtain ⟨args, u, hn, -, result⟩ := h.recorded.sent e he
    have inner : s.graph.isParameter e.node = false := by
      rw [Graph.isParameter, hn]
      rfl
    have takes := guarded hy e.node (by rw [result]; exact Option.some_ne_none _) inner behind
    obtain ⟨bool, -, -⟩ := w.typed hy
    exact ⟨_, (h.evaluated.gives takes.found).eq bool.tyOf_eq rfl, takes.selects⟩

end Moment.Demanded

namespace Graph

open Machine

variable {g : Graph} {root : NodeId} {o : Options} {h : Host} {s₀ : Machine.State} {c : Generated}
variable {noted : Call → Machine.State → Prop} {heap : Word → Bool} {answer : Call → Word}

/-- A generated function whose outside functions answer calls by the values of their arguments,
and which loads from memory that neither it nor they change, makes its calls on demand and
returns the value of its root, or ends with a divide error at a division without a quotient. -/
theorem calls_on_demand (built : g.Built) (generated : g.generate root o = .ok c)
    (compact : g.Compact root c.image)
    (entered : g.Entered (g.around s₀ heap answer) h noted root c.image s₀)
    (truths : ∀ v ∈ g.argumentsAt s₀, v.ty = .bool → v.bits = 0 ∨ v.bits = 1)
    (replies : ∀ k x args, g.Reaches root x → g.node? x = some ⟨.call k.target args, .bool⟩ →
      ScalarType.bool.settle (answer k) = 0 ∨ ScalarType.bool.settle (answer k) = 1)
    (loads : ∀ x ty address, g.Reaches root x →
      g.LoadsFrom (Scope.answered ⟨g, g.argumentsAt s₀, some s₀.memory⟩ answer) x ty address →
        ty ≠ .bool ∧ ∀ i < ty.size, heap (address + BitVec.ofNat 64 i) = true) :
    ∃ out called, run h c.image.bytes (stepBound c.image.bytes) ⟨[], s₀⟩ = (out, called) ∧
      ((∃ s events, out = .returned s ∧ Logged h noted called events ∧
          Scope.CallsOnDemand ⟨g, g.argumentsAt s₀, some s₀.memory⟩ answer root events ∧
          Scope.Gives ⟨g, g.argumentsAt s₀, some s₀.memory⟩ answer root (g.resultIn root s)) ∨
        out = .divideError ∧ ∃ x, g.Reaches root x ∧
          g.FailsAt (Scope.answered ⟨g, g.argumentsAt s₀, some s₀.memory⟩ answer) x) := by
  have w := built.wellFormed
  obtain ⟨σ, _, _, lowered, -⟩ := generate_eq_ok generated
  have inside := (exists_lowering lowered).1
  obtain ⟨L, rfl, code, -, a, d, out, course, finishes, concludes⟩ :=
    built.runs generated lowered compact entered
  refine ⟨out, d.entered, code ▸ finishes.run_eq, ?_⟩
  have describes := describes_around heap answer w inside truths replies loads
  have express := built.expressible generated
  cases a with
  | ok A =>
    obtain ⟨s, rfl, reading, -, log, -⟩ := concludes.ok
    have met : A.Demanded ⟨g, g.argumentsAt s₀, some s₀.memory⟩ answer root (g.below root) :=
      (World.maintains_demanded describes express).course w inside
        (World.demanded_enter describes) course
    have value := Moment.Evaluated.root met.evaluated w inside
    have last : A.found root ≠ none := met.evaluated.complete (w.self_mem_below inside) (by
      rw [Graph.pending, if_pos rfl]
      omega)
    have demand := met.callsOnDemand w inside last fun hy =>
      World.guarded_course describes express hy course
    refine .inl ⟨s, A.events, rfl, log, demand, ?_⟩
    rw [resultIn, reading]
    exact value
  | error events =>
    obtain ⟨rfl, -⟩ := concludes.error
    obtain ⟨x, hx, fails⟩ := World.evaluated_course describes express course
    exact .inr ⟨rfl, x, (w.mem_below inside).1 hx, fails⟩

/-! ## A call in an arm -/

/-- What outside code makes of a number, if it is asked for, or else the number. -/
def consult : Graph where
  nodes := #[⟨.parameter 0, .bool⟩, ⟨.parameter 1, .i64⟩, ⟨.call 0x100000200000 [1], .i64⟩,
    ⟨.select 0 2 1, .i64⟩]
  params := [0, 1]
  parents := #[1, 2, 1, 0]

theorem built_consult : consult.Built :=
  .of_built? [.bool, .i64] [.call 0x100000200000 [1] .i64, .select 0 2 1] (by decide +kernel)

def successor : Foreign := ⟨"successor", [.i64], .i64, fun args => args.headD 0 + 1⟩

/-- An entry that asks for what comes after 7. -/
def consultEntry : Machine.State := entryState .zero [.bool, .i64] [1, 7]

def consultAnswer (k : Call) : Word := (k.args.headD ⟨.i64, 0⟩).bits + 1

theorem serves_successor {k : Call} (calls : consult.Calls 3 k) (size height : Nat) (low : Word) :
    (consult.around consultEntry (fun _ => false) consultAnswer).Serves successor.alone
      (fun _ _ => True) size low height k := by
  obtain ⟨x, -, args, hn, types⟩ := calls
  have kinds : ∀ n ∈ consult.nodes, ∀ t a, n.kind = .call t a →
      t = 0x100000200000 ∧ a = [1] ∧ n.ty = .i64 := by
    simp [consult]
  obtain ⟨target, args, ret⟩ := k
  obtain ⟨rfl, rfl, rfl⟩ := kinds _ (Array.mem_of_getElem? hn) _ _ rfl
  refine serves_around successor rfl rfl (fun s made => ?_) size height low
  obtain ⟨bits, rfl⟩ := Value.eq_singleton (types : args.map Value.ty = [.i64])
  have passed : (s.arguments [.i64]).headD 0 = bits :=
    congrArg Value.bits (List.cons.inj made.2).1
  show ScalarType.i64.settle ((s.arguments [.i64]).headD 0 + 1) = ScalarType.i64.settle (bits + 1)
  rw [passed]

theorem calls_on_demand_consult : ∃ c, consult.generate 3 .default = .ok c ∧
    ∃ s called events, run successor.alone c.image.bytes (stepBound c.image.bytes)
        ⟨[], consultEntry⟩ = (.returned s, called) ∧
      s.named .rax = 8 ∧ (events.map Event.node).Nodup ∧ (∃ e ∈ events, e.node = 2) ∧
      Logged successor.alone (fun _ _ => True) called events := by
  obtain ⟨c, hc, frame, size⟩ := @exists_of_isSmall consult 3 .default (by decide +kernel)
  have calls : consult.callRoom 3 = 8 := by decide +kernel
  have params : consult.paramRoom = 0 := by decide +kernel
  have kinds : ∀ n ∈ consult.nodes, (∀ b f, n.kind ≠ .field b f) ∧ (∀ b i, n.kind ≠ .element b i) ∧
      (∀ op x y, n.kind ≠ .arith op x y) ∧ ((∃ t a, n.kind = .call t a) → n.ty ≠ .bool) := by
    simp [consult]
  have value : Scope.answered ⟨consult, consult.argumentsAt consultEntry,
      some consultEntry.memory⟩ consultAnswer 3 = .ok ⟨.i64, 8⟩ := by decide +kernel
  have cond : Scope.answered ⟨consult, consult.argumentsAt consultEntry,
      some consultEntry.memory⟩ consultAnswer 0 = .ok ⟨.bool, 1⟩ := by decide +kernel
  have entered : consult.Entered (consult.around consultEntry (fun _ => false) consultAnswer)
      successor.alone (fun _ _ => True) 3 c.image consultEntry :=
    entered_around _ (successor.loaded_alone rfl (by decide) size) nofun fun k made =>
      serves_successor made _ _ _
  obtain ⟨out, called, run, ends⟩ := calls_on_demand built_consult hc
    ⟨frame, by omega, by omega⟩ entered (by decide +kernel)
    (fun k x args _ node =>
      absurd rfl ((kinds _ (Array.mem_of_getElem? node)).2.2.2 ⟨_, _, rfl⟩)) (by
      rintro x ty address - (⟨node, -⟩ | ⟨node, -⟩)
      · exact absurd rfl ((kinds _ (Array.mem_of_getElem? node)).1 _ _)
      · exact absurd rfl ((kinds _ (Array.mem_of_getElem? node)).2.1 _ _))
  rcases ends with ⟨s, events, rfl, log, demand, result⟩ | ⟨-, x, -, node, -⟩
  · have result := result.eq rfl rfl
    rw [value] at result
    have rax : (8 : Word) = s.named .rax := congrArg Value.bits (Except.ok.inj result)
    refine ⟨c, hc, s, called, events, run, rax.symm, demand.once, ?_, log⟩
    exact demand.made 2 0x100000200000 [1] .i64 (.single (.arm rfl cond)) rfl
  · exact absurd rfl ((kinds _ (Array.mem_of_getElem? node)).2.2.1 _ _ _)

end Graph

end NativeExpr
