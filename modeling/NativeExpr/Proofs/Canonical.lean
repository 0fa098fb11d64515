import NativeExpr.Proofs.Safety
import NativeExpr.Proofs.Widths

/-!
# Canonical words in generated code

Whatever the arguments, memory and the results of calls are, generated code holds integers and
addresses in canonical form. A truth value that comes from outside is the byte that came in,
and all truth values are canonical if these are.
-/
namespace NativeExpr

open Lowering

/-- Whether a value comes from outside: an argument, what a load finds or what a call returns. -/
def NodeKind.isForeign : NodeKind → Bool
  | .parameter _ | .field .. | .element .. | .call .. => true
  | _ => false

def Graph.isForeign (g : Graph) (x : NodeId) : Bool :=
  ((g.node? x).map fun n => n.kind.isForeign).getD false

namespace Moment

variable {g : Graph} {D D' : Finset NodeId} {m : Moment} {id x : NodeId} {w : Word}

/-- Whether every truth value that comes from outside is zero or one. -/
def Plain (g : Graph) (m : Moment) : Prop :=
  ∀ x w, m.found x = some w → g.tyOf x = .bool → g.isForeign x = true → w = 0 ∨ w = 1

/-- Whether the words that were found when certain nodes are done are as registers hold them. -/
structure Settled (g : Graph) (D : Finset NodeId) (m : Moment) : Prop where
  inside : ∀ x w, m.found x = some w → x ∈ D
  words : ∀ x w, m.found x = some w → (g.tyOf x).isFloat = false → (g.tyOf x).Settled w
  truths : m.Plain g → ∀ x w, m.found x = some w → g.tyOf x = .bool → w = 0 ∨ w = 1

namespace Settled

theorem word (h : m.Settled g D) (integer : (g.tyOf x).isFloat = false) :
    (g.tyOf x).Settled (m.word x) := by
  unfold Moment.word
  cases hx : m.found x with
  | none => exact ScalarType.settled_zero _
  | some w => exact h.words x w hx integer

theorem truth (h : m.Settled g D) (plain : m.Plain g) (bool : g.tyOf x = .bool) :
    m.word x = 0 ∨ m.word x = 1 := by
  unfold Moment.word
  cases hx : m.found x with
  | none => exact .inl rfl
  | some w => exact h.truths plain x w hx bool

theorem mono (h : m.Settled g D) (le : D ⊆ D') : m.Settled g D' :=
  ⟨fun x w hx => le (h.inside x w hx), h.words, h.truths⟩

theorem called (h : m.Settled g D) (e : Event) : (m.call e).Settled g D :=
  ⟨h.inside, h.words, h.truths⟩

theorem find (h : m.Settled g D) (fresh : id ∉ D)
    (settled : (g.tyOf id).isFloat = false → (g.tyOf id).Settled w)
    (truth : g.tyOf id = .bool → g.isForeign id = true ∨ (m.Plain g → w = 0 ∨ w = 1)) :
    (m.find id w).Settled g (insert id D) := by
  have other {x : NodeId} {u : Word} (hx : (m.find id w).found x = some u) (ne : x ≠ id) :
      m.found x = some u := (if_neg ne).symm.trans hx
  have own {u : Word} (hx : (m.find id w).found id = some u) : u = w :=
    (Option.some.inj ((if_pos rfl).symm.trans hx)).symm
  refine ⟨fun x u hx => ?_, fun x u hx integer => ?_, fun plain x u hx bool => ?_⟩
  · by_cases same : x = id
    · exact same ▸ Finset.mem_insert_self ..
    · exact Finset.mem_insert_of_mem (h.inside x u (other hx same))
  · by_cases same : x = id
    · subst same
      exact own hx ▸ settled integer
    · exact h.words x u (other hx same) integer
  · -- what was found before is found still, since the node is another one
    have before : m.Plain g := fun y v hy boolean foreign => by
      have ne : y ≠ id := fun same => fresh (same ▸ h.inside y v hy)
      exact plain y v ((if_neg ne).trans hy) boolean foreign
    by_cases same : x = id
    · subst same
      rcases truth bool with foreign | truth
      · exact plain x u hx bool foreign
      · exact own hx ▸ truth before
    · exact h.truths before x u (other hx same) bool

theorem find_float (h : m.Settled g D) (fresh : id ∉ D) (float : (g.tyOf id).isFloat = true) :
    (m.find id w).Settled g (insert id D) := by
  refine h.find fresh (fun integer => ?_) fun bool => ?_
  · rw [float] at integer
    cases integer
  · rw [bool] at float
    cases float

theorem find_foreign (h : m.Settled g D) (fresh : id ∉ D) (foreign : g.isForeign id = true)
    (raw : Word) : (m.find id ((g.tyOf id).settle raw)).Settled g (insert id D) :=
  h.find fresh (fun _ => ScalarType.settled_settle ..) fun _ => .inl foreign

end Settled

end Moment

namespace World

variable {ω : World} {g : Graph} {D : Finset NodeId} {root id : NodeId} {m : Moment}
variable {n : Node} {o : Except (List Event) Moment}

theorem ofBool_bits (b : Bool) : (Value.ofBool b).bits = 0 ∨ (Value.ofBool b).bits = 1 := by
  cases b
  · exact .inl rfl
  · exact .inr rfl

/-- Truth values stay zero or one under the logical operations that they have. -/
theorem truth_word {op : LogicOp} (commutative : op.isCommutative = true) {signed : Bool}
    {x y : Word} (hx : x = 0 ∨ x = 1) (hy : y = 0 ∨ y = 1) :
    op.word signed x y = 0 ∨ op.word signed x y = 1 := by
  cases op with
  | and | or | xor =>
    dsimp only [LogicOp.word]
    rcases hx with rfl | rfl <;> rcases hy with rfl | rfl <;> decide
  | shl | shr => cases commutative

theorem settled_convert {source target : ScalarType} {w : Word} (integer : target.isFloat = false) :
    target.Settled (convert source target w) := by
  have imprecise := ScalarType.precision?_eq_none.2 integer
  unfold convert
  rw [imprecise]
  cases source.precision? with
  | none =>
    dsimp only
    split
    · next truth =>
      obtain ⟨rfl, -⟩ := truth
      split <;> decide
    · exact ScalarType.settled_settle ..
  | some p => exact ScalarType.settled_settle ..

/-- Floats do not convert into truth values, and all else gives a zero or a one. -/
theorem truth_convert {source : ScalarType} {w : Word} (allowed : source.castAllowed .bool = true)
    (truth : source = .bool → w = 0 ∨ w = 1) :
    convert source .bool w = 0 ∨ convert source .bool w = 1 := by
  have imprecise : source.precision? = none := by
    cases source <;> first | rfl | cases allowed
  have plain : ScalarType.bool.precision? = none := rfl
  unfold convert
  rw [imprecise, plain]
  dsimp only
  split
  · split
    · exact .inl rfl
    · exact .inr rfl
  · next same =>
    rcases truth (Classical.not_not.1 fun ne => same ⟨rfl, ne⟩) with rfl | rfl
    · exact .inl rfl
    · exact .inr rfl

theorem settled_visit (w : g.WellFormed) (fresh : id ∉ D) (hn : g.node? id = some n)
    (h : m.Settled g D) (ho : ω.visit g id n m o) :
    Meets (fun D m => m.Settled g D) (fun _ => True) (insert id D) o := by
  have typed := w.typed hn
  obtain ⟨kind, t⟩ := n
  obtain rfl : g.tyOf id = t := (Graph.hasType_of_node? hn).tyOf_eq
  have outside (foreign : kind.isForeign = true) : g.isForeign id = true := by
    rw [Graph.isForeign, hn]
    exact foreign
  cases kind with
  | immediate value =>
    cases value with
    | int v =>
      cases ho
      obtain ⟨-, canonical⟩ := typed
      refine h.find fresh (fun _ => ScalarType.settled_of_canonical canonical) fun bool => .inr ?_
      rw [bool] at canonical
      exact fun _ => ScalarType.canonical_bool_iff.1 canonical
    | float p =>
      cases ho
      exact h.find_float fresh typed
  | parameter => exact ho.elim
  | select => exact ho.elim
  | arith op lhs rhs =>
    obtain ⟨-, -, number⟩ := typed
    have proper : g.tyOf id ≠ .bool := by
      intro bool
      rw [bool] at number
      rcases number with no | no <;> cases no
    simp only [visit] at ho
    split at ho
    · next p precise =>
      split at ho
      · obtain ⟨w, -, rfl⟩ := ho
        exact h.find_float fresh (ScalarType.isFloat_of_precision precise)
      · exact ho.elim
    · split at ho
      · cases ho
        exact h.find fresh (fun _ => ScalarType.settled_settle ..) fun bool => absurd bool proper
      · cases ho
        trivial
  | logic op lhs rhs =>
    obtain ⟨left, right, kind⟩ := typed
    have left : g.tyOf lhs = g.tyOf id := left.tyOf_eq
    have right : g.tyOf rhs = g.tyOf id := right.tyOf_eq
    have proper := Graph.isFloat_of_logic kind
    cases ho
    refine h.find fresh (fun _ => ?_) fun bool => .inr fun plain => ?_
    · split
      · exact ScalarType.settled_settle ..
      · next right_ =>
        exact LogicOp.settled_word right_ (left ▸ h.word (left.symm ▸ proper))
          (right ▸ h.word (right.symm ▸ proper))
    · rw [bool] at kind left right
      obtain ⟨-, commutative⟩ := kind.resolve_left (fun integer => by cases integer)
      rw [if_neg (by rintro rfl; cases commutative)]
      exact truth_word commutative (h.truth plain left) (h.truth plain right)
  | compare pred lhs rhs =>
    obtain ⟨-, bool⟩ := typed
    cases ho
    have truth := ofBool_bits (pred.holds ((m.value g lhs).order (m.value g rhs)))
    refine h.find fresh (fun _ => ?_) fun _ => .inr fun _ => truth
    rw [bool]
    exact ScalarType.settled_of_canonical (ScalarType.canonical_bool_iff.2 truth)
  | field base offset =>
    obtain ⟨w, ⟨raw, rfl, -⟩, rfl⟩ := ho
    exact h.find_foreign fresh (outside rfl) raw
  | element base index =>
    obtain ⟨w, ⟨raw, rfl, -⟩, rfl⟩ := ho
    exact h.find_foreign fresh (outside rfl) raw
  | call target args =>
    obtain ⟨w, -, rfl⟩ := ho
    exact (h.called _).find_foreign fresh (outside rfl) w
  | cast x =>
    obtain ⟨source, operand, allowed⟩ := typed
    have operand : g.tyOf x = source := operand.tyOf_eq
    cases ho
    refine h.find fresh (fun integer => settled_convert integer) fun bool => .inr fun plain => ?_
    rw [bool] at allowed ⊢
    rw [operand]
    exact truth_convert allowed fun truth => h.truth plain (operand.trans truth)

theorem maintains_settled (w : g.WellFormed) :
    ω.Maintains g root (fun D m => m.Settled g D) fun _ => True where
  visit _ fresh _ hn _ h ho := settled_visit w fresh hn h ho
  choose := by
    intro D s c a b n m m' fork hn kind _ _ h
    obtain ⟨kind', t⟩ := n
    cases kind
    have same : g.tyOf (arm m c a b) = g.tyOf s := tyOf_arm w hn m
    rw [← fork.insert_ahead w]
    exact (h.mono (Graph.Fork.arm_subset m)).find (fork.notMem_arms w)
      (fun integer => same ▸ h.word (same.symm ▸ integer))
      fun bool => .inr fun plain => h.truth plain (same.trans bool)

theorem found_enter {x : NodeId} {u : Word}
    (h : (ω.enter g D ⟨fun _ => none, []⟩).found x = some u) :
    x ∈ D ∧ ∃ i t, g.node? x = some ⟨.parameter i, t⟩ ∧ u = t.settle (ω.param i) := by
  replace h : (if x ∈ D then ω.paramWord g x else none) = some u := h
  split at h
  · next inside =>
    unfold paramWord at h
    split at h
    · next i t hn =>
      cases h
      exact ⟨inside, i, t, hn, rfl⟩
    · cases h
  · cases h

theorem settled_enter (D : Finset NodeId) : (ω.enter g D ⟨fun _ => none, []⟩).Settled g D := by
  refine ⟨fun x u hx => (found_enter hx).1, fun x u hx _ => ?_, fun plain x u hx bool => ?_⟩
  · obtain ⟨-, i, t, hn, rfl⟩ := found_enter hx
    rw [(Graph.hasType_of_node? hn).tyOf_eq]
    exact ScalarType.settled_settle ..
  · obtain ⟨-, i, t, hn, -⟩ := found_enter hx
    refine plain x u hx bool ?_
    rw [Graph.isForeign, hn]
    rfl

theorem settled_course (w : g.WellFormed) (hr : root < g.size)
    (ho : ω.course g root ⟨fun _ => none, []⟩ o) :
    Meets (fun D m => m.Settled g D) (fun _ => True) (g.below root) o :=
  (maintains_settled w).course w hr (settled_enter _) ho

end World

namespace Graph

open Machine Lowering

variable {g : Graph} {root : NodeId} {o : Options} {h : Host} {s₀ : Machine.State} {c : Generated}

/-- Whatever the arguments, memory and outside code are, the words that a generated function
finds for nodes on its way are as registers hold them, and so is its result. Truth values
are zeros and ones if those that come from outside are. -/
theorem result_settled (built : g.Built) (generated : g.generate root o = .ok c)
    (compact : g.Compact root c.image) (loaded : Loaded h c.image.bytes s₀)
    (attended : g.Attended root h (s₀.named .rsp - 8 - BitVec.ofNat 64 c.image.frameSize)
      (c.image.frameSize + 16 + g.paramRoom)) :
    ∃ out called, run h c.image.bytes (stepBound c.image.bytes) ⟨[], s₀⟩ = (out, called) ∧
      (out = .divideError ∨ ∃ s A, out = .returned s ∧
        (g.anything s₀).course g root ⟨fun _ => none, []⟩ (.ok A) ∧ A.Settled g (g.below root) ∧
        ((g.tyOf root).isFloat = false → s.named .rax = A.word root ∧
          (g.tyOf root).Settled (s.named .rax)) ∧
        (A.Plain g → g.tyOf root = .bool → s.named .rax = 0 ∨ s.named .rax = 1)) := by
  obtain ⟨σ, _, _, lowered, -⟩ := generate_eq_ok generated
  have hr := (exists_lowering lowered).1
  obtain ⟨L, rfl, code, -, a, c', out, course, finishes, concludes⟩ :=
    built.runs generated lowered compact (built.entered_anything hr loaded attended)
  refine ⟨out, c'.entered, code ▸ finishes.run_eq, ?_⟩
  have met := World.settled_course built.wellFormed hr course
  cases a with
  | ok A =>
    have met : A.Settled g (g.below root) := met
    obtain ⟨s, rfl, reading, -⟩ := concludes.ok
    have result (integer : (g.tyOf root).isFloat = false) : s.named .rax = A.word root := by
      rw [ScalarType.regClass, integer] at reading
      refine Eq.trans (Eq.symm (if_neg fun float => ?_)) reading
      rw [float] at integer
      cases integer
    refine .inr ⟨s, A, rfl, course, met, fun integer => ?_, fun plain bool => ?_⟩
    · rw [result integer]
      exact ⟨rfl, met.word integer⟩
    · rw [result (bool ▸ rfl)]
      exact met.truth plain bool
  | error events => exact .inl concludes.error.1

def flag : Graph where
  nodes := #[⟨.parameter 0, .ptr⟩, ⟨.field 0 0, .bool⟩]
  params := [0]
  parents := #[1, 0]

theorem built_flag : flag.Built :=
  .of_built? [.ptr] [.field 0 0 .bool] (by decide +kernel)

/-- Memory with a byte that is no truth value. -/
def flagMemory : Memory := fun a => if a = 0x100000000000 then 2 else 0

def flagResult : Option Word :=
  match flag.generate 1 .default with
  | .ok c =>
    match (call (fun _ => none) c.image.bytes flagMemory [.ptr] [0x100000000000]).1 with
    | .returned s => some (s.result .bool)
    | _ => none
  | .error _ => none

/-- A truth value from memory is the byte that stands there, even where that is no truth value. -/
theorem flag_raw : flag.Built ∧ ∃ c s, flag.generate 1 .default = .ok c ∧
    (call (fun _ => none) c.image.bytes flagMemory [.ptr] [0x100000000000]).1 = .returned s ∧
    s.result .bool = 2 ∧ ScalarType.bool.canonical (s.result .bool) ≠ s.result .bool := by
  have runs : flagResult = some 2 := by decide +kernel
  unfold flagResult at runs
  split at runs
  next c generated =>
    split at runs
    next s returned =>
      have two : s.result .bool = 2 := Option.some.inj runs
      exact ⟨built_flag, c, s, generated, returned, two, by rw [two]; decide⟩
    next => cases runs
  next => cases runs

end Graph

end NativeExpr
