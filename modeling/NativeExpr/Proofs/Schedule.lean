import NativeExpr.Graph.Operation
import NativeExpr.Proofs.Graph.Arms

/-!
# The schedule of a generated function

Generated code finds the values of nodes in an order that depends on the graph
alone: operands before their users, what both arms of a conditional share before
its condition, and then one of the arms. The schedule says which values are found,
which outside functions are called with which arguments, and where a division
fails, without registers, frames or options. It leaves open what calls return and
what loads find where the surroundings do not say, and which NaN arithmetic gives.

Values are words as registers hold them. These are canonical, except that a truth
value keeps the byte it came from.
-/
namespace NativeExpr

open Lowering

/-- What a register holds of a value with a raw pattern. -/
def ScalarType.settle (ty : ScalarType) (raw : Word) : Word :=
  if ty = .bool then (raw.setWidth 8).setWidth 64 else ty.canonical raw

/-- The part of a register that holds a value of the type. -/
def ScalarType.view (ty : ScalarType) (content : Word) : Word :=
  if ty = .f32 then (content.setWidth 32).setWidth 64 else content

/-- A value with every NaN unified. -/
def Value.unify (v : Value) : Value :=
  match v.ty.precision? with
  | some p => ⟨v.ty, p.unifyNaN v.bits⟩
  | none => v

/-- A logical operation on registers, before the result is settled. -/
def LogicOp.word (op : LogicOp) (signed : Bool) (x y : Word) : Word :=
  match op with
  | .and => x &&& y
  | .or => x ||| y
  | .xor => x ^^^ y
  | .shl => x <<< (y.toNat % 64)
  | .shr => if signed then x.sshiftRight (y.toNat % 64) else x >>> (y.toNat % 64)

/-- A call of an outside function, NaN arguments unified. -/
structure Call where
  target : Word
  args : List Value
  ret : ScalarType
  deriving DecidableEq

/-- A call that the code of a node makes, with the words that it passes and the word that it
gets back. -/
structure Event extends Call where
  node : NodeId
  sent : List Word
  result : Word
  deriving DecidableEq

/-- What surrounds a function. Results of calls and memory may depend on the
calls made so far, latest first. -/
structure World where
  /-- The raw arguments by position. -/
  param : Nat → Word
  /-- The results that a call may have. -/
  reply : List Call → Call → Word → Prop
  view : List Call → Memory
  /-- The addresses whose bytes are known. -/
  heap : Word → Bool

/-- What has been found and called so far, calls latest first. -/
structure Moment where
  found : NodeId → Option Word
  events : List Event

/-- How things may go on from a moment: to another one, or to a division that fails,
with the calls made before it. -/
abbrev Course := Moment → Except (List Event) Moment → Prop

namespace Course

def stay : Course := fun m o => o = .ok m

def andThen (R S : Course) : Course := fun m o =>
  (∃ m', R m (.ok m') ∧ S m' o) ∨ ∃ events, R m (.error events) ∧ o = .error events

variable {R R' S S' T : Course} {m m' : Moment} {o : Except (List Event) Moment}

theorem andThen_ok (h : R m (.ok m')) (h' : S m' o) : R.andThen S m o := .inl ⟨m', h, h'⟩

theorem andThen_error {events : List Event} (h : R m (.error events)) :
    R.andThen S m (.error events) := .inr ⟨events, h, rfl⟩

theorem stay_andThen : stay.andThen R = R := by
  funext m o
  refine propext ⟨?_, fun h => .inl ⟨m, rfl, h⟩⟩
  rintro (⟨_, same, h⟩ | ⟨_, h, -⟩)
  · cases same
    exact h
  · cases h

theorem andThen_stay : R.andThen stay = R := by
  funext m o
  refine propext ⟨?_, fun h => ?_⟩
  · rintro (⟨_, h, same⟩ | ⟨_, h, rfl⟩)
    · cases same
      exact h
    · exact h
  · cases o with
    | ok m' => exact .inl ⟨m', h, rfl⟩
    | error events => exact .inr ⟨events, h, rfl⟩

theorem andThen_assoc : (R.andThen S).andThen T = R.andThen (S.andThen T) := by
  funext m o
  refine propext ⟨?_, ?_⟩
  · rintro (⟨m₂, ⟨m₁, h₁, h₂⟩ | ⟨_, _, h⟩, h₃⟩ | ⟨e, ⟨m₁, h₁, h₂⟩ | ⟨e', h₁, h⟩, rfl⟩)
    · exact .inl ⟨m₁, h₁, .inl ⟨m₂, h₂, h₃⟩⟩
    · cases h
    · exact .inl ⟨m₁, h₁, .inr ⟨e, h₂, rfl⟩⟩
    · cases h
      exact .inr ⟨e, h₁, rfl⟩
  · rintro (⟨m₁, h₁, ⟨m₂, h₂, h₃⟩ | ⟨e, h₂, rfl⟩⟩ | ⟨e, h, rfl⟩)
    · exact .inl ⟨m₂, .inl ⟨m₁, h₁, h₂⟩, h₃⟩
    · exact .inr ⟨e, .inl ⟨m₁, h₁, h₂⟩, rfl⟩
    · exact .inr ⟨e, .inr ⟨e, h, rfl⟩, rfl⟩

theorem andThen_mono (hR : ∀ m o, R m o → R' m o) (hS : ∀ m o, S m o → S' m o)
    (h : R.andThen S m o) : R'.andThen S' m o := by
  rcases h with ⟨m', h, h'⟩ | ⟨e, h, rfl⟩
  · exact .inl ⟨m', hR _ _ h, hS _ _ h'⟩
  · exact .inr ⟨e, hR _ _ h, rfl⟩

end Course

namespace Moment

def calls (m : Moment) : List Call := m.events.map Event.toCall

def word (m : Moment) (x : NodeId) : Word := (m.found x).getD 0

def find (m : Moment) (x : NodeId) (w : Word) : Moment :=
  { m with found := fun y => if y = x then some w else m.found y }

def call (m : Moment) (e : Event) : Moment := { m with events := e :: m.events }

def value (m : Moment) (g : Graph) (x : NodeId) : Value := ⟨g.tyOf x, m.word x⟩

end Moment

namespace Graph

/-- What is done after nodes in order. -/
def doneAfter (g : Graph) (done : Finset NodeId) (xs : List NodeId) : Finset NodeId :=
  xs.foldl (fun done x => done ∪ g.below x) done

variable {g : Graph} {done : Finset NodeId} {x : NodeId} {xs ys : List NodeId}

@[simp] theorem doneAfter_nil : g.doneAfter done [] = done := rfl

@[simp] theorem doneAfter_cons :
    g.doneAfter done (x :: xs) = g.doneAfter (done ∪ g.below x) xs := rfl

theorem doneAfter_append :
    g.doneAfter done (xs ++ ys) = g.doneAfter (g.doneAfter done xs) ys := List.foldl_append

theorem mem_doneAfter {y : NodeId} :
    y ∈ g.doneAfter done xs ↔ y ∈ done ∨ ∃ x ∈ xs, y ∈ g.below x := by
  induction xs generalizing done with
  | nil => simp
  | cons x xs ih =>
    rw [doneAfter_cons, ih, Finset.mem_union]
    simp [or_assoc]

theorem subset_doneAfter : done ⊆ g.doneAfter done xs := fun _ hy => mem_doneAfter.2 (.inl hy)

end Graph

namespace World

variable (ω : World) (g : Graph)

/-- What a load may find: what memory holds where this is known, else anything. -/
def Loads (m : Moment) (ty : ScalarType) (address w : Word) : Prop :=
  ∃ raw, w = ty.settle raw ∧
    ((∀ i < ty.size, ω.heap (address + BitVec.ofNat 64 i) = true) →
      raw = (ω.view m.calls).load address ty.size)

def callOf (m : Moment) (target : Word) (args : List NodeId) (ret : ScalarType) : Call :=
  ⟨target, args.map fun x => (m.value g x).unify, ret⟩

def convert (source target : ScalarType) (w : Word) : Word :=
  match source.precision?, target.precision? with
  | none, none =>
    if target = .bool ∧ source ≠ .bool then if w = 0 then 0 else 1 else target.settle w
  | none, some q => q.ofInt w
  | some p, none => target.settle (p.truncate w)
  | some p, some q => if p = q then w else q.convert w

/-- Finding the value of a node other than a conditional, its operands found. -/
def visit (id : NodeId) (n : Node) : Course := fun m o =>
  match n.kind with
  | .immediate (.int v) => o = .ok (m.find id v)
  | .immediate (.float p) => o = .ok (m.find id (Value.ofDouble n.ty p).bits)
  | .parameter _ | .select .. => False
  | .arith op lhs rhs =>
    match n.ty.precision? with
    | some p =>
      match op.float? with
      | some f =>
        ∃ w, p.unifyNaN w = p.apply f (m.word lhs) (m.word rhs) ∧ o = .ok (m.find id w)
      | none => False
    | none =>
      match op.evalInt n.ty (m.word lhs) (m.word rhs) with
      | .ok w => o = .ok (m.find id (n.ty.settle w))
      | .error _ => o = .error m.events
  | .logic op lhs rhs =>
    let w := op.word n.ty.isSigned (m.word lhs) (m.word rhs)
    o = .ok (m.find id (if op = .shl then n.ty.settle w else w))
  | .compare pred lhs rhs =>
    o = .ok (m.find id (Value.compare pred (m.value g lhs) (m.value g rhs)).bits)
  | .field base offset =>
    ∃ w, ω.Loads m n.ty (fieldAddress (m.word base) offset) w ∧ o = .ok (m.find id w)
  | .element base index =>
    ∃ w, ω.Loads m n.ty (elementAddress (m.word base) (m.word index) n.ty) w ∧
      o = .ok (m.find id w)
  | .call target args =>
    let call := callOf g m target args n.ty
    ∃ w, ω.reply m.calls call w ∧
      o = .ok ((m.call ⟨call, id, args.map m.word, n.ty.settle w⟩).find id (n.ty.settle w))
  | .cast x => o = .ok (m.find id (convert (g.tyOf x) n.ty (m.word x)))

def visitAll (step : Finset NodeId → NodeId → Course) : Finset NodeId → List NodeId → Course
  | _, [] => .stay
  | done, x :: xs => (step done x).andThen (visitAll step (done ∪ g.below x) xs)

/-- The nodes that are found ahead of the arms of a conditional: what the arms share
and the condition. -/
def ahead (root : NodeId) (done : Finset NodeId) (cond thenValue elseValue : NodeId) :
    List NodeId :=
  sharedNodes g (g.remaining root done) thenValue elseValue ++ [cond]

def arm (m : Moment) (cond thenValue elseValue : NodeId) : NodeId :=
  if m.word cond != 0 then thenValue else elseValue

/-- Finding the value of a node whose operands are nested at most `depth` deep, and
first the values it needs, except where they are done, by a way to find those of single nodes. -/
def playBy (visit : NodeId → Node → Course) (root : NodeId) :
    Nat → Finset NodeId → NodeId → Course
  | 0, _, _ => fun _ _ => False
  | depth + 1, done, id =>
    if id ∈ done then .stay
    else
      match g.node? id with
      | none => fun _ _ => False
      | some n =>
        match n.kind with
        | .select cond thenValue elseValue =>
          let first := ahead g root done cond thenValue elseValue
          (visitAll g (playBy visit root depth) done first).andThen fun m =>
            let x := arm m cond thenValue elseValue
            (playBy visit root depth (g.doneAfter done first) x).andThen
              (fun m' o => o = .ok (m'.find id (m'.word x))) m
        | _ => (visitAll g (playBy visit root depth) done n.operands).andThen (visit id n)

/-- Finding the value of a node as generated code does. -/
def play (root : NodeId) : Nat → Finset NodeId → NodeId → Course := playBy g (visit ω g) root

end World

end NativeExpr
