import NativeExpr.Graph.Eval
import NativeExpr.Proofs.Floats
import NativeExpr.Proofs.Graph.Construction

/-!
# Evaluation by the plain rule

The evaluator keeps what it has found in a table. By the plain rule a node is found anew
wherever it is used, operands from left to right and only the selected arm of a conditional.
Both give the same results. A value has the type of its node and is canonical, and it is
refused only where the plain rule comes to a node that has none.
-/
namespace NativeExpr

/-! ## Canonical values -/

namespace Value

/-- Whether the word of a value is the one that its type has for it. -/
def Canonical (v : Value) : Prop := v.ty.canonical v.bits = v.bits

instance (v : Value) : Decidable v.Canonical := inferInstanceAs (Decidable (_ = _))

variable {ty : ScalarType} {p : Precision} {op : ArithOp} {a b v : Value} {w : Word}

theorem canonical_ofRaw (ty : ScalarType) (raw : Word) : (ofRaw ty raw).Canonical :=
  ty.canonical_canonical raw

theorem canonical_ofBool (b : Bool) : (ofBool b).Canonical := by cases b <;> rfl

theorem canonical_of_fits (h : ty.precision? = some p) (fits : p.Fits w) :
    (⟨ty, w⟩ : Value).Canonical := by
  cases ty <;> cases h <;> exact fits

theorem canonical_ofDouble (ty : ScalarType) (pattern : Word) :
    (ofDouble ty pattern).Canonical := by
  unfold ofDouble
  split
  · exact canonical_of_fits rfl (Precision.fits_convert ..)
  · exact canonical_of_fits rfl (Precision.fits_double _)

theorem ty_ofDouble (float : ty.isFloat = true) (pattern : Word) :
    (ofDouble ty pattern).ty = ty := by
  cases ty <;> first | rfl | cases float

theorem arith_sound (h : arith op ty a b = .ok v) : v.ty = ty ∧ v.Canonical := by
  unfold arith at h
  split at h
  · next p float =>
    split at h
    · cases h
      exact ⟨rfl, canonical_of_fits float (Precision.fits_apply ..)⟩
    · cases h
  · cases hw : op.evalInt ty a.bits b.bits with
    | error e =>
      rw [hw] at h
      cases h
    | ok w =>
      rw [hw] at h
      cases h
      exact ⟨rfl, canonical_ofRaw ty w⟩

theorem cast_sound (canonical : a.Canonical) (h : a.cast ty = .ok v) : v.ty = ty ∧ v.Canonical := by
  unfold cast at h
  split at h
  · next same =>
    cases h
    exact ⟨same, canonical⟩
  split at h
  · cases h
  split at h
  · next bool =>
    cases h
    exact ⟨bool.symm, canonical_ofBool _⟩
  cases h
  split
  · next q _ float => exact ⟨rfl, canonical_of_fits float (Precision.fits_convert q _)⟩
  · next q _ float => exact ⟨rfl, canonical_of_fits float (Precision.fits_ofInt q _)⟩
  · exact ⟨rfl, canonical_ofRaw ..⟩
  · exact ⟨rfl, canonical_ofRaw ..⟩

/-- The least number of 64 bits is a value of no narrower signed type. -/
theorem eq_i64_of_canonical (signed : ty.isSigned = true)
    (canonical : ty.canonical (BitVec.intMin 64) = BitVec.intMin 64) : ty = .i64 := by
  have narrow : ∀ ty : ScalarType, ty ∈ [.i8, .i16, .i32] →
      ty.canonical (BitVec.intMin 64) ≠ BitVec.intMin 64 := by decide
  cases ty with
  | i64 => rfl
  | i8 | i16 | i32 => exact absurd canonical (narrow _ (by decide))
  | _ => cases signed

end Value

theorem ArithOp.evalInt_eq_error {op : ArithOp} {ty : ScalarType} {x y : Word} {e : CompileError} :
    op.evalInt ty x y = .error e ↔ (op = .div ∨ op = .rem) ∧
      (y = 0 ∧ e = .unsupported (.divisionByZero op) ∨
        (ty.isSigned = true ∧ x = BitVec.intMin 64 ∧ y = -1) ∧
          e = .unsupported (.quotientOverflow op)) := by
  have apart : (0 : Word) ≠ -1 := by decide
  cases op with
  | add | sub | mul => exact ⟨nofun, nofun⟩
  | div | rem =>
    unfold evalInt
    dsimp only
    grind

namespace Value

variable {ty : ScalarType} {op : ArithOp} {a b : Value} {e : CompileError}

theorem arith_eq_error : arith op ty a b = .error e ↔
    (ty.isFloat = true ∧ op = .rem) ∧ e = .unsupported .floatRemainder ∨
      ty.isFloat = false ∧ op.evalInt ty a.bits b.bits = .error e := by
  unfold arith
  cases hp : ty.precision? with
  | some p =>
    have float := ScalarType.isFloat_of_precision hp
    cases op <;> simp [float, ArithOp.float?, eq_comm]
  | none =>
    have whole := ScalarType.precision?_eq_none.1 hp
    cases hw : op.evalInt ty a.bits b.bits <;> simp [whole, Except.map]

theorem lacksConversion_iff {source target : ScalarType} : source.lacksConversion target = true ↔
    source = .u64 ∧ target.isFloat = true ∨ source.isFloat = true ∧ target = .u64 := by
  simp [ScalarType.lacksConversion]

theorem cast_eq_error : a.cast ty = .error e ↔
    a.ty.lacksConversion ty = true ∧ e = .unsupported (.conversion a.ty ty) := by
  have apart : a.ty = ty → a.ty.lacksConversion ty = false := by
    rintro rfl
    cases a.ty <;> rfl
  unfold cast
  split
  · next same => simp [apart same]
  split
  · next lacks => simp [lacks, eq_comm]
  · next has => split <;> simp [has]

end Value

/-! ## The plain rule -/

/-- The operands that are found first in any case, in their order. A call is refused at once. -/
def Node.strict (n : Node) : List NodeId :=
  match n.kind with
  | .select cond _ _ => [cond]
  | .call _ _ => []
  | kind => kind.operands

namespace Scope

/-- The value of a node, given the values of its operands. -/
def nodeValue (s : Scope) (value : NodeId → Except CompileError Value) (n : Node) :
    Except CompileError Value :=
  match n.kind with
  | .immediate (.int v) => .ok (.ofRaw n.ty v)
  | .immediate (.float p) => .ok (.ofDouble n.ty p)
  | .parameter index =>
    match s.args[index]? with
    | some v => .ok v
    | none => .error (.invalidParameter index s.args.length)
  | .arith op lhs rhs => do
    let a ← value lhs
    let b ← value rhs
    Value.arith op n.ty a b
  | .logic op lhs rhs => do
    let a ← value lhs
    let b ← value rhs
    .ok (.logic op n.ty a b)
  | .compare pred lhs rhs => do
    let a ← value lhs
    let b ← value rhs
    .ok (.compare pred a b)
  | .select cond thenValue elseValue => do
    let c ← value cond
    if c.isTrue then value thenValue else value elseValue
  | .field base offset => do
    let b ← value base
    s.load n.ty (fieldAddress b.bits offset)
  | .element base index => do
    let b ← value base
    let i ← value index
    s.load n.ty (elementAddress b.bits i.bits n.ty)
  | .call target _ => .error (.unsupported (.foreignCall target))
  | .cast operand => do
    let v ← value operand
    v.cast n.ty

/-- The value of a node whose operands are nested at most `depth` deep. -/
def valueWithin (s : Scope) : Nat → NodeId → Except CompileError Value
  | 0, id => .error (.unknownNode id)
  | depth + 1, id => do
    let n ← s.graph.node id
    s.nodeValue (s.valueWithin depth) n

/-- The value of a node by the plain rule. -/
def value (s : Scope) (id : NodeId) : Except CompileError Value := s.valueWithin (id + 1) id

variable {s : Scope} {n : Node} {id root x y : NodeId} {v : Value} {e : CompileError}

theorem nodeValue_congr {f f' : NodeId → Except CompileError Value}
    (same : ∀ x ∈ n.operands, f x = f' x) : s.nodeValue f n = s.nodeValue f' n := by
  obtain ⟨kind, ty⟩ := n
  cases kind with
  | immediate value => cases value <;> rfl
  | parameter | call => rfl
  | arith op lhs rhs | logic op lhs rhs | compare op lhs rhs | element lhs rhs =>
    obtain ⟨left, right⟩ : f lhs = f' lhs ∧ f rhs = f' rhs := by
      simpa [Node.operands, NodeKind.operands] using same
    simp only [nodeValue, left, right]
  | select cond thenValue elseValue =>
    obtain ⟨first, left, right⟩ : f cond = f' cond ∧ f thenValue = f' thenValue ∧
        f elseValue = f' elseValue := by
      simpa [Node.operands, NodeKind.operands] using same
    simp only [nodeValue, first, left, right]
  | field operand | cast operand =>
    have only : f operand = f' operand := by
      simpa [Node.operands, NodeKind.operands] using same
    simp only [nodeValue, only]

/-- Any depth that reaches the first nodes gives the same value. -/
theorem valueWithin_eq (w : s.graph.WellFormed) {depth : Nat} (h : id < depth) :
    s.valueWithin depth id = s.value id := by
  induction id using Nat.strong_induction_on generalizing depth with
  | h id ih =>
    obtain ⟨depth, rfl⟩ := Nat.exists_eq_add_one_of_ne_zero (Nat.ne_zero_of_lt h)
    rw [value, valueWithin, valueWithin]
    cases hn : s.graph.node id with
    | error e => rfl
    | ok n =>
      have hn := Graph.node_eq_ok.1 hn
      refine nodeValue_congr fun x hx => ?_
      have before := w.operands_lt hn x hx
      rw [ih x before (Nat.lt_of_lt_of_le before (Nat.le_of_lt_succ h)), ih x before before]

theorem value_eq (w : s.graph.WellFormed) (hn : s.graph.node? id = some n) :
    s.value id = s.nodeValue s.value n := by
  rw [value, valueWithin, Graph.node, hn]
  exact nodeValue_congr fun x hx => valueWithin_eq w (w.operands_lt hn x hx)

/-! ## The table -/

/-- A table of values that the plain rule finds. -/
structure Tabled (s : Scope) (t : Array (Option Value)) : Prop where
  size : t.size = s.graph.size
  value : ∀ {x v}, t[x]?.join = some v → s.value x = .ok v

/-- Whether a computation has a result, and fills the table with values of the plain rule only. -/
def Finds {α : Type} (s : Scope) (m : Eval α) (r : Except CompileError α) : Prop :=
  ∀ t, s.Tabled t →
    Yields m t (fun a t' => r = .ok a ∧ s.Tabled t') fun e t' => r = .error e ∧ s.Tabled t'

namespace Finds

variable {α β : Type}

theorem pure (a : α) : s.Finds (Pure.pure a) (.ok a) := fun _ h => .of_pure ⟨rfl, h⟩

theorem throw (e : CompileError) : s.Finds (MonadExcept.throw e : Eval α) (.error e) :=
  fun _ h => .of_throw ⟨rfl, h⟩

theorem lift (r : Except CompileError α) : s.Finds (liftM r) r :=
  fun _ h => .of_except (fun _ hr => ⟨hr, h⟩) fun _ hr => ⟨hr, h⟩

theorem bind {m : Eval α} {r : Except CompileError α} {f : α → Eval β}
    {k : α → Except CompileError β} (h : s.Finds m r) (hf : ∀ a, s.Finds (f a) (k a)) :
    s.Finds (m >>= f) (r >>= k) := by
  refine fun t ht => .bind ((h t ht).mono ?_ ?_)
  · rintro a t' ⟨rfl, ht'⟩
    exact hf a t' ht'
  · rintro e t' ⟨rfl, ht'⟩
    exact ⟨rfl, ht'⟩

theorem evalNode {f : NodeId → Eval Value} {value : NodeId → Except CompileError Value}
    (operands : ∀ x ∈ n.operands, s.Finds (f x) (value x)) :
    s.Finds (s.evalNode f n) (s.nodeValue value n) := by
  obtain ⟨kind, ty⟩ := n
  cases kind with
  | immediate value =>
    cases value with
    | int v => exact pure _
    | float p => exact pure _
  | parameter index =>
    unfold Scope.evalNode nodeValue
    dsimp only
    cases s.args[index]? with
    | some v => exact pure v
    | none => exact throw _
  | call target args => exact throw _
  | arith op lhs rhs =>
    obtain ⟨left, right⟩ : s.Finds (f lhs) (value lhs) ∧ s.Finds (f rhs) (value rhs) := by
      simpa [Node.operands, NodeKind.operands] using operands
    exact left.bind fun a => right.bind fun b => lift _
  | logic op lhs rhs | compare op lhs rhs =>
    obtain ⟨left, right⟩ : s.Finds (f lhs) (value lhs) ∧ s.Finds (f rhs) (value rhs) := by
      simpa [Node.operands, NodeKind.operands] using operands
    exact left.bind fun a => right.bind fun b => pure _
  | element base index =>
    obtain ⟨left, right⟩ : s.Finds (f base) (value base) ∧ s.Finds (f index) (value index) := by
      simpa [Node.operands, NodeKind.operands] using operands
    exact left.bind fun a => right.bind fun b => lift _
  | select cond thenValue elseValue =>
    obtain ⟨first, left, right⟩ : s.Finds (f cond) (value cond) ∧
        s.Finds (f thenValue) (value thenValue) ∧ s.Finds (f elseValue) (value elseValue) := by
      simpa [Node.operands, NodeKind.operands] using operands
    refine first.bind fun c => ?_
    split
    · exact left
    · exact right
  | field operand | cast operand =>
    have only : s.Finds (f operand) (value operand) := by
      simpa [Node.operands, NodeKind.operands] using operands
    exact only.bind fun a => lift _

end Finds

theorem Tabled.set {t : Array (Option Value)} (h : s.Tabled t) (hv : s.value id = .ok v) :
    s.Tabled (t.setIfInBounds id (some v)) := by
  refine ⟨by rw [Array.size_setIfInBounds, h.size], fun {x u} hx => ?_⟩
  rw [Array.getElem?_setIfInBounds] at hx
  split at hx
  · next same =>
    subst same
    split at hx
    · cases hx
      exact hv
    · cases hx
  · exact h.value hx

theorem finds_evalWithin (w : s.graph.WellFormed) {depth : Nat} (h : id < depth) :
    s.Finds (s.evalWithin depth id) (s.value id) := by
  induction depth generalizing id with
  | zero => exact absurd h (Nat.not_lt_zero _)
  | succ depth ih =>
    intro t ht
    refine .bind (.of_get ?_)
    split
    · next v hv => exact .of_pure ⟨ht.value hv, ht⟩
    · refine .bind (.of_except (fun n hn => ?_) fun e he => ?_)
      · have hn := Graph.node_eq_ok.1 hn
        have found : s.Finds (s.evalNode (s.evalWithin depth) n) (s.nodeValue s.value n) :=
          .evalNode fun x hx =>
            ih (Nat.lt_of_lt_of_le (w.operands_lt hn x hx) (Nat.le_of_lt_succ h))
        rw [← value_eq w hn] at found
        refine .bind ((found t ht).mono ?_ fun _ _ h => h)
        rintro v t' ⟨hv, ht'⟩
        exact .bind (.of_modify (.of_pure ⟨hv, ht'.set hv⟩))
      · refine ⟨?_, ht⟩
        rw [value, valueWithin, he]
        rfl

/-! ## Types -/

/-- Whether the graph is well formed and the arguments are what its parameters ask for. -/
structure Supplied (s : Scope) : Prop where
  wellFormed : s.graph.WellFormed
  argument : ∀ {id i ty}, s.graph.node? id = some ⟨.parameter i, ty⟩ →
    ∃ v, s.args[i]? = some v ∧ v.ty = ty ∧ v.Canonical

theorem supplied (w : s.graph.WellFormed) (checked : s.checkArgs = .ok ())
    (canonical : ∀ v ∈ s.args, v.Canonical) : s.Supplied := by
  refine ⟨w, fun {id i ty} hn => ?_⟩
  unfold checkArgs at checked
  dsimp only at checked
  split at checked
  · cases checked
  next length =>
  split at checked
  · cases checked
  next matching =>
  have declared : s.graph.paramTypes[i]? = some ty := by
    rw [w.paramTypes_eq, List.getElem?_map, w.declared hn]
    exact congrArg some (Graph.hasType_of_node? hn).tyOf_eq
  have inside : i < s.args.length := by
    rw [not_not.1 length]
    exact (List.getElem?_eq_some_iff.1 declared).1
  have given : s.args[i]? = some s.args[i] := List.getElem?_eq_getElem inside
  have same := List.find?_eq_none.1 matching (s.args[i], ty)
    (List.mem_of_getElem? (List.getElem?_zip_eq_some.2 ⟨given, declared⟩))
  exact ⟨_, given, by simpa using same, canonical _ (List.getElem_mem inside)⟩

/-- Whether every value of a node is a canonical one of its type. -/
def Types (s : Scope) (x : NodeId) : Prop :=
  ∀ v, s.value x = .ok v → s.graph.HasType x v.ty ∧ v.Canonical

theorem load_sound {ty : ScalarType} {address : Word} (h : s.load ty address = .ok v) :
    v.ty = ty ∧ v.Canonical := by
  unfold load at h
  split at h
  · cases h
    exact ⟨rfl, Value.canonical_ofRaw ..⟩
  · cases h

theorem load_eq_error {ty : ScalarType} {address : Word} :
    s.load ty address = .error e ↔ s.memory = none ∧ e = .unsupported .memoryAccess := by
  unfold load
  cases s.memory <;> simp [eq_comm]

/-- A value has the type of its node and is canonical if those of the operands are. -/
theorem Supplied.nodeValue_sound (supplied : s.Supplied) (hn : s.graph.node? id = some n)
    (operands : ∀ x ∈ n.operands, s.Types x) (h : s.nodeValue s.value n = .ok v) :
    v.ty = n.ty ∧ v.Canonical := by
  have typed := supplied.wellFormed.typed hn
  obtain ⟨kind, ty⟩ := n
  cases kind with
  | immediate value =>
    cases value with
    | int w =>
      cases h
      exact ⟨rfl, Value.canonical_ofRaw ..⟩
    | float p =>
      cases h
      exact ⟨Value.ty_ofDouble typed p, Value.canonical_ofDouble ..⟩
  | parameter index =>
    obtain ⟨u, given, rest⟩ := supplied.argument hn
    simp only [nodeValue, given] at h
    cases h
    exact rest
  | arith op lhs rhs =>
    obtain ⟨a, -, h⟩ := bind_eq_ok.1 h
    obtain ⟨b, -, h⟩ := bind_eq_ok.1 h
    exact Value.arith_sound h
  | logic op lhs rhs =>
    obtain ⟨a, -, h⟩ := bind_eq_ok.1 h
    obtain ⟨b, -, h⟩ := bind_eq_ok.1 h
    cases h
    exact ⟨rfl, Value.canonical_ofRaw ..⟩
  | compare pred lhs rhs =>
    obtain ⟨a, -, h⟩ := bind_eq_ok.1 h
    obtain ⟨b, -, h⟩ := bind_eq_ok.1 h
    cases h
    exact ⟨typed.2.symm, Value.canonical_ofBool _⟩
  | select cond thenValue elseValue =>
    obtain ⟨c, -, h⟩ := bind_eq_ok.1 h
    obtain ⟨_, left, right⟩ : s.Types cond ∧ s.Types thenValue ∧ s.Types elseValue := by
      simpa [Node.operands, NodeKind.operands] using operands
    split at h
    · exact ⟨((left v h).1.unique typed.2.1), (left v h).2⟩
    · exact ⟨((right v h).1.unique typed.2.2), (right v h).2⟩
  | field base offset =>
    obtain ⟨b, -, h⟩ := bind_eq_ok.1 h
    exact load_sound h
  | element base index =>
    obtain ⟨b, -, h⟩ := bind_eq_ok.1 h
    obtain ⟨i, -, h⟩ := bind_eq_ok.1 h
    exact load_sound h
  | call target args => cases h
  | cast operand =>
    obtain ⟨a, ha, h⟩ := bind_eq_ok.1 h
    have only : s.Types operand := by simpa [Node.operands, NodeKind.operands] using operands
    exact Value.cast_sound (only a ha).2 h

theorem Supplied.types (supplied : s.Supplied) (x : NodeId) : s.Types x := by
  induction x using Nat.strong_induction_on with
  | h x ih =>
    intro v hv
    cases hn : s.graph.node? x with
    | none =>
      rw [value, valueWithin, Graph.node, hn] at hv
      cases hv
    | some n =>
      rw [value_eq supplied.wellFormed hn] at hv
      obtain ⟨ty, canonical⟩ := supplied.nodeValue_sound hn
        (fun y hy => ih y (supplied.wellFormed.operands_lt hn y hy)) hv
      exact ⟨ty ▸ Graph.hasType_of_node? hn, canonical⟩

/-! ## Refused values -/

/-- The operands that the plain rule comes to for the value of a node: one after the other as
long as they have values, and of two arms the one that the condition selects. -/
inductive Asks (s : Scope) (n : Node) : NodeId → Prop
  | first {x : NodeId} {rest : List NodeId} (operands : n.strict = x :: rest) : Asks s n x
  | second {x y : NodeId} {a : Value} (operands : n.strict = [x, y]) (found : s.value x = .ok a) :
    Asks s n y
  | arm {cond thenValue elseValue : NodeId} {c : Value}
    (kind : n.kind = .select cond thenValue elseValue) (found : s.value cond = .ok c) :
    Asks s n (if c.isTrue then thenValue else elseValue)

/-- The nodes that the plain rule comes to for the value of a node. -/
inductive Demands (s : Scope) : NodeId → NodeId → Prop
  | refl (x : NodeId) : Demands s x x
  | head {x y z : NodeId} {n : Node} (node : s.graph.node? x = some n) (asks : Asks s n y)
    (rest : Demands s y z) : Demands s x z

/-- Why a node has no value although its operands have. -/
inductive Faults (s : Scope) (n : Node) : Unsupported → Prop
  | divisor {op : ArithOp} {x y : NodeId} {b : Value} (kind : n.kind = .arith op x y)
    (division : op = .div ∨ op = .rem) (integer : n.ty.isInteger = true)
    (right : s.value y = .ok b) (zero : b.bits = 0) : Faults s n (.divisionByZero op)
  | quotient {op : ArithOp} {x y : NodeId} {a b : Value} (kind : n.kind = .arith op x y)
    (division : op = .div ∨ op = .rem) (ty : n.ty = .i64) (left : s.value x = .ok a)
    (right : s.value y = .ok b) (least : a.bits = BitVec.intMin 64) (minus : b.bits = -1) :
    Faults s n (.quotientOverflow op)
  | remainder {x y : NodeId} (kind : n.kind = .arith .rem x y) (float : n.ty.isFloat = true) :
    Faults s n .floatRemainder
  | conversion {x : NodeId} {source : ScalarType} (kind : n.kind = .cast x)
    (typed : s.graph.HasType x source)
    (pair : source = .u64 ∧ n.ty.isFloat = true ∨ source.isFloat = true ∧ n.ty = .u64) :
    Faults s n (.conversion source n.ty)
  | call {target : Word} {args : List NodeId} (kind : n.kind = .call target args) :
    Faults s n (.foreignCall target)
  | load (kind : (∃ base offset, n.kind = .field base offset) ∨
      ∃ base index, n.kind = .element base index)
    (blind : s.memory = none) : Faults s n .memoryAccess

/-- Whether a node has no value although its operands have, and the error for it. -/
def Refuses (s : Scope) (x : NodeId) (e : CompileError) : Prop :=
  ∃ n u, s.graph.node? x = some n ∧ (∀ y ∈ n.strict, ∃ v, s.value y = .ok v) ∧ s.Faults n u ∧
    e = .unsupported u

theorem Asks.mem_operands (asks : s.Asks n y) : y ∈ n.operands := by
  obtain ⟨kind, ty⟩ := n
  cases asks with
  | first operands => cases kind <;> cases operands <;> exact List.mem_cons_self ..
  | second operands => cases kind <;> cases operands <;> simp [Node.operands, NodeKind.operands]
  | arm same =>
    cases same
    split <;> simp [Node.operands, NodeKind.operands]

theorem Asks.error (asks : s.Asks n y) (h : s.value y = .error e) :
    s.nodeValue s.value n = .error e := by
  obtain ⟨kind, ty⟩ := n
  cases asks with
  | first operands =>
    cases kind <;> cases operands <;> exact bind_eq_error.2 (.inl h)
  | second operands found =>
    cases kind <;> cases operands <;>
      exact bind_eq_error.2 (.inr ⟨_, found, bind_eq_error.2 (.inl h)⟩)
  | arm same found =>
    cases same
    refine bind_eq_error.2 (.inr ⟨_, found, ?_⟩)
    split at h
    · next true => rwa [if_pos true]
    · next false => rwa [if_neg false]

theorem Faults.error {u : Unsupported} (supplied : s.Supplied) (faults : s.Faults n u)
    (operands : ∀ y ∈ n.strict, ∃ v, s.value y = .ok v) :
    s.nodeValue s.value n = .error (.unsupported u) := by
  obtain ⟨kind, ty⟩ := n
  cases faults with
  | @divisor op x y b same division integer right zero =>
    cases same
    obtain ⟨a, left⟩ := operands x (List.mem_cons_self ..)
    have whole := ScalarType.isFloat_of_isInteger integer
    exact bind_eq_error.2 (.inr ⟨a, left, bind_eq_error.2 (.inr ⟨b, right, Value.arith_eq_error.2
      (.inr ⟨whole, ArithOp.evalInt_eq_error.2 ⟨division, .inl ⟨zero, rfl⟩⟩⟩)⟩)⟩)
  | @quotient op x y a b same division wide left right least minus =>
    cases same
    cases wide
    exact bind_eq_error.2 (.inr ⟨a, left, bind_eq_error.2 (.inr ⟨b, right, Value.arith_eq_error.2
      (.inr ⟨rfl, ArithOp.evalInt_eq_error.2 ⟨division, .inr ⟨⟨rfl, least, minus⟩, rfl⟩⟩⟩)⟩)⟩)
  | @remainder x y same float =>
    cases same
    obtain ⟨a, left⟩ := operands x (List.mem_cons_self ..)
    obtain ⟨b, right⟩ := operands y (List.mem_cons_of_mem _ (List.mem_cons_self ..))
    exact bind_eq_error.2 (.inr ⟨a, left, bind_eq_error.2 (.inr ⟨b, right, Value.arith_eq_error.2
      (.inl ⟨⟨float, rfl⟩, rfl⟩)⟩)⟩)
  | @conversion x source same typed pair =>
    cases same
    obtain ⟨a, found⟩ := operands x (List.mem_cons_self ..)
    have source : source = a.ty := typed.unique (supplied.types x a found).1
    subst source
    exact bind_eq_error.2 (.inr ⟨a, found,
      Value.cast_eq_error.2 ⟨Value.lacksConversion_iff.2 pair, rfl⟩⟩)
  | call same =>
    cases same
    rfl
  | load same blind =>
    have refused (address : Word) : s.load ty address = .error (.unsupported .memoryAccess) :=
      load_eq_error.2 ⟨blind, rfl⟩
    rcases same with ⟨base, offset, same⟩ | ⟨base, index, same⟩
    · cases same
      obtain ⟨a, left⟩ := operands base (List.mem_cons_self ..)
      exact bind_eq_error.2 (.inr ⟨a, left, refused _⟩)
    · cases same
      obtain ⟨a, left⟩ := operands base (List.mem_cons_self ..)
      obtain ⟨b, right⟩ := operands index (List.mem_cons_of_mem _ (List.mem_cons_self ..))
      exact bind_eq_error.2 (.inr ⟨a, left, bind_eq_error.2 (.inr ⟨b, right, refused _⟩)⟩)

/-- A node without a value has an operand without one, or a fault of its own. -/
theorem Supplied.asks_or_faults (supplied : s.Supplied) (hn : s.graph.node? id = some n)
    (h : s.nodeValue s.value n = .error e) :
    (∃ y, s.Asks n y ∧ s.value y = .error e) ∨
      (∀ y ∈ n.strict, ∃ v, s.value y = .ok v) ∧ ∃ u, s.Faults n u ∧ e = .unsupported u := by
  have typed := supplied.wellFormed.typed hn
  obtain ⟨kind, ty⟩ := n
  cases kind with
  | immediate value => cases value <;> cases h
  | parameter index =>
    obtain ⟨v, given, -⟩ := supplied.argument hn
    simp only [nodeValue, given] at h
    cases h
  | call target args =>
    cases h
    exact .inr ⟨fun y hy => (List.not_mem_nil hy).elim, _, .call rfl, rfl⟩
  | arith op lhs rhs =>
    rcases bind_eq_error.1 h with h | ⟨a, left, h⟩
    · exact .inl ⟨lhs, .first rfl, h⟩
    rcases bind_eq_error.1 h with h | ⟨b, right, h⟩
    · exact .inl ⟨rhs, .second rfl left, h⟩
    refine .inr ⟨List.forall_mem_cons.2 ⟨⟨a, left⟩, List.forall_mem_singleton.2 ⟨b, right⟩⟩, ?_⟩
    rcases Value.arith_eq_error.1 h with ⟨⟨float, rfl⟩, rfl⟩ | ⟨whole, h⟩
    · exact ⟨_, .remainder rfl float, rfl⟩
    obtain ⟨division, ⟨zero, rfl⟩ | ⟨⟨signed, least, minus⟩, rfl⟩⟩ := ArithOp.evalInt_eq_error.1 h
    · have integer := typed.2.2.resolve_right (by simp [whole])
      exact ⟨_, .divisor rfl division integer right zero, rfl⟩
    · obtain ⟨type, canonical⟩ := supplied.types lhs a left
      have wide : ty = .i64 := by
        have same : a.ty = ty := type.unique typed.1
        rw [Value.Canonical, same, least] at canonical
        exact Value.eq_i64_of_canonical signed canonical
      exact ⟨_, .quotient rfl division wide left right least minus, rfl⟩
  | logic op lhs rhs | compare op lhs rhs =>
    rcases bind_eq_error.1 h with h | ⟨a, left, h⟩
    · exact .inl ⟨lhs, .first rfl, h⟩
    rcases bind_eq_error.1 h with h | ⟨b, right, h⟩
    · exact .inl ⟨rhs, .second rfl left, h⟩
    cases h
  | select cond thenValue elseValue =>
    rcases bind_eq_error.1 h with h | ⟨c, found, h⟩
    · exact .inl ⟨cond, .first rfl, h⟩
    refine .inl ⟨_, .arm rfl found, ?_⟩
    split at h
    · next true => rwa [if_pos true]
    · next false => rwa [if_neg false]
  | field base offset =>
    rcases bind_eq_error.1 h with h | ⟨a, left, h⟩
    · exact .inl ⟨base, .first rfl, h⟩
    obtain ⟨blind, rfl⟩ := load_eq_error.1 h
    exact .inr ⟨List.forall_mem_singleton.2 ⟨a, left⟩, _,
      .load (.inl ⟨base, offset, rfl⟩) blind, rfl⟩
  | element base index =>
    rcases bind_eq_error.1 h with h | ⟨a, left, h⟩
    · exact .inl ⟨base, .first rfl, h⟩
    rcases bind_eq_error.1 h with h | ⟨b, right, h⟩
    · exact .inl ⟨index, .second rfl left, h⟩
    obtain ⟨blind, rfl⟩ := load_eq_error.1 h
    exact .inr ⟨List.forall_mem_cons.2 ⟨⟨a, left⟩, List.forall_mem_singleton.2 ⟨b, right⟩⟩, _,
      .load (.inr ⟨base, index, rfl⟩) blind, rfl⟩
  | cast operand =>
    rcases bind_eq_error.1 h with h | ⟨a, found, h⟩
    · exact .inl ⟨operand, .first rfl, h⟩
    obtain ⟨lacks, rfl⟩ := Value.cast_eq_error.1 h
    exact .inr ⟨List.forall_mem_singleton.2 ⟨a, found⟩, _, .conversion rfl
      (supplied.types operand a found).1 (Value.lacksConversion_iff.1 lacks), rfl⟩

/-- A node has no value exactly where the plain rule comes to a node that refuses one. -/
theorem Supplied.value_eq_error (supplied : s.Supplied) (inside : id < s.graph.size) :
    s.value id = .error e ↔ ∃ x, s.Demands id x ∧ s.Refuses x e := by
  have w := supplied.wellFormed
  constructor
  · intro h
    induction id using Nat.strong_induction_on with
    | h id ih =>
      obtain ⟨n, hn⟩ := Graph.node?_of_lt inside
      rw [value_eq w hn] at h
      rcases supplied.asks_or_faults hn h with ⟨y, asks, hy⟩ | ⟨operands, u, faults, rfl⟩
      · have before := w.operands_lt hn y asks.mem_operands
        obtain ⟨x, demands, refuses⟩ := ih y before (Nat.lt_trans before inside) hy
        exact ⟨x, .head hn asks demands, refuses⟩
      · exact ⟨id, .refl id, n, u, hn, operands, faults, rfl⟩
  · rintro ⟨x, demands, refuses⟩
    induction demands with
    | refl x =>
      obtain ⟨n, u, hn, operands, faults, rfl⟩ := refuses
      rw [value_eq w hn]
      exact faults.error supplied operands
    | @head x y z n hn asks rest ih =>
      have before := w.operands_lt hn y asks.mem_operands
      rw [value_eq w hn]
      exact asks.error (ih (Nat.lt_trans before inside) refuses)

/-! ## Evaluation -/

theorem entered_evalWithin (w : s.graph.WellFormed) {depth : Nat} (h : id < depth)
    (inside : id < s.graph.size) {t : Array (Option Value)} (ht : s.Tabled t) :
    Yields (s.evalWithin depth id) t (fun v t' => t'[id]?.join = some v) fun _ _ => True := by
  obtain ⟨depth, rfl⟩ := Nat.exists_eq_add_one_of_ne_zero (Nat.ne_zero_of_lt h)
  refine .bind (.of_get ?_)
  split
  · next v hv => exact .of_pure hv
  · refine .bind (.of_except (fun n hn => ?_) fun _ _ => trivial)
    have found : s.Finds (s.evalNode (s.evalWithin depth) n) (s.nodeValue s.value n) :=
      .evalNode fun x hx => finds_evalWithin w (Nat.lt_of_lt_of_le
        (w.operands_lt (Graph.node_eq_ok.1 hn) x hx)
        (Nat.le_of_lt_succ h))
    refine .bind ((found t ht).mono ?_ fun _ _ _ => trivial)
    rintro v t' ⟨-, ht'⟩
    refine .bind (.of_modify (.of_pure ?_))
    rw [Array.getElem?_setIfInBounds, if_pos rfl, if_pos (ht'.size ▸ inside)]
    rfl

/-- The table when the evaluation of a root has ended. -/
def found (s : Scope) (root : NodeId) : Array (Option Value) :=
  match s.evalWithin (root + 1) root (Array.replicate s.graph.size none) with
  | .ok _ t | .error _ t => t

theorem tabled_empty : s.Tabled (Array.replicate s.graph.size none) := by
  refine ⟨Array.size_replicate, fun {x v} hx => ?_⟩
  rw [Array.getElem?_replicate] at hx
  split at hx <;> cases hx

theorem eval_of_checked (checked : s.checkArgs = .ok ()) : s.eval root =
    match s.evalWithin (root + 1) root (Array.replicate s.graph.size none) with
    | .ok v _ => .ok v
    | .error e _ => .error e := by
  rw [eval, checked]
  rfl

/-- Evaluation gives what the plain rule gives, and nothing else is in its table. -/
theorem eval_eq (w : s.graph.WellFormed) (checked : s.checkArgs = .ok ())
    (inside : root < s.graph.size) :
    s.eval root = s.value root ∧ s.Tabled (s.found root) ∧
      ∀ v, s.eval root = .ok v → (s.found root)[root]?.join = some v := by
  have finds := finds_evalWithin w (Nat.lt_succ_self root) _ (tabled_empty (s := s))
  have entered := entered_evalWithin w (Nat.lt_succ_self root) inside (tabled_empty (s := s))
  rw [eval_of_checked checked]
  unfold found
  unfold Yields at finds entered
  cases hr : s.evalWithin (root + 1) root (Array.replicate s.graph.size none) with
  | ok v t =>
    rw [hr] at finds entered
    refine ⟨finds.1.symm, finds.2, fun u hu => ?_⟩
    cases hu
    exact entered
  | error e t =>
    rw [hr] at finds
    exact ⟨finds.1.symm, finds.2, nofun⟩

/-- Evaluation gives every node that it finds a canonical value of the type of the node. It fails
exactly where the plain rule comes to a node that is refused a value. -/
theorem eval_sound (built : s.graph.Built) (inside : root < s.graph.size)
    (checked : s.checkArgs = .ok ()) (canonical : ∀ v ∈ s.args, v.Canonical) :
    (∀ x v, (s.found root)[x]?.join = some v →
      s.value x = .ok v ∧ s.graph.HasType x v.ty ∧ v.Canonical) ∧
    (∀ v, s.eval root = .ok v →
      s.graph.HasType root v.ty ∧ v.Canonical ∧ (s.found root)[root]?.join = some v) ∧
    ∀ e, s.eval root = .error e ↔ ∃ x, s.Demands root x ∧ s.Refuses x e := by
  have w := built.wellFormed
  have supplied : s.Supplied := Scope.supplied w checked canonical
  obtain ⟨same, tabled, entered⟩ := eval_eq w checked inside
  refine ⟨fun x v hx => ⟨tabled.value hx, supplied.types x v (tabled.value hx)⟩, fun v hv => ?_,
    fun e => ?_⟩
  · obtain ⟨ty, canonical⟩ := supplied.types root v (same ▸ hv)
    exact ⟨ty, canonical, entered v hv⟩
  · rw [same]
    exact supplied.value_eq_error inside

/-- A number divided by itself, if asked for. -/
def ratio : Graph where
  nodes := #[⟨.parameter 0, .i8⟩, ⟨.parameter 1, .bool⟩, ⟨.arith .div 0 0, .i8⟩,
    ⟨.select 1 2 0, .i8⟩]
  params := [0, 1]
  parents := #[2, 1, 1, 0]

theorem built_ratio : ratio.Built :=
  .of_built? [.i8, .bool] [.arith .div 0 0, .select 1 2 0] (by decide +kernel)

theorem eval_sound_ratio :
    (∃ x, Demands ⟨ratio, [⟨.i8, 0⟩, ⟨.bool, 1⟩], none⟩ 3 x ∧
      Refuses ⟨ratio, [⟨.i8, 0⟩, ⟨.bool, 1⟩], none⟩ x (.unsupported (.divisionByZero .div))) ∧
    ratio.HasType 3 .i8 ∧ (⟨.i8, 0⟩ : Value).Canonical := by
  constructor
  · obtain ⟨-, -, refused⟩ := @eval_sound ⟨ratio, [⟨.i8, 0⟩, ⟨.bool, 1⟩], none⟩ 3 built_ratio
      (by decide) rfl (by decide)
    exact (refused _).1 (by decide)
  · obtain ⟨-, value, -⟩ := @eval_sound ⟨ratio, [⟨.i8, 0⟩, ⟨.bool, 0⟩], none⟩ 3 built_ratio
      (by decide) rfl (by decide)
    obtain ⟨type, canonical, -⟩ := value ⟨.i8, 0⟩ (by decide)
    exact ⟨type, canonical⟩

end Scope

end NativeExpr
