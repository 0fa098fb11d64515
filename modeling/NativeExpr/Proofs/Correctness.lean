import NativeExpr.Proofs.Reference

/-!
# Generated code and evaluation

A generated function without calls returns what the evaluator gives for the same arguments in
the same memory, whichever NaNs the two come by, or it ends with a divide error: where the
evaluator fails, or at a division without a quotient that evaluation leaves out.
-/
namespace NativeExpr

open Lowering

namespace Graph

open Machine

variable {g : Graph} {root : NodeId} {o : Options} {h : Host} {s₀ : Machine.State} {c : Generated}

theorem Built.expressible (built : g.Built) (generated : g.generate root o = .ok c) :
    ∀ x ∈ g.below root, Expressible g x := by
  intro x hx
  obtain ⟨σ, _, _, lowered, -⟩ := generate_eq_ok generated
  obtain ⟨E, finished⟩ := built.finished lowered
  by_cases input : x ∈ g.inputs root
  · obtain ⟨i, t, hn⟩ := isParameter_iff.1 (Finset.mem_filter.1 input).2
    intro n hn'
    rw [hn] at hn'
    cases hn'
    trivial
  · exact finished.counted.expressible x (Finset.mem_sdiff.2 ⟨hx, input⟩)

/-- The values of the arguments that a function is entered with, cut to the types of its
parameters. -/
def argumentsAt (g : Graph) (s₀ : Machine.State) : List Value :=
  List.zipWith (fun ty l => ⟨ty, ty.settle (s₀.argument l)⟩) g.paramTypes
    (Convention.argLocations (g.paramTypes.map ScalarType.regClass))

theorem length_argumentsAt : (g.argumentsAt s₀).length = g.paramTypes.length := by
  rw [argumentsAt, List.length_zipWith, Convention.length_argLocations, List.length_map,
    Nat.min_self]

theorem getElem?_argumentsAt (s₀ : Machine.State) {i : Nat} {ty : ScalarType}
    (declared : g.paramTypes[i]? = some ty) :
    ∃ l, (Convention.argLocations (g.paramTypes.map ScalarType.regClass))[i]? = some l ∧
      (g.argumentsAt s₀)[i]? = some ⟨ty, ty.settle (s₀.argument l)⟩ := by
  have inside : i < (Convention.argLocations (g.paramTypes.map ScalarType.regClass)).length := by
    rw [Convention.length_argLocations, List.length_map]
    exact (List.getElem?_eq_some_iff.1 declared).1
  refine ⟨_, List.getElem?_eq_getElem inside, ?_⟩
  rw [argumentsAt, List.getElem?_zipWith, declared, List.getElem?_eq_getElem inside]

theorem checkArgs_argumentsAt {memory : Option Memory} :
    Scope.checkArgs ⟨g, g.argumentsAt s₀, memory⟩ = .ok () := by
  unfold Scope.checkArgs
  dsimp only
  rw [if_neg (not_not.2 length_argumentsAt)]
  split
  · next arg ty found =>
    obtain ⟨i, hi⟩ := List.mem_iff_getElem?.1 (List.mem_of_find?_eq_some found)
    obtain ⟨given, declared⟩ := List.getElem?_zip_eq_some.1 hi
    obtain ⟨l, -, same⟩ := getElem?_argumentsAt s₀ declared
    have same : arg.ty = ty := congrArg Value.ty (Option.some.inj (given.symm.trans same))
    have differ := List.find?_some found
    simp [same] at differ
  · rfl

/-- Evaluation describes what a function finds around it if the loads read memory that stays as
it is and no truth values, and truth values that come in are zeros and ones. -/
theorem describes_around (heap : Word → Bool) (answer : Call → Word) (w : g.WellFormed)
    (inside : root < g.size)
    (truths : ∀ v ∈ g.argumentsAt s₀, v.ty = .bool → v.bits = 0 ∨ v.bits = 1)
    (replies : ∀ k x args, g.Reaches root x → g.node? x = some ⟨.call k.target args, .bool⟩ →
      ScalarType.bool.settle (answer k) = 0 ∨ ScalarType.bool.settle (answer k) = 1)
    (loads : ∀ x ty address, g.Reaches root x →
      g.LoadsFrom (Scope.answered ⟨g, g.argumentsAt s₀, some s₀.memory⟩ answer) x ty address →
        ty ≠ .bool ∧ ∀ i < ty.size, heap (address + BitVec.ofNat 64 i) = true) :
    Scope.Describes ⟨g, g.argumentsAt s₀, some s₀.memory⟩ answer (g.around s₀ heap answer)
      root := by
  have argument {x : NodeId} {i : Nat} {ty : ScalarType}
      (hn : g.node? x = some ⟨.parameter i, ty⟩) : (g.argumentsAt s₀)[i]? =
        some ⟨ty, ty.settle ((g.around s₀ heap answer).param i)⟩ := by
    have declared : g.paramTypes[i]? = some ty := by
      rw [w.paramTypes_eq, List.getElem?_map, w.declared hn]
      exact congrArg some (hasType_of_node? hn).tyOf_eq
    obtain ⟨l, hl, given⟩ := getElem?_argumentsAt s₀ declared
    rw [given, around]
    dsimp only
    rw [hl]
    rfl
  refine ⟨w, inside, argument, fun _ => rfl, fun same => congrArg _ same, fun hx from_ =>
    loads _ _ _ ((w.mem_below inside).1 hx) from_, ?_⟩
  intro x v hx bool foreign found
  have reaches := (w.mem_below inside).1 hx
  obtain ⟨⟨kind, t⟩, hn⟩ := node?_of_lt (lt_size_of_mem_below hx)
  rw [(hasType_of_node? hn).tyOf_eq] at bool
  rw [isForeign, hn] at foreign
  rw [Scope.answered_eq w hn] at found
  cases bool
  cases kind with
  | parameter i =>
    simp only [Scope.answeredNode, Scope.nodeValue, argument hn] at found
    cases found
    exact truths _ (List.mem_of_getElem? (argument hn)) rfl
  | field base offset =>
    obtain ⟨b, hb, -⟩ := bind_eq_ok.1 found
    exact absurd rfl (loads _ _ _ reaches (.field hn hb)).1
  | element base index =>
    obtain ⟨b, hb, found⟩ := bind_eq_ok.1 found
    obtain ⟨i, hi, -⟩ := bind_eq_ok.1 found
    exact absurd rfl (loads _ _ _ reaches (.element hn hb hi)).1
  | call target args =>
    obtain ⟨values, -, found⟩ := bind_eq_ok.1 found
    cases found
    exact replies ⟨target, _, .bool⟩ x args reaches hn
  | immediate | arith | logic | compare | select | cast => cases foreign

/-! ## Functions without calls -/

/-- Whether a root needs no calls. -/
def Silent (g : Graph) (root : NodeId) : Prop :=
  ∀ x target args ty, g.Reaches root x → g.node? x ≠ some ⟨.call target args, ty⟩

def valueAt (g : Graph) (s₀ : Machine.State) (x : NodeId) : Except CompileError Value :=
  g.evaluateIn s₀.memory x (g.argumentsAt s₀)

theorem answered_eq_valueAt (s₀ : Machine.State) {x : NodeId} (w : g.WellFormed)
    (inside : root < g.size) (silent : g.Silent root) (reaches : g.Reaches root x)
    (answer : Call → Word) :
    Scope.answered ⟨g, g.argumentsAt s₀, some s₀.memory⟩ answer x = g.valueAt s₀ x := by
  have value := Scope.eval_eq (s := ⟨g, g.argumentsAt s₀, some s₀.memory⟩) w
    checkArgs_argumentsAt (reaches.lt_size w inside)
  refine Eq.trans (Scope.answered_eq_value w fun y n r hn target args kind => ?_) value.1.symm
  obtain ⟨_, ty⟩ := n
  cases kind
  exact silent y target args ty (reaches.trans r) hn

/-- Whether a function loads no truth values and nothing from the stack that it uses. -/
def LoadsApart (g : Graph) (root : NodeId) (image : FunctionImage) (s₀ : Machine.State) : Prop :=
  ∀ x ty address, g.Reaches root x → g.LoadsFrom (g.valueAt s₀) x ty address →
    ty ≠ .bool ∧ ∀ i < ty.size, g.isBeyond root image s₀ (address + BitVec.ofNat 64 i) = true

/-- A generated function returns the value that the evaluator gives its root for the same
arguments in the same memory, or another NaN where that is one, or ends with a divide error. It
does so where the evaluator fails, and otherwise only if some node that the root needs divides
numbers without a quotient. -/
theorem returns_value (built : g.Built) (generated : g.generate root o = .ok c)
    (compact : g.Compact root c.image) (loaded : Loaded h c.image.bytes s₀)
    (silent : g.Silent root) (apart : g.LoadsApart root c.image s₀)
    (truths : ∀ v ∈ g.argumentsAt s₀, v.ty = .bool → v.bits = 0 ∨ v.bits = 1) :
    ∃ out called, run h c.image.bytes (stepBound c.image.bytes) ⟨[], s₀⟩ = (out, called) ∧
      match g.evaluateIn s₀.memory root (g.argumentsAt s₀) with
      | .ok v => (∃ s, out = .returned s ∧ g.HasType root v.ty ∧
            Value.Alike ⟨v.ty, v.ty.view (s.named (Convention.returnReg v.ty.regClass))⟩ v) ∨
          out = .divideError ∧ ∃ x, g.Reaches root x ∧ g.FailsAt (g.valueAt s₀) x
      | .error _ => out = .divideError := by
  have w := built.wellFormed
  obtain ⟨σ, _, _, lowered, -⟩ := generate_eq_ok generated
  have inside := (exists_lowering lowered).1
  obtain ⟨L, rfl, code, -, a, d, out, course, finishes, concludes⟩ :=
    built.runs generated lowered compact (entered_around (fun _ => 0) loaded
      (fun _ => id) fun k ⟨x, hx, _, node, _⟩ =>
        absurd node (silent x _ _ _ ((w.mem_below inside).1 hx)))
  refine ⟨out, d.entered, code ▸ finishes.run_eq, ?_⟩
  have same {x y : NodeId} (reaches : g.Reaches root x) (hy : y ∈ g.operandsOf x) :=
    answered_eq_valueAt s₀ w inside silent (reaches.step hy) fun _ => 0
  have describes := describes_around (g.isBeyond root c.image s₀) (fun _ => 0) w
    inside truths (fun _ _ _ _ _ => .inl rfl) fun x ty address reaches from_ =>
      apart x ty address reaches (from_.congr fun y hy => same reaches hy)
  have met := World.evaluated_course describes (built.expressible generated) course
  have value := answered_eq_valueAt s₀ w inside silent .refl fun _ => 0
  cases a with
  | ok A =>
    obtain ⟨s, rfl, reading, -⟩ := concludes.ok
    obtain ⟨v, found, alike⟩ := Moment.Evaluated.root met w inside
    rw [show g.evaluateIn s₀.memory root (g.argumentsAt s₀) = _ from value.symm.trans found]
    obtain ⟨n, hn⟩ := node?_of_lt inside
    have ty : v.ty = g.tyOf root := alike.ty
    refine .inl ⟨s, rfl, ?_, ?_⟩
    · rw [ty, (hasType_of_node? hn).tyOf_eq]
      exact hasType_of_node? hn
    · rw [ty, reading]
      exact alike.symm
  | error events =>
    obtain ⟨rfl, -⟩ := concludes.error
    obtain ⟨x, hx, fails⟩ := met
    have reaches := (w.mem_below inside).1 hx
    split
    · exact .inr ⟨rfl, x, reaches, fails.congr fun y hy => same reaches hy⟩
    · rfl

/-- A number from memory divided by an argument. -/
def share : Graph where
  nodes := #[⟨.parameter 0, .ptr⟩, ⟨.parameter 1, .i32⟩, ⟨.field 0 8, .i32⟩,
    ⟨.arith .div 2 1, .i32⟩]
  params := [0, 1]
  parents := #[1, 1, 1, 0]

theorem built_share : share.Built :=
  .of_built? [.ptr, .i32] [.field 0 8 .i32, .arith .div 2 1] (by decide +kernel)

/-- An entry with the divisor 5 below bits that do not count, and 42 in memory. -/
def shareEntry : Machine.State :=
  entryState (fun a => if a = 0x100000000008 then 42 else 0) [.ptr, .i32]
    [0x100000000000, 0xffff000000000005]

theorem returns_value_share : ∃ c, share.generate 3 .default = .ok c ∧ ∃ s called,
    run (Environment.host fun _ => none) c.image.bytes (stepBound c.image.bytes)
      ⟨[], shareEntry⟩ = (.returned s, called) ∧ s.named .rax = 8 := by
  obtain ⟨c, hc, frame, size⟩ := @exists_of_isSmall share 3 .default (by decide +kernel)
  have calls : share.callRoom 3 = 0 := by decide +kernel
  have params : share.paramRoom = 0 := by decide +kernel
  have kinds : ∀ n ∈ share.nodes, (∀ t a, n.kind ≠ .call t a) ∧ (∀ b i, n.kind ≠ .element b i) ∧
      (∀ b f, n.kind = .field b f → b = 0 ∧ f = 8 ∧ n.ty = .i32) ∧
      ∀ op x y, n.kind = .arith op x y → x = 2 ∧ y = 1 := by
    simp [share]
  have base : share.valueAt shareEntry 0 = .ok ⟨.ptr, 0x100000000000⟩ := by decide +kernel
  have divisor : share.valueAt shareEntry 1 = .ok ⟨.i32, 5⟩ := by decide +kernel
  have result : share.evaluateIn shareEntry.memory 3 (share.argumentsAt shareEntry) =
      .ok ⟨.i32, 8⟩ := by decide +kernel
  have stack : shareEntry.named .rsp = 0x7fff00000008 := by decide +kernel
  have silent : share.Silent 3 := fun x t a ty _ hn =>
    (kinds _ (Array.mem_of_getElem? hn)).1 t a rfl
  have apart : share.LoadsApart 3 c.image shareEntry := by
    intro x ty address _ from_
    cases from_ with
    | element node => exact absurd rfl ((kinds _ (Array.mem_of_getElem? node)).2.1 _ _)
    | field node found =>
      obtain ⟨rfl, rfl, rfl⟩ := (kinds _ (Array.mem_of_getElem? node)).2.2.1 _ _ rfl
      rw [base] at found
      cases found
      refine ⟨nofun, fun i hi => ?_⟩
      have hi : i < 4 := hi
      refine isBeyond_of_lt ?_
      rw [stack, stackRoom, calls, BitVec.toNat_add, BitVec.toNat_ofNat,
        show (fieldAddress 0x100000000000 8).toNat = 0x100000000008 from rfl,
        show (0x7fff00000008 : Word).toNat = 0x7fff00000008 from rfl]
      omega
  have loaded : Loaded (Environment.host fun _ => none) c.image.bytes shareEntry :=
    loaded_entryState rfl (by decide) size fun _ _ => rfl
  obtain ⟨out, called, run, ends⟩ := returns_value built_share hc ⟨frame, by omega, by omega⟩
    loaded silent apart (by decide +kernel)
  rw [result] at ends
  rcases ends with ⟨s, rfl, -, value⟩ | ⟨-, x, -, node, -, division, left, right, fault⟩
  · exact ⟨c, hc, s, called, run, congrArg Value.bits (value.eq rfl)⟩
  · obtain ⟨rfl, rfl⟩ := (kinds _ (Array.mem_of_getElem? node)).2.2.2 _ _ _ rfl
    rw [divisor] at right
    cases right
    rcases fault with fault | ⟨-, -, fault⟩ <;> cases fault

end Graph

end NativeExpr
