import NativeExpr.Proofs.Graph.Construction

/-!
# Factories that fail

A factory checks the types of its operands and asks for room before it adds its node, so a call
that fails leaves the graph as it was. The complement is the exception: it builds a constant and
then an exclusive or, and a constant that found the last room in the arena stays behind.
-/
namespace NativeExpr

theorem Graph.sameType_eq {g : Graph} {operation : String} {lhs rhs : NodeId} {ty : ScalarType}
    (left : g.HasType lhs ty) (right : g.HasType rhs ty) :
    g.sameType operation lhs rhs = .ok ty := by
  rw [sameType, typeOf_eq left, typeOf_eq right]
  exact if_pos rfl

namespace Builder

/-- The constant that a complement is built with. -/
def mask (ty : ScalarType) : Node :=
  ⟨.immediate (.int (ty.canonical (if ty = .bool then 1 else -1))), ty⟩

/-- Whether a computation that fails leaves the graph as it was. -/
def Atomic (m : Builder NodeId) : Prop :=
  ∀ d : Draft, Yields m d (fun _ _ => True) fun _ d' => d'.graph = d.graph

theorem atomic_push (kind : NodeKind) (ty : ScalarType) : Atomic (push kind ty) := fun d =>
  (Graph.yields_push kind ty d).mono (fun _ _ _ => trivial) fun _ _ h => h

theorem atomic_throw (e : CompileError) : Atomic (throw e) := fun _ => .of_throw rfl

theorem atomic_imm (ty : ScalarType) (value : Literal) : Atomic (imm ty value) := by
  unfold imm
  split
  · exact atomic_push _ ty
  · exact atomic_push _ ty
  · exact atomic_throw _
  · exact atomic_throw _

theorem atomic_arith (op : ArithOp) (lhs rhs : NodeId) : Atomic (arith op lhs rhs) := by
  refine fun d => .bind (.of_get (.bind (.of_except (fun ty _ => ?_) fun _ _ => rfl)))
  dsimp only
  split
  · exact atomic_push _ ty d
  · exact .bind (.of_throw rfl)

theorem atomic_logic (op : LogicOp) (lhs rhs : NodeId) : Atomic (logic op lhs rhs) := by
  refine fun d => .bind (.of_get (.bind (.of_except (fun ty _ => ?_) fun _ _ => rfl)))
  dsimp only
  split
  · exact atomic_push _ ty d
  · exact .bind (.of_throw rfl)

theorem atomic_compare (pred : Predicate) (lhs rhs : NodeId) : Atomic (compare pred lhs rhs) :=
  fun d => .bind (.of_get (.bind (.of_except (fun _ _ => atomic_push _ .bool d) fun _ _ => rfl)))

theorem atomic_select (cond thenValue elseValue : NodeId) :
    Atomic (select cond thenValue elseValue) := by
  refine fun d => .bind (.of_get (.bind (.of_except (fun _ _ => ?_) fun _ _ => rfl)))
  dsimp only
  split
  · exact .bind (.of_except (fun ty _ => atomic_push _ ty d) fun _ _ => rfl)
  · exact .bind (.of_throw rfl)

theorem atomic_field (base : NodeId) (offset : Int) (ty : ScalarType) :
    Atomic (field base offset ty) :=
  fun d => .bind (.of_get (.bind (.of_except (fun _ _ => atomic_push _ ty d) fun _ _ => rfl)))

theorem atomic_element (base index : NodeId) (ty : ScalarType) :
    Atomic (element base index ty) := by
  refine fun d => .bind (.of_get (.bind (.of_except (fun _ _ => ?_) fun _ _ => rfl)))
  refine .bind (.of_except (fun _ _ => ?_) fun _ _ => rfl)
  dsimp only
  split
  · exact atomic_push _ ty d
  · exact .bind (.of_throw rfl)

theorem atomic_cast (value : NodeId) (ty : ScalarType) : Atomic (cast value ty) := by
  refine fun d => .bind (.of_get (.bind (.of_except (fun _ _ => ?_) fun _ _ => rfl)))
  dsimp only
  split
  · exact atomic_push _ ty d
  · exact .bind (.of_throw rfl)

/-- The list of arguments takes its room before the node does, and neither failure adds a node. -/
theorem atomic_call (target : Word) (args : List NodeId) (ret : ScalarType) :
    Atomic (call target args ret) := by
  intro d
  have checked : Yields (args.forM fun arg => discard (d.graph.node arg : Builder Node)) d
      (fun _ d' => d'.graph = d.graph) fun _ d' => d'.graph = d.graph := by
    refine Yields.forM (fun _ d' => d'.graph = d.graph) (fun arg _ d' same => ?_) args d rfl
    exact .bind (.of_except (fun _ _ => .of_pure same) fun _ _ => same)
  refine .bind (.of_get (.seq checked fun _ d' same => ?_))
  refine .seq ((Graph.yields_reserve _ d').mono (fun _ _ h => h.trans same) fun _ _ h =>
    h.trans same) fun _ d'' same => ?_
  exact (atomic_push _ ret d'').mono (fun _ _ h => h) fun _ _ h => h.trans same

/-- A node is added if there is room for it, and nothing else makes adding it fail. -/
theorem yields_push_room (kind : NodeKind) (ty : ScalarType) (d : Draft) :
    Yields (push kind ty) d
      (fun id d' => d.session.arena.allocateNode = some d'.session.arena ∧
        id = d.graph.size ∧ d'.graph = d.graph.push ⟨kind, ty⟩)
      fun e d' => d' = d ∧ d.session.arena.allocateNode = none ∧
        e = .allocatorExhausted d.session.arena.limit d.session.arena.allocated := by
  refine .bind (.bind (.of_get ?_))
  split
  · next arena room => exact .of_set (.bind (.of_get (.bind (.of_set (.of_pure ⟨room, rfl, rfl⟩)))))
  · next full => exact .of_throw ⟨rfl, full, rfl⟩

/-- What a complement leaves behind that found room for its constant only. -/
structure Stranded (value : NodeId) (d : Draft) (e : CompileError) (d' : Draft) : Prop where
  typed : ∃ ty, d.graph.HasType value ty ∧ d'.graph = d.graph.push (mask ty)
  room : d.session.arena.allocateNode = some d'.session.arena
  full : d'.session.arena.allocateNode = none
  error : e = .allocatorExhausted d'.session.arena.limit d'.session.arena.allocated

/-- A complement fails before it adds a node, or for want of room for the second one. -/
theorem yields_not (value : NodeId) (d : Draft) : Yields (not value) d (fun _ _ => True)
    fun e d' => d'.graph = d.graph ∨ Stranded value d e d' := by
  refine .bind (.of_get (.bind (.of_except (fun ty known => ?_) fun _ _ => .inl rfl)))
  dsimp only
  split
  swap
  · exact .bind (.of_throw (.inl rfl))
  next fits =>
  have typed := Graph.hasType_of_typeOf known
  have built : imm ty (.int (if ty = .bool then 1 else -1)) = push (mask ty).kind ty := by
    cases ty <;> first | rfl | cases fits
  rw [built]
  refine .seq ((yields_push_room (mask ty).kind ty d).mono (fun _ _ h => h)
    fun _ _ h => .inl (h.1 ▸ rfl)) ?_
  rintro id d' ⟨room, rfl, pushed⟩
  -- the constant has the type of the value, so the exclusive or fits them and only room can lack
  have right : d'.graph.HasType d.graph.size ty :=
    pushed ▸ Graph.hasType_of_node? (n := mask ty) (Graph.node?_push.trans (if_pos rfl))
  have left : d'.graph.HasType value ty := pushed ▸ typed.push
  refine .bind (.of_get (.bind ?_))
  rw [Graph.sameType_eq left right]
  refine .of_except (fun same h => ?_) fun _ h => by cases h
  cases h
  dsimp only
  split
  · refine (yields_push_room _ ty d').mono (fun _ _ _ => trivial) fun e d'' h => .inr ?_
    obtain ⟨rfl, full, rfl⟩ := h
    exact ⟨⟨ty, typed, pushed⟩, room, full, rfl⟩
  · next unfit => exact absurd (by simpa [LogicOp.isCommutative] using fits) unfit

end Builder

namespace Factory

variable {f : Factory} {d d' : Draft} {e : CompileError}

theorem atomic_build (other : ∀ value, f ≠ .not value) : Builder.Atomic f.build := by
  cases f with
  | imm ty value => exact Builder.atomic_imm ty value
  | arith op lhs rhs => exact Builder.atomic_arith op lhs rhs
  | logic op lhs rhs => exact Builder.atomic_logic op lhs rhs
  | not value => exact absurd rfl (other value)
  | compare pred lhs rhs => exact Builder.atomic_compare pred lhs rhs
  | select cond thenValue elseValue => exact Builder.atomic_select cond thenValue elseValue
  | field base offset ty => exact Builder.atomic_field base offset.toInt ty
  | element base index ty => exact Builder.atomic_element base index ty
  | call target args ret => exact Builder.atomic_call target args ret
  | cast value ty => exact Builder.atomic_cast value ty

/-- A factory call that fails, whatever the reason, leaves the graph as it was, its nodes, use
counts and parameters. Only a complement can leave a node behind: when the arena has room for its
constant and none for the exclusive or, the constant stays in the graph. -/
theorem graph_of_failure (failed : f.build d = .error e d') :
    d'.graph = d.graph ∨ ∃ value, f = .not value ∧ Builder.Stranded value d e d' := by
  by_cases complement : ∃ value, f = .not value
  · obtain ⟨value, rfl⟩ := complement
    exact ((Builder.yields_not value d).error failed).imp id fun left => ⟨value, rfl, left⟩
  · have other : ∀ value, f ≠ .not value := fun value same => complement ⟨value, same⟩
    exact .inl ((atomic_build other d).error failed)

/-- The states before and after a factory call that fails, made for three numbers in a session of
so many bytes. -/
def leftIn (bytes : Nat) (f : Factory) : Option (Draft × Draft) :=
  match Builder.start [.i64, .i64, .i64] ⟨.new (some bytes), .empty⟩ with
  | .ok () d =>
    match f.build d with
    | .error _ d' => some (d, d')
    | .ok _ _ => none
  | .error _ _ => none

theorem of_leftIn (bytes : Nat) (f : Factory) (test : Draft × Draft → Bool)
    (left : (leftIn bytes f).any test = true) :
    ∃ d d' e, Builder.start [.i64, .i64, .i64] ⟨.new (some bytes), .empty⟩ = .ok () d ∧
      f.build d = .error e d' ∧ test (d, d') = true := by
  obtain ⟨⟨d, d'⟩, found, passes⟩ := (Option.any_eq_true ..).1 left
  unfold leftIn at found
  split at found
  · next d₀ started =>
    split at found
    · next e d₁ failed =>
      cases found
      exact ⟨d, d', e, started, failed, passes⟩
    · cases found
  · cases found

/-- The arguments of the call find room and its node does not. -/
theorem graph_of_failure_call : ∃ d d' e,
    Builder.start [.i64, .i64, .i64] ⟨.new (some 200), .empty⟩ = .ok () d ∧
      (Factory.call 4096 [0, 1, 2, 0, 1, 2, 0, 1, 2] .i64).build d = .error e d' ∧
      d'.session.arena ≠ d.session.arena ∧ d'.graph = d.graph := by
  obtain ⟨d, d', e, started, failed, room⟩ := of_leftIn 200
    (.call 4096 [0, 1, 2, 0, 1, 2, 0, 1, 2] .i64)
    (fun (d, d') => decide (d'.session.arena ≠ d.session.arena)) (by decide +kernel)
  refine ⟨d, d', e, started, failed, of_decide_eq_true room,
    (graph_of_failure failed).resolve_right ?_⟩
  rintro ⟨_, same, -⟩
  cases same

/-- A session of 200 bytes has room for four nodes: the complement of a parameter, one of three,
leaves its constant behind as the fourth. -/
theorem not_strands_mask : ∃ d d' e,
    Builder.start [.i64, .i64, .i64] ⟨.new (some 200), .empty⟩ = .ok () d ∧
      d.graph.size = 3 ∧
      (Factory.not 0).build d = .error e d' ∧ d'.graph.size = 4 := by
  obtain ⟨d, d', e, started, failed, sizes⟩ := of_leftIn 200 (.not 0)
    (fun (d, d') => decide (d.graph.size = 3 ∧ d'.graph.size = 4)) (by decide +kernel)
  obtain ⟨three, four⟩ := of_decide_eq_true sizes
  exact ⟨d, d', e, started, three, failed, four⟩

end Factory

end NativeExpr
