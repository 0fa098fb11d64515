import Mathlib.Data.List.Basic
import NativeExpr.Proofs.Outcome
import NativeExpr.Graph.Builder

/-!
# Well-formed graphs

A graph that was made by factory calls, failing ones included, keeps every
operand before its users and gives every node a type that fits its operands.
Sessions may change between the calls, since other graphs share them.
-/
namespace NativeExpr

/-- A factory call. The offset of a field is a 32-bit number. -/
inductive Factory
  | imm (ty : ScalarType) (value : Literal)
  | arith (op : ArithOp) (lhs rhs : NodeId)
  | logic (op : LogicOp) (lhs rhs : NodeId)
  | not (value : NodeId)
  | compare (pred : Predicate) (lhs rhs : NodeId)
  | select (cond thenValue elseValue : NodeId)
  | field (base : NodeId) (offset : BitVec 32) (ty : ScalarType)
  | element (base index : NodeId) (ty : ScalarType)
  | call (target : Word) (args : List NodeId) (ret : ScalarType)
  | cast (value : NodeId) (ty : ScalarType)

def Factory.build : Factory → Builder NodeId
  | imm ty value => Builder.imm ty value
  | arith op lhs rhs => Builder.arith op lhs rhs
  | logic op lhs rhs => Builder.logic op lhs rhs
  | not value => Builder.not value
  | compare pred lhs rhs => Builder.compare pred lhs rhs
  | select cond thenValue elseValue => Builder.select cond thenValue elseValue
  | field base offset ty => Builder.field base offset.toInt ty
  | element base index ty => Builder.element base index ty
  | call target args ret => Builder.call target args ret
  | cast value ty => Builder.cast value ty

namespace Graph

/-- The graphs that factory calls make, whether the calls succeed or fail. -/
inductive Built : Graph → Prop
  | start {params : List ScalarType} {d d' : Draft}
      (started : Builder.start params d = .ok () d') : Built d'.graph
  | success {g : Graph} {s : Session} {f : Factory} {id : NodeId} {d : Draft}
      (built : Built g) (called : f.build ⟨s, g⟩ = .ok id d) : Built d.graph
  | failure {g : Graph} {s : Session} {f : Factory} {e : CompileError} {d : Draft}
      (built : Built g) (called : f.build ⟨s, g⟩ = .error e d) : Built d.graph

/-- The type of a node of the graph. -/
def HasType (g : Graph) (id : NodeId) (ty : ScalarType) : Prop :=
  (g.node? id).map Node.ty = some ty

/-- The type of a node; any type where the graph lacks the node. -/
def tyOf (g : Graph) (id : NodeId) : ScalarType := ((g.node? id).map Node.ty).getD .bool

/-- The typing rule of a node. -/
def NodeTyped (g : Graph) : Node → Prop
  | ⟨.immediate (.int v), ty⟩ => ty.isFloat = false ∧ ty.canonical v = v
  | ⟨.immediate (.float _), ty⟩ => ty.isFloat = true
  | ⟨.parameter _, _⟩ => True
  | ⟨.arith _ lhs rhs, ty⟩ =>
    g.HasType lhs ty ∧ g.HasType rhs ty ∧ (ty.isInteger = true ∨ ty.isFloat = true)
  | ⟨.logic op lhs rhs, ty⟩ =>
    g.HasType lhs ty ∧ g.HasType rhs ty ∧
      (ty.isInteger = true ∨ ty = .bool ∧ op.isCommutative = true)
  | ⟨.compare _ lhs rhs, ty⟩ => (∃ t, g.HasType lhs t ∧ g.HasType rhs t) ∧ ty = .bool
  | ⟨.select cond thenValue elseValue, ty⟩ =>
    g.HasType cond .bool ∧ g.HasType thenValue ty ∧ g.HasType elseValue ty
  | ⟨.field base offset, _⟩ => g.HasType base .ptr ∧ ∃ v : BitVec 32, offset = v.toInt
  | ⟨.element base index, _⟩ => g.HasType base .ptr ∧ ∃ t, g.HasType index t ∧ t.isInteger = true
  | ⟨.call _ args, _⟩ => ∀ arg ∈ args, ∃ t, g.HasType arg t
  | ⟨.cast value, ty⟩ => ∃ source, g.HasType value source ∧ source.castAllowed ty = true

theorem isFloat_of_logic {ty : ScalarType} {op : LogicOp}
    (typed : ty.isInteger = true ∨ ty = .bool ∧ op.isCommutative = true) :
    ty.isFloat = false := by
  rcases typed with integer | ⟨rfl, -⟩
  · exact ScalarType.isFloat_of_isInteger integer
  · rfl

/-- What every graph made by factory calls satisfies. -/
structure WellFormed (g : Graph) : Prop where
  operands_lt : ∀ {id n}, g.node? id = some n → ∀ x ∈ n.operands, x < id
  typed : ∀ {id n}, g.node? id = some n → g.NodeTyped n
  bound : ∀ {i id : Nat}, g.params[i]? = some id → ∃ ty, g.node? id = some ⟨.parameter i, ty⟩
  declared : ∀ {id i ty}, g.node? id = some ⟨.parameter i, ty⟩ → g.params[i]? = some id

variable {g : Graph} {id : NodeId} {n : Node} {ty : ScalarType}

theorem node?_lt (h : g.node? id = some n) : id < g.size := by
  rw [node?, Array.getElem?_eq_some_iff] at h
  exact h.1

theorem node?_of_lt (h : id < g.size) : ∃ n, g.node? id = some n :=
  ⟨g.nodes[id], Array.getElem?_eq_getElem h⟩

theorem node_eq_ok : g.node id = .ok n ↔ g.node? id = some n := by
  rw [node]
  cases g.node? id with
  | none => exact ⟨fun h => (by cases h), fun h => (by cases h)⟩
  | some m => rw [Except.ok.injEq, Option.some.injEq]

theorem hasType_of_node? (h : g.node? id = some n) : g.HasType id n.ty := by
  simp only [HasType, h, Option.map_some]

theorem HasType.exists_node (h : g.HasType id ty) : ∃ n, g.node? id = some n ∧ n.ty = ty :=
  Option.map_eq_some_iff.1 h

theorem HasType.lt (h : g.HasType id ty) : id < g.size := by
  obtain ⟨n, hn, -⟩ := h.exists_node
  exact node?_lt hn

theorem HasType.tyOf_eq (h : g.HasType id ty) : g.tyOf id = ty := by
  rw [tyOf, h, Option.getD_some]

theorem HasType.unique {ty' : ScalarType} (h : g.HasType id ty) (h' : g.HasType id ty') :
    ty = ty' :=
  Option.some.inj (h.symm.trans h')

theorem typeOf_eq (h : g.HasType id ty) : g.typeOf id = .ok ty := by
  obtain ⟨n, hn, rfl⟩ := h.exists_node
  simp only [typeOf, node, hn, Except.map]

theorem hasType_of_typeOf (h : g.typeOf id = .ok ty) : g.HasType id ty := by
  unfold typeOf node at h
  cases hn : g.node? id with
  | none => simp [hn, Except.map] at h
  | some n =>
    have : n.ty = ty := by simpa [hn, Except.map] using h
    exact this ▸ hasType_of_node? hn

theorem WellFormed.paramTypes_eq (w : g.WellFormed) : g.paramTypes = g.params.map g.tyOf := by
  rw [paramTypes, List.filterMap_eq_map_iff_forall_eq_some]
  intro id hid
  obtain ⟨i, hi⟩ := List.mem_iff_getElem?.1 hid
  obtain ⟨ty, hn⟩ := w.bound hi
  rw [hn, Option.map_some, (hasType_of_node? hn).tyOf_eq]

theorem operandsOf_eq (h : g.node? id = some n) : g.operandsOf id = n.operands := by
  simp only [operandsOf, h, Option.map_some, Option.getD_some]

/-! ## Adding a node -/

theorem node?_push : (g.push n).node? id = if id = g.size then some n else g.node? id :=
  Array.getElem?_push

theorem size_push : (g.push n).size = g.size + 1 := Array.size_push ..

theorem node?_push_of_some {m : Node} (h : g.node? id = some m) : (g.push n).node? id = some m := by
  rw [node?_push, if_neg (Nat.ne_of_lt (node?_lt h)), h]

theorem HasType.push (h : g.HasType id ty) : (g.push n).HasType id ty := by
  obtain ⟨m, hm, rfl⟩ := h.exists_node
  exact hasType_of_node? (node?_push_of_some hm)

theorem NodeTyped.push {m : Node} (h : g.NodeTyped m) : (g.push n).NodeTyped m := by
  match m, h with
  | ⟨.immediate (.int _), _⟩, h => exact h
  | ⟨.immediate (.float _), _⟩, h => exact h
  | ⟨.parameter _, _⟩, h => exact h
  | ⟨.arith .., _⟩, h => exact ⟨h.1.push, h.2.1.push, h.2.2⟩
  | ⟨.logic .., _⟩, h => exact ⟨h.1.push, h.2.1.push, h.2.2⟩
  | ⟨.compare .., _⟩, ⟨⟨ty, hl, hr⟩, hb⟩ => exact ⟨⟨ty, hl.push, hr.push⟩, hb⟩
  | ⟨.select .., _⟩, h => exact ⟨h.1.push, h.2.1.push, h.2.2.push⟩
  | ⟨.field .., _⟩, h => exact ⟨h.1.push, h.2⟩
  | ⟨.element .., _⟩, ⟨hb, ty, hi, ht⟩ => exact ⟨hb.push, ty, hi.push, ht⟩
  | ⟨.call .., _⟩, h => exact fun arg ha => (h arg ha).imp fun _ ht => ht.push
  | ⟨.cast .., _⟩, ⟨ty, hs, hc⟩ => exact ⟨ty, hs.push, hc⟩

theorem WellFormed.push (h : g.WellFormed) (operands : ∀ x ∈ n.operands, x < g.size)
    (typed : g.NodeTyped n) (noParam : ∀ i, n.kind ≠ .parameter i) : (g.push n).WellFormed where
  operands_lt := by
    intro id m hm
    rw [node?_push] at hm
    split at hm
    · next hid =>
      cases hm
      exact hid ▸ operands
    · exact h.operands_lt hm
  typed := by
    intro id m hm
    rw [node?_push] at hm
    split at hm
    · cases hm
      exact typed.push
    · exact (h.typed hm).push
  bound := by
    intro i id hi
    obtain ⟨ty, hn⟩ := h.bound hi
    exact ⟨ty, node?_push_of_some hn⟩
  declared := by
    intro id i ty hm
    rw [node?_push] at hm
    split at hm
    · cases hm
      exact absurd rfl (noParam i)
    · exact h.declared hm

/-- Declaring a parameter: its node is added and its position noted. -/
def declare (g : Graph) (ty : ScalarType) : Graph :=
  { g.push ⟨.parameter g.params.length, ty⟩ with params := g.params ++ [g.size] }

theorem WellFormed.declare (h : g.WellFormed) (ty : ScalarType) : (g.declare ty).WellFormed where
  operands_lt := by
    intro id m hm
    have hm : (g.push ⟨.parameter g.params.length, ty⟩).node? id = some m := hm
    rw [node?_push] at hm
    split at hm
    · cases hm
      exact fun x hx => absurd hx List.not_mem_nil
    · exact h.operands_lt hm
  typed := by
    intro id m hm
    have hm : (g.push ⟨.parameter g.params.length, ty⟩).node? id = some m := hm
    rw [node?_push] at hm
    split at hm
    · cases hm
      exact trivial
    · exact (h.typed hm).push
  bound := by
    intro i id hi
    have hi : (g.params ++ [g.size])[i]? = some id := hi
    rcases Nat.lt_trichotomy i g.params.length with hlt | heq | hgt
    · rw [List.getElem?_append_left hlt] at hi
      obtain ⟨ty', hn⟩ := h.bound hi
      exact ⟨ty', node?_push_of_some hn⟩
    · subst heq
      simp only [List.getElem?_append_right (Nat.le_refl _), Nat.sub_self] at hi
      cases hi
      exact ⟨ty, (node?_push (n := ⟨.parameter g.params.length, ty⟩)).trans (if_pos rfl)⟩
    · rw [List.getElem?_eq_none (by simp; omega)] at hi
      cases hi
  declared := by
    intro id i ty' hm
    have hm : (g.push ⟨.parameter g.params.length, ty⟩).node? id = some ⟨.parameter i, ty'⟩ := hm
    show (g.params ++ [g.size])[i]? = some id
    rw [node?_push] at hm
    split at hm
    · next hid =>
      cases hm
      simp [hid]
    · have := h.declared hm
      rw [List.getElem?_append_left (List.getElem?_eq_some_iff.1 this).1, this]

theorem wellFormed_empty : empty.WellFormed where
  operands_lt := fun h => absurd (node?_lt h) (Nat.not_lt_zero _)
  typed := fun h => absurd (node?_lt h) (Nat.not_lt_zero _)
  bound := fun h => nomatch h
  declared := fun h => absurd (node?_lt h) (Nat.not_lt_zero _)

/-! ## Factories -/

theorem yields_reserve (request : Arena → Option Arena) (d : Draft) :
    Yields (Builder.reserve request) d (fun _ d' => d'.graph = d.graph)
      (fun _ d' => d'.graph = d.graph) := by
  unfold Builder.reserve
  refine .bind (.of_get ?_)
  split
  · exact .of_set rfl
  · exact .of_throw rfl

theorem yields_push (kind : NodeKind) (ty : ScalarType) (d : Draft) :
    Yields (Builder.push kind ty) d
      (fun id d' => id = d.graph.size ∧ d'.graph = d.graph.push ⟨kind, ty⟩)
      (fun _ d' => d'.graph = d.graph) := by
  unfold Builder.push
  refine .seq (yields_reserve _ d) fun _ d1 h1 => ?_
  refine .bind (.of_get (.bind (.of_set (.of_pure ?_))))
  simp only [h1, and_self]

/-- A property of graphs that is kept when a node is added that fits the graph. -/
def Admits (P : Graph → Prop) : Prop :=
  ∀ {g : Graph} {n : Node}, P g → (∀ x ∈ n.operands, x < g.size) → g.NodeTyped n →
    (∀ i, n.kind ≠ .parameter i) → P (g.push n)

theorem admits_wellFormed : Admits WellFormed := WellFormed.push

/-- Whether a factory keeps a property of graphs when it succeeds and when it fails. -/
abbrev Keeps (P : Graph → Prop) (m : Builder NodeId) : Prop :=
  ∀ d : Draft, P d.graph → Yields m d (fun _ d' => P d'.graph) (fun _ d' => P d'.graph)

theorem hasType_of_sameType {operation : String} {lhs rhs : NodeId}
    (h : g.sameType operation lhs rhs = .ok ty) : g.HasType lhs ty ∧ g.HasType rhs ty := by
  unfold sameType at h
  cases hl : g.typeOf lhs with
  | error e => simp [hl, bind, Except.bind] at h
  | ok a =>
    cases hr : g.typeOf rhs with
    | error e => simp [hl, hr, bind, Except.bind] at h
    | ok b =>
      by_cases hab : a = b
      · simp only [hl, hr, bind, Except.bind, if_pos hab, pure, Except.pure] at h
        cases h
        exact ⟨hasType_of_typeOf hl, hab ▸ hasType_of_typeOf hr⟩
      · simp [hl, hr, bind, Except.bind, hab] at h

theorem hasType_of_expectPtr {operation : String} {base : NodeId} {u : Unit}
    (h : g.expectPtr operation base = .ok u) : g.HasType base .ptr := by
  unfold expectPtr at h
  cases hb : g.typeOf base with
  | error e => simp [hb, bind, Except.bind] at h
  | ok t =>
    by_cases ht : t = .ptr
    · exact ht ▸ hasType_of_typeOf hb
    · simp [hb, bind, Except.bind, ht] at h

theorem exists_hasType_of_node {id : NodeId} {n : Node} (h : g.node id = .ok n) :
    ∃ t, g.HasType id t := by
  unfold node at h
  cases hn : g.node? id with
  | none => simp [hn] at h
  | some m => exact ⟨m.ty, hasType_of_node? hn⟩

section

variable {P : Graph → Prop} (admits : Admits P)
include admits

theorem Admits.yields_node {d : Draft} (h : P d.graph) (kind : NodeKind) (ty : ScalarType)
    (operands : ∀ x ∈ kind.operands, x < d.graph.size) (typed : d.graph.NodeTyped ⟨kind, ty⟩)
    (noParam : ∀ i, kind ≠ .parameter i := by nofun) :
    Yields (Builder.push kind ty) d (fun _ d' => P d'.graph) (fun _ d' => P d'.graph) := by
  refine (Graph.yields_push kind ty d).mono ?_ ?_
  · rintro id d' ⟨rfl, hd⟩
    exact hd ▸ admits h operands typed noParam
  · rintro e d' hd
    exact hd ▸ h

theorem keeps_imm (ty : ScalarType) (value : Literal) : Keeps P (Builder.imm ty value) := by
  intro d h
  unfold Builder.imm
  split
  · next v hf =>
    exact admits.yields_node h _ ty (fun _ hx => by cases hx) ⟨hf, ty.canonical_canonical v⟩
  · next p hf => exact admits.yields_node h _ ty (fun _ hx => by cases hx) hf
  · exact .of_throw h
  · exact .of_throw h

theorem keeps_arith (op : ArithOp) (lhs rhs : NodeId) : Keeps P (Builder.arith op lhs rhs) := by
  intro d h
  unfold Builder.arith
  refine .bind (.of_get (.bind (.of_except (fun ty hty => ?_) fun _ _ => h)))
  obtain ⟨hl, hr⟩ := hasType_of_sameType hty
  dsimp only
  split
  · next hn =>
    exact admits.yields_node h (.arith op lhs rhs) ty (by simp [NodeKind.operands, hl.lt, hr.lt])
      ⟨hl, hr, by simpa using hn⟩
  · exact .bind (.of_throw h)

theorem keeps_logic (op : LogicOp) (lhs rhs : NodeId) : Keeps P (Builder.logic op lhs rhs) := by
  intro d h
  unfold Builder.logic
  refine .bind (.of_get (.bind (.of_except (fun ty hty => ?_) fun _ _ => h)))
  obtain ⟨hl, hr⟩ := hasType_of_sameType hty
  dsimp only
  split
  · next hn =>
    exact admits.yields_node h (.logic op lhs rhs) ty (by simp [NodeKind.operands, hl.lt, hr.lt])
      ⟨hl, hr, by simpa using hn⟩
  · exact .bind (.of_throw h)

theorem keeps_not (value : NodeId) : Keeps P (Builder.not value) := by
  intro d h
  unfold Builder.not
  refine .bind (.of_get (.bind (.of_except (fun ty hty => ?_) fun _ _ => h)))
  dsimp only
  split
  · exact .seq (keeps_imm admits ty _ d h) fun ones d' h' =>
      keeps_logic admits .xor value ones d' h'
  · exact .bind (.of_throw h)

theorem keeps_compare (pred : Predicate) (lhs rhs : NodeId) :
    Keeps P (Builder.compare pred lhs rhs) := by
  intro d h
  unfold Builder.compare
  refine .bind (.of_get (.bind (.of_except (fun ty hty => ?_) fun _ _ => h)))
  obtain ⟨hl, hr⟩ := hasType_of_sameType hty
  exact admits.yields_node h (.compare pred lhs rhs) .bool
    (by simp [NodeKind.operands, hl.lt, hr.lt]) ⟨⟨ty, hl, hr⟩, rfl⟩

theorem keeps_select (cond thenValue elseValue : NodeId) :
    Keeps P (Builder.select cond thenValue elseValue) := by
  intro d h
  unfold Builder.select
  refine .bind (.of_get (.bind (.of_except (fun condType hc => ?_) fun _ _ => h)))
  dsimp only
  split
  · next hb =>
    refine .bind (.of_except (fun ty hty => ?_) fun _ _ => h)
    obtain ⟨ht, he⟩ := hasType_of_sameType hty
    have hc := hb ▸ hasType_of_typeOf hc
    exact admits.yields_node h (.select cond thenValue elseValue) ty
      (by simp [NodeKind.operands, hc.lt, ht.lt, he.lt]) ⟨hc, ht, he⟩
  · exact .bind (.of_throw h)

theorem keeps_field (base : NodeId) (offset : BitVec 32) (ty : ScalarType) :
    Keeps P (Builder.field base offset.toInt ty) := by
  intro d h
  unfold Builder.field
  refine .bind (.of_get (.bind (.of_except (fun _ hb => ?_) fun _ _ => h)))
  have hb := hasType_of_expectPtr hb
  exact admits.yields_node h (.field base offset.toInt) ty (by simp [NodeKind.operands, hb.lt])
    ⟨hb, offset, rfl⟩

theorem keeps_element (base index : NodeId) (ty : ScalarType) :
    Keeps P (Builder.element base index ty) := by
  intro d h
  unfold Builder.element
  refine .bind (.of_get (.bind (.of_except (fun _ hb => ?_) fun _ _ => h)))
  refine .bind (.of_except (fun t ht => ?_) fun _ _ => h)
  have hb := hasType_of_expectPtr hb
  have ht := hasType_of_typeOf ht
  dsimp only
  split
  · next hi =>
    exact admits.yields_node h (.element base index) ty (by simp [NodeKind.operands, hb.lt, ht.lt])
      ⟨hb, t, ht, by simpa using hi⟩
  · exact .bind (.of_throw h)

theorem keeps_call (target : Word) (args : List NodeId) (ret : ScalarType) :
    Keeps P (Builder.call target args ret) := by
  intro d h
  unfold Builder.call
  refine .bind (.of_get ?_)
  have checked : Yields (args.forM fun arg => discard (d.graph.node arg : Builder Node)) d
      (fun _ d' => d' = d ∧ ∀ arg ∈ args, ∃ t, d.graph.HasType arg t)
      (fun _ d' => P d'.graph) := by
    refine Yields.mono (Yields.forM (fun rest s => s = d ∧
      ∀ arg ∈ args, arg ∉ rest → ∃ t, d.graph.HasType arg t) ?_ args d ⟨rfl, ?_⟩) ?_
      fun _ _ h => h
    · rintro x rest s ⟨rfl, hs⟩
      refine .seq (R := fun n s' => s' = s ∧ s.graph.node x = .ok n) ?_ ?_
      · exact .of_except (fun n hn => ⟨rfl, hn⟩) fun _ _ => h
      · rintro n s' ⟨rfl, hn⟩
        refine .of_pure ⟨rfl, fun arg ha hr => ?_⟩
        by_cases hx : arg = x
        · exact hx ▸ exists_hasType_of_node hn
        · exact hs arg ha (by simp [hx, hr])
    · exact fun arg ha hr => absurd ha hr
    · exact fun _ s' hs => ⟨hs.1, fun arg ha => hs.2 arg ha List.not_mem_nil⟩
  refine .seq checked ?_
  rintro _ d' ⟨rfl, typed⟩
  refine .seq ((yields_reserve _ d').mono (fun _ _ h' => h') fun _ _ h' => h' ▸ h) fun _ d1 h1 => ?_
  refine admits.yields_node (h1 ▸ h) (.call target args) ret (fun x hx => ?_) (h1 ▸ typed)
  obtain ⟨t, ht⟩ := typed x hx
  exact h1 ▸ ht.lt

theorem keeps_cast (value : NodeId) (ty : ScalarType) : Keeps P (Builder.cast value ty) := by
  intro d h
  unfold Builder.cast
  refine .bind (.of_get (.bind (.of_except (fun source hs => ?_) fun _ _ => h)))
  have hs := hasType_of_typeOf hs
  dsimp only
  split
  · next hc =>
    exact admits.yields_node h (.cast value) ty (by simp [NodeKind.operands, hs.lt])
      ⟨source, hs, by simpa using hc⟩
  · exact .bind (.of_throw h)

theorem keeps_factory (f : Factory) : Keeps P f.build := by
  cases f with
  | imm ty value => exact keeps_imm admits ty value
  | arith op lhs rhs => exact keeps_arith admits op lhs rhs
  | logic op lhs rhs => exact keeps_logic admits op lhs rhs
  | not value => exact keeps_not admits value
  | compare pred lhs rhs => exact keeps_compare admits pred lhs rhs
  | select cond thenValue elseValue => exact keeps_select admits cond thenValue elseValue
  | field base offset ty => exact keeps_field admits base offset ty
  | element base index ty => exact keeps_element admits base index ty
  | call target args ret => exact keeps_call admits target args ret
  | cast value ty => exact keeps_cast admits value ty

end

theorem yields_declare (ty : ScalarType) (d : Draft) :
    Yields (Builder.declare ty) d (fun _ d' => d'.graph = d.graph.declare ty) fun _ _ => True := by
  unfold Builder.declare
  refine .bind (.of_get (.seq
    ((yields_push _ ty d).mono (fun _ _ h' => h') fun _ _ _ => trivial) ?_))
  rintro id d' ⟨rfl, hd⟩
  refine .of_modify ?_
  show { d'.graph with params := d'.graph.params ++ [d.graph.size] } = _
  rw [hd]
  rfl

theorem Built.wellFormed (h : g.Built) : g.WellFormed := by
  induction h with
  | @start params d d' started =>
    have declared : Yields (Builder.start params) d (fun _ d' => d'.graph.WellFormed)
        (fun _ _ => True) := by
      unfold Builder.start
      refine .bind (.of_modify ?_)
      refine Yields.forM (fun _ (d : Draft) => d.graph.WellFormed) (fun ty _ d hd => ?_) params _
        wellFormed_empty
      exact (yields_declare ty d).mono (fun _ _ he => he ▸ hd.declare ty) fun _ _ _ => trivial
    exact declared.ok started
  | @success g s f id d _ called ih => exact (keeps_factory admits_wellFormed f ⟨s, g⟩ ih).ok called
  | @failure g s f e d _ called ih =>
    exact (keeps_factory admits_wellFormed f ⟨s, g⟩ ih).error called

end Graph
end NativeExpr
