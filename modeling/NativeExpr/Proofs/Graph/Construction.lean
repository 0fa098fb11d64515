import NativeExpr.Proofs.Graph.Counting

/-!
# Graphs under construction

A graph begins with a node for each of its parameters. Every later factory call adds its
nodes at the end or leaves the graph as it is, so what the first nodes are stays true, every
node fits the ones before it, and the distinct users of every node are counted.
-/
namespace NativeExpr

open Finset

/-- The graph after a factory call, whether the call succeeds or fails. -/
def Factory.after (f : Factory) (s : Session) (g : Graph) : Graph :=
  match f.build ⟨s, g⟩ with
  | .ok _ d | .error _ d => d.graph

namespace Graph

/-- The graph after factory calls, each with the session as it is by then. -/
def extend (g : Graph) (calls : List (Session × Factory)) : Graph :=
  calls.foldl (fun g c => c.2.after c.1 g) g

/-- The nodes that have a node among their operands. -/
def users (g : Graph) (x : NodeId) : Finset NodeId :=
  (range g.size).filter fun y => x ∈ g.operandsOf y

variable {P : Graph → Prop} {g : Graph} {n : Node} {x y : Nat} {params : List ScalarType}

/-! ## Calls -/

theorem Keeps.after {f : Factory} (keeps : Keeps P f.build) (s : Session) (h : P g) :
    P (f.after s g) := by
  have all : Yields f.build ⟨s, g⟩ (fun _ d => P d.graph) fun _ d => P d.graph := keeps ⟨s, g⟩ h
  unfold Factory.after
  cases hf : f.build ⟨s, g⟩ with
  | ok id d => exact all.ok hf
  | error e d => exact all.error hf

/-- A property that is kept when fitting nodes are added holds after any calls. -/
theorem Admits.extend (admits : Admits P) (h : P g) (calls : List (Session × Factory)) :
    P (g.extend calls) := by
  induction calls generalizing g with
  | nil => exact h
  | cons c calls ih => exact ih ((keeps_factory admits c.2).after c.1 h)

theorem Built.after (built : g.Built) (f : Factory) (s : Session) : (f.after s g).Built := by
  unfold Factory.after
  cases hf : f.build ⟨s, g⟩ with
  | ok id d => exact built.success hf
  | error e d => exact built.failure hf

theorem Built.extend (built : g.Built) (calls : List (Session × Factory)) :
    (g.extend calls).Built := by
  induction calls generalizing g with
  | nil => exact built
  | cons c calls ih => exact ih (built.after c.2 c.1)

/-! ## Users -/

theorem operandsOf_push :
    (g.push n).operandsOf y = if y = g.size then n.operands else g.operandsOf y := by
  rw [operandsOf, node?_push]
  split <;> rfl

theorem users_push : (g.push n).users x =
    if x ∈ n.operands then insert g.size (g.users x) else g.users x := by
  ext y
  by_cases hy : y = g.size
  · subst hy
    have fresh : g.size ∉ g.users x := fun h => Nat.lt_irrefl _ (mem_range.1 (mem_filter.1 h).1)
    rw [users, mem_filter, mem_range, size_push, operandsOf_push, if_pos rfl]
    split
    · next hm => simp [hm]
    · next hm => simp [hm, fresh]
  · have old : y ∈ (g.push n).users x ↔ y ∈ g.users x := by
      have inside : y < g.size + 1 ↔ y < g.size := Nat.lt_succ_iff_lt_or_eq.trans (or_iff_left hy)
      rw [users, mem_filter, mem_range, size_push, operandsOf_push, if_neg hy, users, mem_filter,
        mem_range, inside]
    rw [old]
    split
    · rw [mem_insert, or_iff_right hy]
    · rfl

theorem count_eraseDups (xs : List NodeId) (x : NodeId) :
    xs.eraseDups.count x = if x ∈ xs then 1 else 0 := by
  match xs with
  | [] => rfl
  | a :: xs =>
    have rest := count_eraseDups (xs.filter fun b => !b == a) x
    rw [List.eraseDups_cons, List.count_cons, rest]
    by_cases h : x = a
    · simp [h]
    · simp [h, Ne.symm h]
termination_by xs.length
decreasing_by exact Nat.lt_succ_of_le (List.length_filter_le ..)

/-- Whether the count of every node is that of its users. -/
structure CountsUsers (g : Graph) : Prop where
  size : g.parents.size = g.size
  parents : ∀ x < g.size, g.parents.getD x 0 = (g.users x).card

theorem users_eq_empty (before : ∀ {x y : Nat}, x ∈ g.operandsOf y → x < y)
    (last : g.size = x + 1) : g.users x = ∅ := by
  refine filter_eq_empty_iff.2 fun y hy hm => ?_
  have inside := mem_range.1 hy
  rw [last] at inside
  exact Nat.not_lt_of_le (Nat.le_of_lt_succ inside) (before hm)

theorem CountsUsers.push (h : g.CountsUsers)
    (before : ∀ {x y : Nat}, x ∈ (g.push n).operandsOf y → x < y) : (g.push n).CountsUsers := by
  have parents : (g.push n).parents = (addUses g.parents n.operands.eraseDups).push 0 := rfl
  have size : (addUses g.parents n.operands.eraseDups).size = g.size := by
    rw [size_addUses, h.size]
  refine ⟨by rw [parents, Array.size_push, size, size_push], fun x hx => ?_⟩
  rw [parents, Array.getD_eq_getD_getElem?, Array.getElem?_push, size]
  by_cases last : x = g.size
  · rw [if_pos last, users_eq_empty before (last ▸ size_push)]
    rfl
  · have hx : x < g.size := by
      rw [size_push] at hx
      omega
    have fresh : g.size ∉ g.users x := fun hm => Nat.lt_irrefl _ (mem_range.1 (mem_filter.1 hm).1)
    rw [if_neg last, ← Array.getD_eq_getD_getElem?, getD_addUses _ _ (h.size ▸ hx), h.parents x hx,
      users_push, count_eraseDups]
    split
    · rw [card_insert_of_notMem fresh]
    · rfl

/-! ## Parameters -/

/-- Whether the first nodes of a graph are its parameters, which have these types. -/
structure Declares (params : List ScalarType) (g : Graph) : Prop where
  order : g.params = List.range params.length
  node : ∀ {i : Nat} {ty : ScalarType}, params[i]? = some ty → g.node? i = some ⟨.parameter i, ty⟩

/-- Whether a graph is in order that was begun with parameters of these types. -/
structure InOrder (params : List ScalarType) (g : Graph) : Prop where
  wellFormed : g.WellFormed
  declares : g.Declares params
  counts : g.CountsUsers

theorem admits_inOrder : Admits (InOrder params) := fun h operands typed noParam =>
  have wellFormed := h.wellFormed.push operands typed noParam
  ⟨wellFormed, ⟨h.declares.order, fun hi => node?_push_of_some (h.declares.node hi)⟩,
    h.counts.push wellFormed.operandsOf_lt⟩

/-- Declaring one more parameter of a graph that has nothing but parameters. -/
theorem InOrder.declare (h : g.InOrder params) (bare : g.size = params.length) (ty : ScalarType) :
    (g.declare ty).InOrder (params ++ [ty]) := by
  have length : g.params.length = params.length := by rw [h.declares.order, List.length_range]
  have wellFormed := h.wellFormed.declare ty
  refine ⟨wellFormed, ⟨?_, fun {i t} hi => ?_⟩, ?_⟩
  · show g.params ++ [g.size] = _
    rw [h.declares.order, bare, List.length_append, List.length_singleton, List.range_succ]
  · show (g.push _).node? i = _
    rw [node?_push, bare, length]
    rcases Nat.lt_or_ge i params.length with inside | outside
    · rw [if_neg (Nat.ne_of_lt inside)]
      rw [List.getElem?_append_left inside] at hi
      exact h.declares.node hi
    · have last : i = params.length := by
        have lt := (List.getElem?_eq_some_iff.1 hi).1
        rw [List.length_append, List.length_singleton] at lt
        omega
      rw [last, List.getElem?_append_right (Nat.le_refl _), Nat.sub_self] at hi
      cases hi
      rw [if_pos last, last]
  · have counts : (g.push ⟨.parameter g.params.length, ty⟩).CountsUsers :=
      h.counts.push wellFormed.operandsOf_lt
    exact ⟨counts.size, counts.parents⟩

theorem inOrder_empty : empty.InOrder [] :=
  ⟨wellFormed_empty, ⟨rfl, fun hi => by cases hi⟩, rfl, fun _ hx => absurd hx (Nat.not_lt_zero _)⟩

/-- A graph that was begun is in order, with nothing but its parameters. -/
theorem inOrder_start {d d' : Draft} (started : Builder.start params d = .ok () d') :
    d'.graph.InOrder params ∧ d'.graph.size = params.length := by
  have declared : Yields (Builder.start params) d
      (fun _ d' => d'.graph.InOrder params ∧ d'.graph.size = params.length) fun _ _ => True := by
    unfold Builder.start
    refine .bind (.of_modify ?_)
    -- the parameters that are declared by then, before those that are still to come
    refine (Yields.forM (fun rest (d : Draft) => ∃ made, made ++ rest = params ∧
      d.graph.InOrder made ∧ d.graph.size = made.length) ?_ params _
        ⟨[], List.nil_append _, inOrder_empty, rfl⟩).mono ?_ fun _ _ h => h
    · rintro ty rest d ⟨made, rfl, inOrder, bare⟩
      refine (yields_declare ty d).mono (fun _ d' hd => ?_) fun _ _ _ => trivial
      rw [hd]
      refine ⟨made ++ [ty], by rw [List.append_assoc]; rfl, inOrder.declare bare ty, ?_⟩
      show (d.graph.push _).size = _
      rw [size_push, bare, List.length_append, List.length_singleton]
    · rintro _ d' ⟨made, rfl, inOrder, bare⟩
      rw [List.append_nil]
      exact ⟨inOrder, bare⟩
  exact declared.ok started

/-! ## Whole graphs -/

/-- A graph after any factory calls, failing ones included: its first nodes are its parameters
in order, every node comes after its operands and fits their types, and the use count of a node
is the number of its users. -/
theorem inOrder_extend {d d' : Draft} (started : Builder.start params d = .ok () d')
    (calls : List (Session × Factory)) :
    let g := d'.graph.extend calls
    (g.params.length = params.length ∧ ∀ {i ty}, params[i]? = some ty →
      g.param i = .ok i ∧ g.node? i = some ⟨.parameter i, ty⟩) ∧
    (∀ {id n}, g.node? id = some n → (∀ x ∈ n.operands, x < id ∧ x < g.size) ∧ g.NodeTyped n ∧
      ∀ i, n.kind = .parameter i → id = i ∧ params[i]? = some n.ty) ∧
    ∀ id < g.size, g.useCount id = .ok (g.users id).card := by
  have inOrder := admits_inOrder.extend (inOrder_start started).1 calls
  have order := inOrder.declares.order
  refine ⟨⟨by rw [order, List.length_range], fun {i ty} hi => ⟨?_, inOrder.declares.node hi⟩⟩,
    fun {id n} hn => ⟨fun x hx => ?_, inOrder.wellFormed.typed hn, fun i hk => ?_⟩,
    fun id hid => ?_⟩
  · have inside := (List.getElem?_eq_some_iff.1 hi).1
    rw [param, order, List.getElem?_range inside]
  · have before := inOrder.wellFormed.operands_lt hn x hx
    exact ⟨before, Nat.lt_trans before (node?_lt hn)⟩
  · obtain ⟨kind, ty⟩ := n
    cases hk
    have known := inOrder.wellFormed.declared hn
    rw [order] at known
    obtain ⟨inside, same⟩ := List.getElem?_eq_some_iff.1 known
    rw [List.getElem_range] at same
    rw [List.length_range] at inside
    obtain ⟨t, ht⟩ : ∃ t, params[i]? = some t := ⟨_, List.getElem?_eq_getElem inside⟩
    have declared := inOrder.declares.node ht
    rw [same, hn] at declared
    cases declared
    exact ⟨same.symm, same ▸ ht⟩
  · obtain ⟨n, hn⟩ := node?_of_lt hid
    rw [← inOrder.counts.parents id hid, useCount, node, hn]
    rfl

def roomy : Session := ⟨⟨none, 4096, 4096, 4096⟩, .zero⟩

theorem inOrder_extend_call : ∃ d', Builder.start [.i64, .f64] ⟨roomy, .empty⟩ = .ok () d' ∧
    (d'.graph.extend [(roomy, .call 4096 [0, 1, 0] .bool), (roomy, .arith .add 0 1),
      (roomy, .select 2 0 0)]).useCount 0 = .ok 2 := by
  refine ⟨_, rfl, ?_⟩
  obtain ⟨-, -, uses⟩ := @inOrder_extend [.i64, .f64] ⟨roomy, .empty⟩ _ rfl
    [(roomy, .call 4096 [0, 1, 0] .bool), (roomy, .arith .add 0 1), (roomy, .select 2 0 0)]
  refine (uses 0 (by decide +kernel)).trans ?_
  decide +kernel

/-- The graph that factory calls make from parameters, with room for all nodes. -/
def built? (params : List ScalarType) (calls : List Factory) : Option Graph :=
  match Builder.start params ⟨roomy, .empty⟩ with
  | .ok _ d => some (d.graph.extend (calls.map fun f => (roomy, f)))
  | .error .. => none

theorem Built.of_built? (params : List ScalarType) (calls : List Factory)
    (h : built? params calls = some g) : g.Built := by
  unfold built? at h
  split at h
  next d started =>
    cases h
    exact (Built.start started).extend _
  next => cases h

end Graph

end NativeExpr
