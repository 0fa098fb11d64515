import NativeExpr.Proofs.Schedule

/-!
# Facts about schedules

Finding a node leaves what is done as it is and needs no more depth than the node has
nodes before it. Ahead of a branch everything is done that its arms have in common,
so that what is left of an arm has no readers elsewhere.
-/
namespace NativeExpr

open Lowering

namespace Graph

variable {g : Graph} {D : Finset NodeId} {root reader bound s c a b id x y : NodeId}
variable {n : Node} {xs : List NodeId}

/-! ## Nodes in order -/

theorem WellFormed.closed_doneAfter (w : g.WellFormed) (closed : g.Closed D)
    (lt : ∀ x ∈ xs, x < g.size) : g.Closed (g.doneAfter D xs) := by
  induction xs generalizing D with
  | nil => exact closed
  | cons x xs ih =>
    exact ih (closed.union (w.closed_below (lt x (List.mem_cons_self ..)))) fun y hy =>
      lt y (List.mem_cons_of_mem _ hy)

theorem WellFormed.notMem_doneAfter (w : g.WellFormed) (hD : s ∉ D) (hs : s < g.size)
    (lt : ∀ x ∈ xs, x < s) : s ∉ g.doneAfter D xs := by
  intro hm
  rcases mem_doneAfter.1 hm with hm | ⟨x, hx, hm⟩
  · exact hD hm
  · have := lt x hx
    exact Nat.not_lt_of_le (w.le_of_mem_below (Nat.lt_trans this hs) hm) this

theorem WellFormed.notMem_operands (w : g.WellFormed) (hn : g.node? id = some n) (hD : id ∉ D) :
    id ∉ g.doneAfter D n.operands :=
  w.notMem_doneAfter hD (node?_lt hn) (w.operands_lt hn)

theorem WellFormed.operand_done (w : g.WellFormed) (hn : g.node? id = some n)
    (hx : x ∈ n.operands) : x ∈ g.doneAfter D n.operands :=
  mem_doneAfter.2 (.inr ⟨x, hx,
    w.self_mem_below (Nat.lt_trans (w.operands_lt hn x hx) (node?_lt hn))⟩)

theorem WellFormed.insert_doneAfter (w : g.WellFormed) (hn : g.node? id = some n) :
    insert id (g.doneAfter D n.operands) = D ∪ g.below id := by
  ext x
  rw [← operandsOf_eq hn, Finset.mem_insert, mem_doneAfter, Finset.mem_union,
    w.mem_below_iff (node?_lt hn)]
  tauto

theorem WellFormed.sdiff_doneAfter (w : g.WellFormed) (hn : g.node? id = some n) (hD : id ∉ D) :
    g.doneAfter D n.operands \ D = ((D ∪ g.below id) \ D).erase id := by
  have outside : id ∉ g.doneAfter D n.operands \ D := fun hm =>
    w.notMem_operands hn hD (Finset.mem_sdiff.1 hm).1
  rw [← w.insert_doneAfter hn, Finset.insert_sdiff_of_notMem _ hD, Finset.erase_insert outside]

/-- Whether nodes can be asked for in order: each is an operand of a node that is not
done yet, or not done itself. -/
def Askable (g : Graph) (root reader bound : NodeId) : Finset NodeId → List NodeId → Prop
  | _, [] => True
  | D, x :: xs => x ∈ g.below root ∧ x < bound ∧ (x ∈ g.operandsOf reader ∨ x ∉ D) ∧
    Askable g root reader bound (D ∪ g.below x) xs

theorem askable_operands (h : ∀ x ∈ xs, x ∈ g.operandsOf reader ∧ x ∈ g.below root ∧ x < bound) :
    g.Askable root reader bound D xs := by
  induction xs generalizing D with
  | nil => trivial
  | cons x xs ih =>
    obtain ⟨operand, below, lt⟩ := h x (List.mem_cons_self ..)
    exact ⟨below, lt, .inl operand, ih fun y hy => h y (List.mem_cons_of_mem _ hy)⟩

/-- Nodes that are not done can be asked for from the first to the last. -/
theorem WellFormed.askable_sorted (w : g.WellFormed) (sorted : xs.Pairwise (· < ·))
    (h : ∀ x ∈ xs, x ∉ D ∧ x ∈ g.below root ∧ x < bound) : g.Askable root reader bound D xs := by
  induction xs generalizing D with
  | nil => trivial
  | cons x xs ih =>
    rw [List.pairwise_cons] at sorted
    obtain ⟨fresh, below, lt⟩ := h x (List.mem_cons_self ..)
    refine ⟨below, lt, .inr fresh, ih sorted.2 fun y hy => ?_⟩
    obtain ⟨fresh', below', lt'⟩ := h y (List.mem_cons_of_mem _ hy)
    refine ⟨fun hm => ?_, below', lt'⟩
    rcases Finset.mem_union.1 hm with hm | hm
    · exact fresh' hm
    · exact Nat.not_lt_of_le (w.le_of_mem_below (lt_size_of_mem_below below) hm) (sorted.1 y hy)

/-! ## Ahead of a branch -/

theorem WellFormed.reaches_of_isShared (w : g.WellFormed) (ha : a < g.size) (hx : x < g.size)
    (h : isShared (g.remaining root D) (g.armUses (g.remaining root D) a) x = true) :
    g.Reaches a x := by
  rw [isShared, Bool.and_eq_true, decide_eq_true_eq] at h
  rcases w.armUses_pos hx h.1 with rfl | ⟨y, hy, hx⟩
  · exact .refl
  · exact (w.reaches_of_mem_exclusive ha hy).step hx

theorem WellFormed.reaches_of_mem_shared (w : g.WellFormed) (ha : a < g.size) (hb : b < g.size)
    (h : x ∈ sharedNodes g (g.remaining root D) a b) :
    x < g.size ∧ (g.Reaches a x ∨ g.Reaches b x) := by
  rw [sharedNodes, List.mem_filter, List.mem_range] at h
  obtain ⟨hx, shared⟩ := h
  rw [Bool.or_eq_true] at shared
  exact ⟨hx, shared.imp (w.reaches_of_isShared ha hx) (w.reaches_of_isShared hb hx)⟩

theorem WellFormed.lt_of_mem_ahead (w : g.WellFormed) (hs : s < g.size)
    (operands : g.operandsOf s = [c, a, b]) (h : x ∈ World.ahead g root D c a b) : x < s := by
  have hlt (y : NodeId) (hy : y ∈ [c, a, b]) : y < s := w.operandsOf_lt (operands ▸ hy)
  rcases List.mem_append.1 h with h | h
  · have ha : a < s := hlt a (by simp)
    have hb : b < s := hlt b (by simp)
    rcases (w.reaches_of_mem_shared (Nat.lt_trans ha hs) (Nat.lt_trans hb hs) h).2 with r | r
    · exact Nat.lt_of_le_of_lt (r.le w) ha
    · exact Nat.lt_of_le_of_lt (r.le w) hb
  · rw [List.mem_singleton] at h
    exact hlt x (by simp [h])

/-- A conditional that is not done yet. -/
structure Fork (g : Graph) (root : NodeId) (D : Finset NodeId) (s c a b : NodeId) : Prop where
  root_lt : root < g.size
  closed : g.Closed D
  user : s ∈ g.below root
  open_ : s ∉ D
  operands : g.operandsOf s = [c, a, b]

namespace Fork

variable (w : g.WellFormed) (h : g.Fork root D s c a b)
include h

theorem lt_size : s < g.size := lt_size_of_mem_below h.user

theorem first : g.Arm root D s a := ⟨h.root_lt, h.closed, h.user, h.open_, by simp [h.operands]⟩

theorem second : g.Arm root D s b := ⟨h.root_lt, h.closed, h.user, h.open_, by simp [h.operands]⟩

include w

theorem mem_below {z : NodeId} (hz : z ∈ [c, a, b]) : z ∈ g.below root :=
  w.operand_mem_below h.root_lt h.user (h.operands ▸ hz)

theorem operand_lt {z : NodeId} (hz : z ∈ [c, a, b]) : z < s := w.operandsOf_lt (h.operands ▸ hz)

theorem askable : g.Askable root s s D (sharedNodes g (g.remaining root D) a b) := by
  refine w.askable_sorted ((List.pairwise_lt_range ..).filter _) fun x hx => ?_
  have inside := hx
  rw [sharedNodes, List.mem_filter] at inside
  have fresh : x ∉ D := by
    intro hD
    have none : g.remaining root D x = 0 := if_pos hD
    simp [isShared, none] at inside
  have ahead : x < s := w.lt_of_mem_ahead h.lt_size h.operands (List.mem_append_left [c] hx)
  obtain ⟨-, r⟩ := w.reaches_of_mem_shared (h.first.lt_size w) (h.second.lt_size w) hx
  refine ⟨fresh, ?_, ahead⟩
  rcases r with r | r
  · exact h.first.below_subset w ((w.mem_below (h.first.lt_size w)).2 r)
  · exact h.second.below_subset w ((w.mem_below (h.second.lt_size w)).2 r)

theorem closed_ahead : g.Closed (g.doneAfter D (World.ahead g root D c a b)) :=
  w.closed_doneAfter h.closed fun _ hx =>
    Nat.lt_trans (w.lt_of_mem_ahead h.lt_size h.operands hx) h.lt_size

theorem notMem_ahead : s ∉ g.doneAfter D (World.ahead g root D c a b) :=
  w.notMem_doneAfter h.open_ h.lt_size fun _ hx => w.lt_of_mem_ahead h.lt_size h.operands hx

omit w h in
theorem shared_mem_ahead (hx : x < g.size)
    (shared : isShared (g.remaining root D) (g.armUses (g.remaining root D) a) x = true ∨
      isShared (g.remaining root D) (g.armUses (g.remaining root D) b) x = true)
    (w : g.WellFormed) : x ∈ g.doneAfter D (World.ahead g root D c a b) := by
  refine mem_doneAfter.2 (.inr ⟨x, List.mem_append_left _ ?_, w.self_mem_below hx⟩)
  rw [sharedNodes, List.mem_filter, List.mem_range, Bool.or_eq_true]
  exact ⟨hx, shared⟩

theorem ahead_mem_below (hx : x ∈ World.ahead g root D c a b) : x ∈ g.below root := by
  rcases List.mem_append.1 hx with hx | hx
  · rcases (w.reaches_of_mem_shared (h.first.lt_size w) (h.second.lt_size w) hx).2 with r | r
    · exact h.first.below_subset w ((w.mem_below (h.first.lt_size w)).2 r)
    · exact h.second.below_subset w ((w.mem_below (h.second.lt_size w)).2 r)
  · rw [List.mem_singleton] at hx
    exact h.mem_below w (by simp [hx])

theorem mem_first (hx : x ∈ g.below a) (hD : x ∉ g.doneAfter D (World.ahead g root D c a b)) :
    x ∈ g.exclusive root D a :=
  h.first.mem_exclusive_of_reaches w subset_doneAfter (h.closed_ahead w)
    (fun _ hz shared => shared_mem_ahead hz (.inl shared) w)
    ((w.mem_below (h.first.lt_size w)).1 hx) hD

theorem mem_second (hx : x ∈ g.below b) (hD : x ∉ g.doneAfter D (World.ahead g root D c a b)) :
    x ∈ g.exclusive root D b :=
  h.second.mem_exclusive_of_reaches w subset_doneAfter (h.closed_ahead w)
    (fun _ hz shared => shared_mem_ahead hz (.inr shared) w)
    ((w.mem_below (h.second.lt_size w)).1 hx) hD

theorem apart (hx : x ∈ g.below a) (hx' : x ∈ g.below b) :
    x ∈ g.doneAfter D (World.ahead g root D c a b) :=
  Classical.byContradiction fun hD => w.exclusive_disjoint h.root_lt h.closed h.user h.open_
    h.operands (h.mem_first w hx hD) (h.mem_second w hx' hD)

/-- After an arm the nodes that were left to it have no read to come but that of its result. -/
theorem pending_first (hx : x ∈ g.below a)
    (hD : x ∉ g.doneAfter D (World.ahead g root D c a b)) :
    g.pending root (g.doneAfter D (World.ahead g root D c a b) ∪ g.below a) x =
      if x = a then 1 else 0 :=
  h.first.pending_after w subset_doneAfter (h.notMem_ahead w) (h.mem_first w hx hD)

theorem pending_second (hx : x ∈ g.below b)
    (hD : x ∉ g.doneAfter D (World.ahead g root D c a b)) :
    g.pending root (g.doneAfter D (World.ahead g root D c a b) ∪ g.below b) x =
      if x = b then 1 else 0 :=
  h.second.pending_after w subset_doneAfter (h.notMem_ahead w) (h.mem_second w hx hD)

theorem insert_ahead :
    insert s (g.doneAfter D (World.ahead g root D c a b) ∪ g.below a ∪ g.below b) =
      D ∪ g.below s := by
  ext x
  rw [Finset.mem_insert, Finset.mem_union, Finset.mem_union, mem_doneAfter, Finset.mem_union,
    w.mem_below_iff h.lt_size, h.operands]
  constructor
  · rintro (rfl | ((hx | ⟨y, hy, hx⟩) | hx) | hx)
    · exact .inr (.inl rfl)
    · exact .inl hx
    · right; right
      rcases List.mem_append.1 hy with hy | hy
      · obtain ⟨hlt, r | r⟩ :=
          w.reaches_of_mem_shared (h.first.lt_size w) (h.second.lt_size w) hy
        · exact ⟨a, by simp, (w.mem_below (h.first.lt_size w)).2
            (r.trans ((w.mem_below hlt).1 hx))⟩
        · exact ⟨b, by simp, (w.mem_below (h.second.lt_size w)).2
            (r.trans ((w.mem_below hlt).1 hx))⟩
      · rw [List.mem_singleton] at hy
        exact ⟨c, by simp, hy ▸ hx⟩
    · exact .inr (.inr ⟨a, by simp, hx⟩)
    · exact .inr (.inr ⟨b, by simp, hx⟩)
  · rintro (hx | rfl | ⟨y, hy, hx⟩)
    · exact .inr (.inl (.inl (.inl hx)))
    · exact .inl rfl
    · simp only [List.mem_cons, List.not_mem_nil, or_false] at hy
      rcases hy with rfl | rfl | rfl
      · exact .inr (.inl (.inl (.inr ⟨y, List.mem_append_right _ (by simp), hx⟩)))
      · exact .inr (.inl (.inr hx))
      · exact .inr (.inr hx)

theorem notMem_arms :
    s ∉ g.doneAfter D (World.ahead g root D c a b) ∪ g.below a ∪ g.below b := by
  have later {x : NodeId} (lt : x < s) : s ∉ g.below x := fun hm =>
    Nat.not_lt_of_le (w.le_of_mem_below (Nat.lt_trans lt h.lt_size) hm) lt
  simp only [Finset.mem_union, not_or]
  exact ⟨⟨h.notMem_ahead w, later (h.operand_lt w (by simp))⟩, later (h.operand_lt w (by simp))⟩

theorem self_mem_below {z : NodeId} (hz : z ∈ [c, a, b]) : z ∈ g.below z :=
  w.self_mem_below (Nat.lt_trans (h.operand_lt w hz) h.lt_size)

theorem cond_mem_ahead : c ∈ g.doneAfter D (World.ahead g root D c a b) :=
  mem_doneAfter.2 (.inr ⟨c, List.mem_append_right _ (List.mem_singleton_self c),
    h.self_mem_below w (List.mem_cons_self ..)⟩)

omit w in
/-- Before a conditional is done its operands are still to be read. -/
theorem pending_operand {D' : Finset NodeId} (open_ : s ∉ D') {z : NodeId} (hz : z ∈ [c, a, b]) :
    0 < g.pending root D' z :=
  Nat.lt_of_lt_of_le (edges_pos.2 (h.operands ▸ hz)) (edges_le_pending h.user open_)

omit w h in
theorem arm_mem (m : Moment) : World.arm m c a b ∈ [c, a, b] := by
  unfold World.arm
  split <;> simp

omit w h in
theorem arm_subset (m : Moment) :
    g.doneAfter D (World.ahead g root D c a b) ∪ g.below (World.arm m c a b) ⊆
      g.doneAfter D (World.ahead g root D c a b) ∪ g.below a ∪ g.below b := by
  unfold World.arm
  split
  · exact Finset.subset_union_left
  · exact Finset.union_subset_union Finset.subset_union_left (Finset.Subset.refl _)

end Fork

end Graph

namespace World

open NativeExpr.Graph

variable {ω : World} {g : Graph} {D : Finset NodeId} {root s c a b id x : NodeId}
variable {xs : List NodeId} {m m' : Moment} {o : Except (List Event) Moment} {depth depth' : Nat}

/-- What is found when a conditional is, given how other nodes are. -/
def choose (g : Graph) (root : NodeId) (step : Finset NodeId → NodeId → Course)
    (D : Finset NodeId) (s c a b : NodeId) : Course :=
  (visitAll g step D (ahead g root D c a b)).andThen fun m =>
    (step (g.doneAfter D (ahead g root D c a b)) (arm m c a b)).andThen
      (fun m' o => o = .ok (m'.find s (m'.word (arm m c a b)))) m

section

variable {visit : NodeId → Node → Course}

theorem playBy_of_mem (h : id ∈ D) : playBy g visit root (depth + 1) D id = .stay := by
  rw [playBy, if_pos h]

theorem playBy_select (h : s ∉ D) {n : Node} (hn : g.node? s = some n)
    (kind : n.kind = .select c a b) :
    playBy g visit root (depth + 1) D s = choose g root (playBy g visit root depth) D s c a b := by
  simp only [playBy, if_neg h, hn, kind, choose]

theorem playBy_node (h : id ∉ D) {n : Node} (hn : g.node? id = some n)
    (kind : ∀ c a b, n.kind ≠ .select c a b) :
    playBy g visit root (depth + 1) D id =
      (visitAll g (playBy g visit root depth) D n.operands).andThen (visit id n) := by
  simp only [playBy, if_neg h, hn]

theorem playBy_none (h : id ∉ D) (hn : g.node? id = none) :
    playBy g visit root (depth + 1) D id = fun _ _ => False := by
  simp only [playBy, if_neg h, hn]

end

theorem play_of_mem (h : id ∈ D) : ω.play g root (depth + 1) D id = .stay := playBy_of_mem h

theorem play_select (h : s ∉ D) {n : Node} (hn : g.node? s = some n)
    (kind : n.kind = .select c a b) :
    ω.play g root (depth + 1) D s = choose g root (ω.play g root depth) D s c a b :=
  playBy_select h hn kind

theorem play_node (h : id ∉ D) {n : Node} (hn : g.node? id = some n)
    (kind : ∀ c a b, n.kind ≠ .select c a b) :
    ω.play g root (depth + 1) D id =
      (visitAll g (ω.play g root depth) D n.operands).andThen (ω.visit g id n) :=
  playBy_node h hn kind

theorem visitAll_congr {step step' : Finset NodeId → NodeId → Course}
    (h : ∀ x ∈ xs, ∀ D, step D x = step' D x) : visitAll g step D xs = visitAll g step' D xs := by
  induction xs generalizing D with
  | nil => rfl
  | cons x xs ih =>
    rw [visitAll, visitAll, h x (List.mem_cons_self ..),
      ih fun y hy => h y (List.mem_cons_of_mem _ hy)]

theorem visitAll_append {step : Finset NodeId → NodeId → Course} {ys : List NodeId} :
    visitAll g step D (xs ++ ys) =
      (visitAll g step D xs).andThen (visitAll g step (g.doneAfter D xs) ys) := by
  induction xs generalizing D with
  | nil => exact Course.stay_andThen.symm
  | cons x xs ih => rw [List.cons_append, visitAll, visitAll, ih, Course.andThen_assoc]; rfl

theorem visitAll_singleton {step : Finset NodeId → NodeId → Course} :
    visitAll g step D [x] = step D x := Course.andThen_stay

theorem tyOf_arm (w : g.WellFormed) {s c a b : NodeId} {t : ScalarType}
    (hn : g.node? s = some ⟨.select c a b, t⟩) (m : Moment) :
    g.tyOf (arm m c a b) = g.tyOf s := by
  obtain ⟨-, first, second⟩ := w.typed hn
  rw [(Graph.hasType_of_node? hn).tyOf_eq]
  unfold arm
  split
  · exact first.tyOf_eq
  · exact second.tyOf_eq

/-- A node needs no more depth than there are nodes before it. -/
theorem play_depth (w : g.WellFormed) (h : id < depth) (h' : id < depth') :
    ω.play g root depth D id = ω.play g root depth' D id := by
  induction depth generalizing D id depth' with
  | zero => exact absurd h (Nat.not_lt_zero _)
  | succ depth ih =>
    obtain ⟨depth', rfl⟩ := Nat.exists_eq_succ_of_ne_zero (Nat.ne_of_gt (Nat.zero_lt_of_lt h'))
    have before (x : NodeId) (hx : x < id) (D : Finset NodeId) :
        ω.play g root depth D x = ω.play g root depth' D x :=
      ih (Nat.lt_of_lt_of_le hx (Nat.le_of_lt_succ h))
        (Nat.lt_of_lt_of_le hx (Nat.le_of_lt_succ h'))
    by_cases hD : id ∈ D
    · rw [play_of_mem hD, play_of_mem hD]
    cases hn : g.node? id with
    | none => exact (playBy_none hD hn).trans (playBy_none hD hn).symm
    | some n =>
      have operands : g.operandsOf id = n.operands := operandsOf_eq hn
      by_cases hk : ∃ c a b, n.kind = .select c a b
      · obtain ⟨c, a, b, hk⟩ := hk
        have parts : g.operandsOf id = [c, a, b] := by rw [operands, Node.operands, hk]; rfl
        have arms (m : Moment) : arm m c a b < id :=
          w.operandsOf_lt (parts ▸ Fork.arm_mem m)
        rw [play_select hD hn hk, play_select hD hn hk, choose, choose]
        simp only [before _ (arms _), visitAll_congr fun x hx => before x
          (w.lt_of_mem_ahead (node?_lt hn) parts hx)]
      · have hk : ∀ c a b, n.kind ≠ .select c a b := fun c a b h => hk ⟨c, a, b, h⟩
        rw [play_node hD hn hk, play_node hD hn hk,
          visitAll_congr fun x hx => before x (w.operandsOf_lt (operands ▸ hx))]

/-- A node other than a conditional is found after its operands. -/
theorem play_operands (w : g.WellFormed) (lt : id < depth) (h : id ∉ D) {n : Node}
    (hn : g.node? id = some n) (kind : ∀ c a b, n.kind ≠ .select c a b) :
    ω.play g root depth D id =
      (visitAll g (ω.play g root depth) D n.operands).andThen (ω.visit g id n) := by
  obtain ⟨depth, rfl⟩ := Nat.exists_eq_succ_of_ne_zero (Nat.ne_of_gt (Nat.zero_lt_of_lt lt))
  have operands : g.operandsOf id = n.operands := operandsOf_eq hn
  rw [play_node h hn kind, visitAll_congr fun x hx D => ?_]
  have before : x < id := w.operandsOf_lt (operands ▸ hx)
  exact play_depth w (Nat.lt_of_lt_of_le before (Nat.le_of_lt_succ lt)) (Nat.lt_trans before lt)

/-- Whether what has been found of a set of nodes is so still. -/
def Keeps (D : Finset NodeId) (m : Moment) : Except (List Event) Moment → Prop
  | .ok m' => ∀ x ∈ D, m'.found x = m.found x
  | .error _ => True

theorem Keeps.trans {f f' : Course} (hf : ∀ o, f m o → Keeps D m o)
    (hf' : ∀ m' o, f' m' o → Keeps D m' o) : ∀ o, f.andThen f' m o → Keeps D m o := by
  rintro o (⟨m', h, h'⟩ | ⟨e, h, rfl⟩)
  · have first := hf _ h
    have second := hf' _ _ h'
    cases o with
    | ok m'' => exact fun x hx => (second x hx).trans (first x hx)
    | error e => trivial
  · trivial

theorem keeps_find {m : Moment} {w : Word} (h : id ∉ D) : Keeps D m (.ok (m.find id w)) :=
  fun x hx => if_neg fun he : x = id => h (he ▸ hx)

/-- A node other than a conditional finds a word of its own, makes its call first if it is one,
or fails. -/
theorem visit_cases {n : Node} (ho : ω.visit g id n m o) :
    (∃ w, (∀ target args, n.kind ≠ .call target args) ∧ o = .ok (m.find id w)) ∨
      (∃ target args w, n.kind = .call target args ∧
        ω.reply m.calls (callOf g m target args n.ty) w ∧
        o = .ok ((m.call ⟨callOf g m target args n.ty, id, args.map m.word, n.ty.settle w⟩).find id
          (n.ty.settle w))) ∨
      o = .error m.events := by
  have silent (w : Word) (quiet : ∀ target args, n.kind ≠ .call target args) :
      (∃ w', (∀ target args, n.kind ≠ .call target args) ∧
        (.ok (m.find id w) : Except (List Event) Moment) = .ok (m.find id w')) := ⟨w, quiet, rfl⟩
  obtain ⟨kind, ty⟩ := n
  cases kind with
  | immediate v => cases v <;> cases ho <;> exact .inl (silent _ nofun)
  | parameter => exact ho.elim
  | select => exact ho.elim
  | arith op lhs rhs =>
    simp only [visit] at ho
    split at ho
    · split at ho
      · obtain ⟨w, -, rfl⟩ := ho
        exact .inl (silent _ nofun)
      · exact ho.elim
    · split at ho
      · cases ho
        exact .inl (silent _ nofun)
      · cases ho
        exact .inr (.inr rfl)
  | logic => cases ho; exact .inl (silent _ nofun)
  | compare => cases ho; exact .inl (silent _ nofun)
  | field =>
    obtain ⟨w, -, rfl⟩ := ho
    exact .inl (silent _ nofun)
  | element =>
    obtain ⟨w, -, rfl⟩ := ho
    exact .inl (silent _ nofun)
  | call target args =>
    obtain ⟨w, reply, rfl⟩ := ho
    exact .inr (.inl ⟨target, args, w, rfl, reply, rfl⟩)
  | cast => cases ho; exact .inl (silent _ nofun)

/-- What a node other than a conditional finds is its own value. -/
theorem keeps_visit {n : Node} (h : id ∉ D) (o : Except (List Event) Moment)
    (ho : ω.visit g id n m o) : Keeps D m o := by
  rcases visit_cases ho with ⟨w, -, rfl⟩ | ⟨target, args, w, -, -, rfl⟩ | rfl
  · exact keeps_find h
  · exact keeps_find (m := m.call _) h
  · trivial

theorem keeps_visitAll (step : Finset NodeId → NodeId → Course)
    (h : ∀ D' x m o, D ⊆ D' → step D' x m o → Keeps D m o) {D' : Finset NodeId} (le : D ⊆ D')
    (m : Moment) (o : Except (List Event) Moment) (ho : visitAll g step D' xs m o) :
    Keeps D m o := by
  induction xs generalizing D' m o with
  | nil =>
    cases ho
    exact fun _ _ => rfl
  | cons x xs ih =>
    rw [visitAll] at ho
    exact Keeps.trans (h D' x m · le) (ih (le.trans Finset.subset_union_left)) o ho

theorem keeps_play {D' : Finset NodeId} (le : D ⊆ D') (o : Except (List Event) Moment)
    (ho : ω.play g root depth D' id m o) : Keeps D m o := by
  induction depth generalizing D' id m o with
  | zero => exact ho.elim
  | succ depth ih =>
    by_cases hD : id ∈ D'
    · rw [play_of_mem hD] at ho
      cases ho
      exact fun _ _ => rfl
    have fresh : id ∉ D := fun h => hD (le h)
    have rest (xs : List NodeId) (m : Moment) (o : Except (List Event) Moment)
        (h : visitAll g (ω.play g root depth) D' xs m o) : Keeps D m o :=
      keeps_visitAll (ω.play g root depth) (fun D' x m o le h => ih le o h) le m o h
    cases hn : g.node? id with
    | none =>
      rw [World.play, playBy_none hD hn] at ho
      exact ho.elim
    | some n =>
      by_cases hk : ∃ c a b, n.kind = .select c a b
      · obtain ⟨c, a, b, hk⟩ := hk
        rw [play_select hD hn hk, choose] at ho
        refine Keeps.trans (rest _ m) (fun m' o ho => ?_) o ho
        refine Keeps.trans (fun o => ih (le.trans subset_doneAfter) o) (fun m'' o ho => ?_) o ho
        cases ho
        exact keeps_find fresh
      · rw [play_node hD hn fun c a b h => hk ⟨c, a, b, h⟩] at ho
        exact Keeps.trans (rest _ m) (fun m' o => keeps_visit fresh o) o ho

/-- The condition may be looked at when the arm has been run. -/
theorem choose_of_later {D' : Finset NodeId} (done : c ∈ D')
    (h : Course.andThen (fun m o => ω.play g root depth D' (arm m c a b) m o)
      (fun m' o => o = .ok (m'.find s (m'.word (arm m' c a b)))) m o) :
    (ω.play g root depth D' (arm m c a b)).andThen
      (fun m' o => o = .ok (m'.find s (m'.word (arm m c a b)))) m o := by
  rcases h with ⟨m', h, ho⟩ | ⟨events, h, rfl⟩
  · have kept : m'.word c = m.word c := by
      rw [Moment.word, Moment.word, keeps_play (Finset.Subset.refl D') (.ok m') h c done]
    refine Course.andThen_ok h ?_
    rwa [arm, kept] at ho
  · exact Course.andThen_error h

/-! ## What courses preserve -/

/-- Whether an outcome is a moment as it should be when certain nodes are done, or a failure as
it should be. -/
def Meets (P : Finset NodeId → Moment → Prop) (F : List Event → Prop) (D : Finset NodeId) :
    Except (List Event) Moment → Prop
  | .ok m => P D m
  | .error events => F events

theorem Meets.andThen {P P' : Finset NodeId → Moment → Prop} {F : List Event → Prop} {R S : Course}
    {D D' : Finset NodeId} (hR : ∀ o, R m o → Meets P F D o)
    (hS : ∀ m' o, R m (.ok m') → P D m' → S m' o → Meets P' F D' o) :
    ∀ o, R.andThen S m o → Meets P' F D' o := by
  rintro o (⟨m', h, h'⟩ | ⟨e, h, rfl⟩)
  · exact hS m' o h (hR _ h) h'
  · exact hR _ h

/-- What single nodes preserve: a property of moments and done nodes, or of failures. -/
structure Maintains (ω : World) (g : Graph) (root : NodeId) (P : Finset NodeId → Moment → Prop)
    (F : List Event → Prop) : Prop where
  visit : ∀ {D id n m o}, id ∈ g.below root → id ∉ D → g.Closed D → g.node? id = some n →
    (∀ x ∈ n.operands, x ∈ D) → P D m → ω.visit g id n m o → Meets P F (insert id D) o
  choose : ∀ {D s c a b n m m'}, g.Fork root D s c a b → g.node? s = some n →
    n.kind = .select c a b → P (g.doneAfter D (ahead g root D c a b)) m →
    Keeps (g.doneAfter D (ahead g root D c a b)) m (.ok m') →
    P (g.doneAfter D (ahead g root D c a b) ∪ g.below (arm m c a b)) m' →
    P (D ∪ g.below s) (m'.find s (m'.word (arm m c a b)))

variable {P : Finset NodeId → Moment → Prop} {F : List Event → Prop}

theorem meets_visitAll (w : g.WellFormed) {step : Finset NodeId → NodeId → Course}
    (h : ∀ x ∈ xs, ∀ D m o, g.Closed D → P D m → step D x m o → Meets P F (D ∪ g.below x) o)
    (lt : ∀ x ∈ xs, x < g.size) (closed : g.Closed D) (hm : P D m)
    (ho : visitAll g step D xs m o) : Meets P F (g.doneAfter D xs) o := by
  induction xs generalizing D m o with
  | nil =>
    cases ho
    exact hm
  | cons x xs ih =>
    rw [visitAll] at ho
    have inside := lt x (List.mem_cons_self ..)
    exact Meets.andThen (fun o => h x (List.mem_cons_self ..) D m o closed hm)
      (fun m' o _ hm' => ih (fun y hy => h y (List.mem_cons_of_mem _ hy))
        (fun y hy => lt y (List.mem_cons_of_mem _ hy)) (closed.union (w.closed_below inside)) hm')
      o ho

/-- What single nodes preserve is preserved by finding a node and all that it needs. -/
theorem Maintains.play (maintains : ω.Maintains g root P F) (w : g.WellFormed)
    (hr : root < g.size) (closed : g.Closed D) (hid : id ∈ g.below root) (hm : P D m)
    (ho : ω.play g root depth D id m o) : Meets P F (D ∪ g.below id) o := by
  induction depth generalizing D id m o with
  | zero => exact ho.elim
  | succ depth ih =>
    have inside := lt_size_of_mem_below hid
    by_cases hD : id ∈ D
    · rw [play_of_mem hD] at ho
      cases ho
      have done : g.below id ⊆ D := fun x hx => closed.of_reaches hD ((w.mem_below inside).1 hx)
      rwa [Meets, Finset.union_eq_left.2 done]
    have rest (xs : List NodeId) (below : ∀ x ∈ xs, x ∈ g.below root) (o)
        (ho : visitAll g (ω.play g root depth) D xs m o) : Meets P F (g.doneAfter D xs) o :=
      meets_visitAll w (fun x hx D m o closed hm ho => ih closed (below x hx) hm ho)
        (fun x hx => lt_size_of_mem_below (below x hx)) closed hm ho
    obtain ⟨n, hn⟩ := node?_of_lt inside
    have operands : g.operandsOf id = n.operands := operandsOf_eq hn
    by_cases hk : ∃ c a b, n.kind = .select c a b
    · obtain ⟨c, a, b, hk⟩ := hk
      have fork : g.Fork root D id c a b :=
        ⟨hr, closed, hid, hD, by rw [operands, Node.operands, hk]; rfl⟩
      rw [play_select hD hn hk, World.choose] at ho
      refine Meets.andThen (rest _ fun x => fork.ahead_mem_below w) (fun m₁ o _ hm₁ ho => ?_) o ho
      have arm_mem := fork.mem_below w (Fork.arm_mem m₁)
      refine Meets.andThen (fun o => ih (fork.closed_ahead w) arm_mem hm₁)
        (fun m₂ o played hm₂ ho => ?_) o ho
      cases ho
      exact maintains.choose fork hn hk hm₁ (keeps_play (Finset.Subset.refl _) _ played) hm₂
    · rw [play_node hD hn fun c a b h => hk ⟨c, a, b, h⟩] at ho
      have below (x : NodeId) (hx : x ∈ n.operands) : x ∈ g.below root :=
        w.operand_mem_below hr hid (operands ▸ hx)
      refine Meets.andThen (rest _ below) (fun m₁ o _ hm₁ ho => ?_) o ho
      have met := maintains.visit hid (w.notMem_operands hn hD)
        (w.closed_doneAfter closed fun x hx => Nat.lt_trans (w.operands_lt hn x hx) inside) hn
        (fun _ => w.operand_done hn) hm₁ ho
      rwa [w.insert_doneAfter hn] at met

end World

end NativeExpr
