import NativeExpr.Proofs.Lowering.Turn
import NativeExpr.Proofs.Playing

/-!
# Between nodes

Between two nodes the tables count the reads that are still to come: those of the
nodes that are not done, less what conditionals have read whose code is not
finished. A node is asked for only while a read of it is to come, and each node that
is found on the way is counted once.
-/
namespace NativeExpr

open X64

/-! ## What is counted -/

namespace Graph

variable (g : Graph) (x : NodeId)

def isSelect : Bool :=
  match (g.node? x).map Node.kind with
  | some (.select ..) => true
  | _ => false

def isCall : Bool :=
  match (g.node? x).map Node.kind with
  | some (.call ..) => true
  | _ => false

def isCompare : Bool :=
  match (g.node? x).map Node.kind with
  | some (.compare ..) => true
  | _ => false

end Graph

namespace Lowering

/-- The counts after nodes got code of their own and comparisons became parts of
branches. -/
def Tally.add (g : Graph) (t : Tally) (made fused : List NodeId) : Tally where
  nodes := t.nodes + made.length
  fused := t.fused + fused.length
  conditionals := t.conditionals + made.countP g.isSelect
  calls := t.calls + made.countP g.isCall
  branches := t.branches + 2 * made.countP g.isSelect
  calling := made.any g.isCall || t.calling
  generatedNodes := made ++ t.generatedNodes
  fusedNodes := fused ++ t.fusedNodes

/-- Each node of a set was counted once, as one with code of its own or as a
comparison that became part of a branch. -/
structure Counted (g : Graph) (B : Finset NodeId) (t t' : Tally) : Prop where
  lists : ∃ made fused : List NodeId, t' = t.add g made fused ∧ (made ++ fused).Nodup ∧
    (∀ x, x ∈ made ++ fused ↔ x ∈ B) ∧ ∀ x ∈ fused, g.isCompare x = true
  expressible : ∀ x ∈ B, Expressible g x

variable {S : Setting} {E : Env} {σ₀ σ σ' σ'' τ : State} {p₀ p : Pose} {R C C' : Course}
variable {D D' D'' : Finset NodeId} {g : Graph} {B B' : Finset NodeId} {t t' t'' : Tally}
variable {x y id : NodeId} {n : Node}

theorem Tally.add_add (t : Tally) (made fused made' fused' : List NodeId) :
    (t.add g made fused).add g made' fused' = t.add g (made' ++ made) (fused' ++ fused) := by
  simp only [Tally.add, List.length_append, List.countP_append, List.append_assoc, Nat.mul_add,
    Nat.add_assoc, Nat.add_comm, List.any_append, Bool.or_assoc]

namespace Counted

theorem none : Counted g ∅ t t :=
  ⟨⟨[], [], rfl, List.nodup_nil, by simp, by simp⟩, by simp⟩

theorem trans (h : Counted g B t t') (h' : Counted g B' t' t'') (apart : Disjoint B B') :
    Counted g (B ∪ B') t t'' := by
  obtain ⟨made, fused, rfl, nodup, mem, compare⟩ := h.lists
  obtain ⟨made', fused', rfl, nodup', mem', compare'⟩ := h'.lists
  refine ⟨⟨made' ++ made, fused' ++ fused, Tally.add_add .., ?_, fun x => ?_, fun x hx => ?_⟩,
    fun x hx => ?_⟩
  · have shuffle : (made' ++ made ++ (fused' ++ fused)).Perm
        ((made ++ fused) ++ (made' ++ fused')) := by
      rw [List.perm_iff_count]
      intro z
      simp only [List.count_append]
      omega
    rw [shuffle.nodup_iff, List.nodup_append]
    refine ⟨nodup, nodup', fun x hx y hy he => ?_⟩
    exact Finset.disjoint_left.1 apart ((mem x).1 hx) ((mem' x).1 (he ▸ hy))
  · rw [Finset.mem_union, ← mem, ← mem']
    simp only [List.mem_append]
    tauto
  · rcases List.mem_append.1 hx with hx | hx
    · exact compare' x hx
    · exact compare x hx
  · rcases Finset.mem_union.1 hx with hx | hx
    · exact h.expressible x hx
    · exact h'.expressible x hx

theorem trans_sdiff {D D' D'' : Finset NodeId} (h : Counted g ( D' \ D) t t')
    (h' : Counted g ( D'' \ D') t' t'') (le : D ⊆ D') (le' : D' ⊆ D'') :
    Counted g ( D'' \ D) t t'' := by
  rw [← Finset.sdiff_union_sdiff_cancel le' le, Finset.union_comm]
  refine h.trans h' (Finset.disjoint_left.2 fun x hx hx' => ?_)
  exact (Finset.mem_sdiff.1 hx').2 (Finset.mem_sdiff.1 hx).1

theorem made (expressible : Expressible g x) : Counted g {x} t (t.add g [x] []) :=
  ⟨⟨[x], [], rfl, by simp, by simp, by simp⟩, by simpa using expressible⟩

theorem later {k : Nat} (h : Counted g B { t with branches := t.branches + k } t') :
    ∃ u : Tally, Counted g B t u ∧ t' = { u with branches := u.branches + k } := by
  obtain ⟨made, fused, rfl, nodup, mem, compare⟩ := h.lists
  refine ⟨t.add g made fused, ⟨⟨made, fused, rfl, nodup, mem, compare⟩, h.expressible⟩, ?_⟩
  simp only [Tally.add, Nat.add_right_comm]

theorem fused (compare : g.isCompare x = true) (expressible : Expressible g x) :
    Counted g {x} t (t.add g [] [x]) :=
  ⟨⟨[], [x], rfl, by simp, by simp, by simpa using compare⟩, by simpa using expressible⟩

end Counted

/-! ## The reads to come -/

/-- Conditionals whose code is not finished, and what they have read so far. -/
structure Opened where
  nodes : Finset NodeId
  reads : List NodeId

/-- The counted uses when the nodes of `D` are done. -/
structure Ledger (S : Setting) (D : Finset NodeId) (o : Opened) (σ : State) : Prop where
  closed : S.graph.Closed D
  params : ∀ {x i ty}, x ∈ S.graph.below S.ctx.root →
    S.graph.node? x = some ⟨.parameter i, ty⟩ → x ∈ D
  uses : ∀ x, σ.uses x + o.reads.count x = S.graph.pending S.ctx.root D x
  reads_done : ∀ x ∈ o.reads, x ∈ D
  reads_le : ∀ x, o.reads.count x ≤ ∑ y ∈ o.nodes, S.graph.edges y x
  nodes_open : ∀ y ∈ o.nodes, y ∈ S.graph.below S.ctx.root ∧ y ∉ D

variable {o o' : Opened}

namespace Ledger

theorem edges_le (h : Ledger S D o σ) (hy : y ∈ S.graph.below S.ctx.root) (hD : y ∉ D)
    (closed : y ∉ o.nodes) (x : NodeId) : S.graph.edges y x ≤ σ.uses x := by
  have all : insert y o.nodes ⊆ S.graph.below S.ctx.root \ D := by
    intro z hz
    rw [Finset.mem_sdiff]
    rcases Finset.mem_insert.1 hz with rfl | hz
    · exact ⟨hy, hD⟩
    · exact h.nodes_open z hz
  have le := Finset.sum_le_sum_of_subset (f := fun z => S.graph.edges z x) all
  rw [Finset.sum_insert closed] at le
  have uses := h.uses x
  have reads := h.reads_le x
  rw [Graph.pending] at uses
  omega

/-- The reads of the conditionals that are begun are to come or made. -/
theorem opened_le (h : Ledger S D o σ) (x : NodeId) :
    ∑ y ∈ o.nodes, S.graph.edges y x ≤ S.graph.pending S.ctx.root D x := by
  have inside : o.nodes ⊆ S.graph.below S.ctx.root \ D := fun y hy =>
    Finset.mem_sdiff.2 (h.nodes_open y hy)
  exact Nat.le_trans (Finset.sum_le_sum_of_subset inside) (Nat.le_add_left ..)

theorem wanted (h : Ledger S D o σ) (w : S.graph.WellFormed) (hr : S.ctx.root < S.graph.size)
    (hx : x ∈ S.graph.below S.ctx.root) (hD : x ∉ D) : 0 < σ.uses x := by
  have pending := w.pending_pos hr h.closed hx hD
  have uses := h.uses x
  rw [List.count_eq_zero_of_not_mem fun hm => hD (h.reads_done x hm)] at uses
  omega

theorem remaining_eq (h : Ledger S D o σ) (inv : Inv S D σ p) :
    remainingUses σ.values = S.graph.remaining S.ctx.root D := by
  funext x
  show (if (σ.place x).isSome then 0 else σ.uses x) = _
  unfold Graph.remaining
  by_cases hx : x ∈ D
  · rw [if_pos hx]
    split
    · rfl
    · next place =>
      have none : σ.place x = none := Option.not_isSome_iff_eq_none.1 place
      exact Nat.eq_zero_of_not_pos fun live => inv.done hx live none
  · have uses := h.uses x
    rw [List.count_eq_zero_of_not_mem fun hm => hx (h.reads_done x hm)] at uses
    rw [if_neg hx, inv.notDone hx, ← uses]
    rfl

theorem of_uses (h : Ledger S D o σ) (uses : ∀ x, σ'.uses x = σ.uses x) : Ledger S D o σ' :=
  { h with uses := fun x => by rw [uses, h.uses] }

theorem below (h : Ledger S D o σ) (w : S.graph.WellFormed) (hid : id < S.graph.size)
    (inner : ∀ y ∈ o.nodes, id < y)
    (uses : ∀ x, σ'.uses x + o.reads.count x =
      S.graph.pending S.ctx.root (D ∪ S.graph.below id) x) :
    Ledger S (D ∪ S.graph.below id) o σ' where
  closed := h.closed.union (w.closed_below hid)
  params := fun hx hn => Finset.mem_union_left _ (h.params hx hn)
  uses := uses
  reads_done := fun x hx => Finset.mem_union_left _ (h.reads_done x hx)
  reads_le := h.reads_le
  nodes_open := by
    intro y hy
    refine ⟨(h.nodes_open y hy).1, fun hm => ?_⟩
    rcases Finset.mem_union.1 hm with hm | hm
    · exact (h.nodes_open y hy).2 hm
    · exact Nat.not_lt_of_le (w.le_of_mem_below hid hm) (inner y hy)

theorem insert (h : Ledger S D o σ) (hid : id ∈ S.graph.below S.ctx.root) (fresh : id ∉ D)
    (other : id ∉ o.nodes) (operands : ∀ x ∈ S.graph.operandsOf id, x ∈ D)
    (uses : ∀ x, σ'.uses x + (S.graph.operandsOf id).count x = σ.uses x) :
    Ledger S (insert id D) o σ' where
  closed := by
    intro y hy x hx
    rcases Finset.mem_insert.1 hy with rfl | hy
    · exact Finset.mem_insert_of_mem (operands x hx)
    · exact Finset.mem_insert_of_mem (h.closed y hy x hx)
  params := fun hx hn => Finset.mem_insert_of_mem (h.params hx hn)
  uses := by
    intro x
    have := S.graph.pending_insert (x := x) hid fresh
    rw [Graph.edges] at this
    have := uses x
    have := h.uses x
    omega
  reads_done := fun x hx => Finset.mem_insert_of_mem (h.reads_done x hx)
  reads_le := h.reads_le
  nodes_open := by
    intro y hy
    refine ⟨(h.nodes_open y hy).1, fun hm => ?_⟩
    rcases Finset.mem_insert.1 hm with rfl | hm
    · exact other hy
    · exact (h.nodes_open y hy).2 hm

end Ledger

/-! ## Conditionals that are begun -/

/-- A further conditional is begun and has read some of its operands. -/
def Opened.enter (o : Opened) (s : NodeId) (xs : List NodeId) : Opened :=
  ⟨insert s o.nodes, o.reads ++ xs⟩

/-- A conditional whose code is next, inside those that are begun. -/
structure Forking (S : Setting) (D : Finset NodeId) (o : Opened) (s c a b : NodeId) : Prop where
  fork : S.graph.Fork S.ctx.root D s c a b
  inner : ∀ y ∈ o.nodes, s < y
  reads_le : ∀ x, o.reads.count x ≤ ∑ y ∈ o.nodes, S.graph.edges y x

namespace Forking

variable {s c a b : NodeId} {xs : List NodeId} (h : Forking S D o s c a b)
include h

theorem other : s ∉ o.nodes := fun hm => Nat.lt_irrefl s (h.inner s hm)

theorem operand_lt (w : S.graph.WellFormed) (hx : x ∈ [c, a, b]) :
    ∀ y ∈ (o.enter s xs).nodes, x < y := by
  intro y hy
  have lt : x < s := h.fork.operand_lt w hx
  rcases Finset.mem_insert.1 hy with rfl | hy
  · exact lt
  · exact Nat.lt_trans lt (h.inner y hy)

theorem edges (x : NodeId) : S.graph.edges s x = [c, a, b].count x := by
  rw [Graph.edges, h.fork.operands]

theorem ahead {D' : Finset NodeId} (closed : S.graph.Closed D') (fresh : s ∉ D') :
    Forking S D' o s c a b :=
  ⟨{ h.fork with closed := closed, open_ := fresh }, h.inner, h.reads_le⟩

theorem enter_le (le : ∀ x, xs.count x ≤ [c, a, b].count x) (x : NodeId) :
    (o.enter s xs).reads.count x ≤ ∑ y ∈ (o.enter s xs).nodes, S.graph.edges y x := by
  show (o.reads ++ xs).count x ≤ ∑ y ∈ insert s o.nodes, _
  rw [List.count_append, Finset.sum_insert h.other, h.edges, Nat.add_comm]
  exact Nat.add_le_add (le x) (h.reads_le x)

theorem enter (ledger : Ledger S D o σ) : Ledger S D (o.enter s []) σ where
  closed := ledger.closed
  params := ledger.params
  uses := fun x => by
    rw [Opened.enter, List.append_nil]
    exact ledger.uses x
  reads_done := fun x hx => ledger.reads_done x (by simpa [Opened.enter] using hx)
  reads_le := h.enter_le fun x => Nat.zero_le _
  nodes_open := fun y hy => (Finset.mem_insert.1 hy).elim
    (fun he => he ▸ ⟨h.fork.user, h.fork.open_⟩) (ledger.nodes_open y)

/-- An operand that the conditional has not read as often as it will. -/
theorem live {D' : Finset NodeId} (ledger : Ledger S D' (o.enter s xs) σ)
    (hx : xs.count x < [c, a, b].count x) : 0 < σ.uses x := by
  have opened := ledger.opened_le x
  have uses := ledger.uses x
  have outer := h.reads_le x
  rw [show (o.enter s xs).nodes = insert s o.nodes from rfl, Finset.sum_insert h.other,
    h.edges] at opened
  rw [show (o.enter s xs).reads = o.reads ++ xs from rfl, List.count_append] at uses
  omega

theorem read {D' : Finset NodeId} (xs : List NodeId) (ledger : Ledger S D' (o.enter s xs) σ)
    (hx : x ∈ D')
    (le : ∀ y, (xs ++ [x]).count y ≤ [c, a, b].count y)
    (uses : ∀ y, σ'.uses y + [x].count y = σ.uses y) :
    Ledger S D' (o.enter s (xs ++ [x])) σ' where
  closed := ledger.closed
  params := ledger.params
  uses := fun y => by
    have before := ledger.uses y
    have now := uses y
    simp only [Opened.enter, List.count_append] at before ⊢
    omega
  reads_done := fun y hy => by
    simp only [Opened.enter, List.mem_append, List.mem_singleton] at hy
    rcases hy with hy | hy | rfl
    · exact ledger.reads_done y (List.mem_append_left _ hy)
    · exact ledger.reads_done y (List.mem_append_right _ hy)
    · exact hx
  reads_le := h.enter_le le
  nodes_open := ledger.nodes_open

/-- The two arms together make every read once that is to be made ahead of the end. -/
theorem merge {σa σb : State} (apart : ∀ y ∈ S.graph.below a, y ∈ S.graph.below b → y ∈ D)
    (w : S.graph.WellFormed) (ledger : Ledger S D (o.enter s [c]) σ)
    (first : Ledger S (D ∪ S.graph.below a) (o.enter s [c, a]) σa)
    (second : Ledger S (D ∪ S.graph.below b) (o.enter s [c, b]) σb) (x : NodeId) :
    σ.uses x ≤ σa.uses x + σb.uses x ∧
      σa.uses x + σb.uses x - σ.uses x + o.reads.count x + [c, a, b].count x =
        S.graph.pending S.ctx.root (D ∪ S.graph.below a ∪ S.graph.below b) x := by
  have both := Graph.pending_merge (x := x) (h.fork.second.below_subset w) apart
  have opened : ∑ y ∈ insert s o.nodes, S.graph.edges y x ≤
      S.graph.pending S.ctx.root (D ∪ S.graph.below a ∪ S.graph.below b) x := by
    refine Nat.le_trans (Finset.sum_le_sum_of_subset fun y hy => ?_) (Nat.le_add_left ..)
    obtain ⟨below, notA⟩ := first.nodes_open y hy
    have notB := (second.nodes_open y hy).2
    simp only [Finset.mem_sdiff, Finset.mem_union, not_or] at notA notB ⊢
    exact ⟨below, notA, notB.2⟩
  rw [Finset.sum_insert h.other, h.edges] at opened
  have outer := h.reads_le x
  have uses := ledger.uses x
  have usesA := first.uses x
  have usesB := second.uses x
  simp only [Opened.enter, List.count_append, List.count_cons, List.count_nil]
    at uses usesA usesB opened ⊢
  omega

end Forking

/-! ## Finding nodes -/

/-- What code that finds nodes leaves. -/
structure Made (S : Setting) (E : Env) (σ₀ : State) (p₀ : Pose) (D : Finset NodeId) (σ : State)
    (R : Course) (o : Opened) (D' : Finset NodeId) (C : Course) (σ' : State) : Prop where
  stage : Stage S E σ₀ p₀ D' σ' (R.andThen C) .idle
  ledger : Ledger S D' o σ'
  grows : Grows σ σ'
  counted : Counted S.graph ( D' \ D) σ.tally σ'.tally

theorem Made.refl (stage : Stage S E σ₀ p₀ D σ R .idle) (ledger : Ledger S D o σ) :
    Made S E σ₀ p₀ D σ R o D .stay σ := by
  refine ⟨?_, ledger, .refl, ?_⟩
  · rwa [Course.andThen_stay]
  · rw [Finset.sdiff_self]
    exact .none

theorem Made.trans (h : Made S E σ₀ p₀ D σ R o D' C σ')
    (h' : Made S E σ₀ p₀ D' σ' (R.andThen C) o D'' C' σ'') (le : D ⊆ D') (le' : D' ⊆ D'') :
    Made S E σ₀ p₀ D σ R o D'' (C.andThen C') σ'' := by
  refine ⟨?_, h'.ledger, h.grows.trans h'.grows, h.counted.trans_sdiff h'.counted le le'⟩
  rw [← Course.andThen_assoc]
  exact h'.stage

theorem Made.reads (h : Made S E σ₀ p₀ D σ R o D' C σ') (reads : Reads σ' σ'' [])
    (stage : Stage S E σ₀ p₀ D' σ'' (R.andThen C) .idle) : Made S E σ₀ p₀ D σ R o D' C σ'' :=
  ⟨stage, h.ledger.of_uses reads.uses_eq, h.grows.trans reads.grows, reads.tally ▸ h.counted⟩

theorem Made.turn (w : S.graph.WellFormed) (hr : S.ctx.root < S.graph.size)
    (hn : S.graph.node? id = some n) (below : id ∈ S.graph.below S.ctx.root) (fresh : id ∉ D)
    (other : id ∉ o.nodes)
    (h : Made S E σ₀ p₀ D σ R o (S.graph.doneAfter D n.operands) C τ) :
    Turn S E σ₀ p₀ (S.graph.doneAfter D n.operands) τ (R.andThen C) id n := by
  have fresh' : id ∉ S.graph.doneAfter D n.operands := w.notMem_operands hn fresh
  refine ⟨h.stage, hn, below, w.typed hn, fresh', h.ledger.wanted w hr below fresh',
    fun x hx => w.operand_done hn hx, fun x => ?_⟩
  have := h.ledger.edges_le below fresh' other x
  rwa [Graph.edges, Graph.operandsOf_eq hn] at this

theorem Turn.ledger (t : Turn S E σ₀ p₀ (S.graph.doneAfter D n.operands) τ R id n)
    (w : S.graph.WellFormed) (h : Ledger S (S.graph.doneAfter D n.operands) o τ)
    (other : id ∉ o.nodes) (uses : ∀ x, σ'.uses x + n.operands.count x = τ.uses x) :
    Ledger S (D ∪ S.graph.below id) o σ' := by
  rw [← w.insert_doneAfter t.node]
  rw [← Graph.operandsOf_eq t.node] at uses
  exact h.insert t.below t.fresh other
    (fun x hx => t.reads x (Graph.operandsOf_eq t.node ▸ hx)) uses

/-- A generator finds every node below a bound that is to be read. -/
def Makes (S : Setting) (E : Env) (gen : NodeId → Lower Unit) (depth : Nat) : Prop :=
  ∀ {σ₀ p₀ D σ R o id}, Stage S E σ₀ p₀ D σ R .idle → Ledger S D o σ →
    id ∈ S.graph.below S.ctx.root → id < depth → (∀ y ∈ o.nodes, id < y) → 0 < σ.uses id →
      Generates S (gen id) σ fun _ σ' => Made S E σ₀ p₀ D σ R o (D ∪ S.graph.below id)
        (E.world.play S.graph S.ctx.root depth D id) σ'

theorem Makes.operands {gen : NodeId → Lower Unit} {depth reader bound : Nat}
    (makes : Makes S E gen depth) (w : S.graph.WellFormed) (hr : S.ctx.root < S.graph.size)
    (hreader : reader ∈ S.graph.below S.ctx.root) (le_reader : bound ≤ reader)
    (le_depth : bound ≤ depth) {T : State → Prop} :
    ∀ {xs : List NodeId} {σ D R}, Stage S E σ₀ p₀ D σ R .idle → Ledger S D o σ → reader ∉ D →
      reader ∉ o.nodes → (∀ y ∈ o.nodes, bound ≤ y) →
      S.graph.Askable S.ctx.root reader bound D xs →
      (∀ τ, Made S E σ₀ p₀ D σ R o (S.graph.doneAfter D xs)
        (World.visitAll S.graph (E.world.play S.graph S.ctx.root depth) D xs) τ → T τ) →
      Operands S gen T xs σ := by
  intro xs
  induction xs with
  | nil => exact fun stage ledger _ _ _ _ next => next _ (.refl stage ledger)
  | cons x xs ih =>
    intro σ D R stage ledger hD closed opened ask next
    obtain ⟨hx, hlt, why, ask⟩ := ask
    have wanted : 0 < σ.uses x := by
      rcases why with operand | fresh
      · exact Nat.lt_of_lt_of_le (Graph.edges_pos.2 operand)
          (ledger.edges_le hreader hD closed x)
      · exact ledger.wanted w hr hx fresh
    refine (makes stage ledger hx (Nat.lt_of_lt_of_le hlt le_depth)
      (fun y hy => Nat.lt_of_lt_of_le hlt (opened y hy)) wanted).mono ?_ fun _ _ he => he
    intro _ σ₁ made
    have hx' : x < S.graph.size := Graph.lt_size_of_mem_below hx
    have notBelow : reader ∉ S.graph.below x := fun hm =>
      absurd (Nat.lt_of_lt_of_le hlt le_reader) (Nat.not_lt_of_le (w.le_of_mem_below hx' hm))
    refine ih made.stage made.ledger ?_ closed opened ask fun τ rest => next τ ?_
    · rw [Finset.mem_union]
      exact fun hm => hm.elim hD notBelow
    · exact made.trans rest Finset.subset_union_left Graph.subset_doneAfter

/-- A node got its code, and before that those of its operands that had none. -/
structure Lowered (S : Setting) (E : Env) (σ₀ : State) (p₀ : Pose) (D : Finset NodeId) (σ : State)
    (R : Course) (o : Opened) (id : NodeId) (n : Node) (depth : Nat) (σ' : State) : Prop where
  stage : Stage S E σ₀ p₀ (D ∪ S.graph.below id) σ'
    (R.andThen (E.world.play S.graph S.ctx.root (depth + 1) D id)) .idle
  ledger : Ledger S (D ∪ S.graph.below id) o σ'
  grows : Grows σ σ'
  counted : ∃ t, Counted S.graph (((D ∪ S.graph.below id) \ D).erase id) σ.tally t ∧
    σ'.tally = t.turn n
  met : ∀ c a b, n.kind = .select c a b → ∃ m, .joined id m ∈ σ'.journal

end Lowering
end NativeExpr
