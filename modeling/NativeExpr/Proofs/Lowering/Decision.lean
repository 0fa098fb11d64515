import NativeExpr.Lowering.Conditional
import NativeExpr.Proofs.Lowering.Compare
import NativeExpr.Proofs.Lowering.Ledger

/-!
# Deciding a branch

A branch tests the truth value of its condition. A comparison that nothing else reads
is made by the branch itself: it never gets a place, but the flags tell its value as
long as nothing else has set them.
-/
namespace NativeExpr.Lowering

open NativeExpr X64 Convention

variable {S : Setting} {E : Env} {σ₀ σ σ' τ τ' : State} {A : Moment} {p₀ p p' : Pose}
variable {R C : Course} {D : Finset NodeId} {o : Opened} {x y s c a b lhs rhs : NodeId}
variable {gen : NodeId → Lower Unit} {depth : Nat} {pred : Predicate} {cond : Condition}

/-- Flags that tell whether a value that has been found is false. -/
def Refutes (cond : Condition) (c : NodeId) (A : Moment) (f : Machine.Flags) : Prop :=
  f.holds cond = !(A.word c != 0)

/-- The condition of a conditional has been found, and the flags tell it. -/
structure Decided (S : Setting) (E : Env) (σ₀ : State) (p₀ : Pose) (D : Finset NodeId) (σ : State)
    (R : Course) (o : Opened) (s c : NodeId) (C : Course) (cond : Condition) (σ' : State) :
    Prop where
  stage : Stage S E σ₀ p₀ (D ∪ S.graph.below c) σ' (R.andThen C)
    (Pose.idle.setFlags (Refutes cond c))
  ledger : Ledger S (D ∪ S.graph.below c) (o.enter s [c]) σ'
  grows : Grows σ σ'
  counted : Counted S.graph ((D ∪ S.graph.below c) \ D) σ.tally σ'.tally

/-! ## Testing a truth value -/

theorem holds_ofLogic (w : Word) : (Machine.Flags.ofLogic (w &&& w)).holds .e = !(w != 0) := by
  show (w &&& w == 0) = _
  rw [BitVec.and_self, bne, Bool.not_not]

theorem generates_test (f : Forking S D o s c a b)
    (made : Made S E σ₀ p₀ D σ R (o.enter s []) (D ∪ S.graph.below c) C τ)
    (w : S.graph.WellFormed) (ty : S.graph.tyOf c = .bool) :
    Generates S (emitBranchCondition S.ctx (.test c)) τ fun cond τ' =>
      Decided S E σ₀ p₀ D σ R o s c C cond τ' ∧ ∀ r, Vacant S τ r → Vacant S τ' r := by
  have live : 0 < τ.uses c := f.live made.ledger (by simp)
  have done : c ∈ D ∪ S.graph.below c := Finset.mem_union_right _
    (w.self_mem_below (Nat.lt_trans (f.fork.operand_lt w (by simp)) f.fork.lt_size))
  have general : (S.graph.tyOf c).regClass = .general := by rw [ty]; rfl
  dsimp only [emitBranchCondition]
  refine .seq (made.stage.generalRegister done live general) ?_
  rintro r σ₁ ⟨hr, -, coded₁, stage₁⟩
  refine .seq (stage₁.setFlags (Machine.performs_test hr hr) (P := Refutes .e c)
    fun sound within A m hm => ?_) ?_
  · show (Machine.Flags.ofLogic (m.state.named r &&& m.state.named r)).holds .e = _
    rw [hm.named_word general Pose.known_learn, holds_ofLogic]
  rintro _ σ₂ ⟨coded₂, stage₂⟩
  have reads : Reads τ σ₂ [] := coded₁.reads.trans coded₂.reads
  refine .seq (stage₂.consume (reads.uses_eq c ▸ live) (.of_unlocked rfl)) ?_
  rintro _ σ₃ ⟨reads₃, stage₃⟩
  have reads : Reads τ σ₃ [c] := reads.trans reads₃
  refine .of_pure ⟨⟨stage₃.relax _ rfl rfl rfl (fun _ _ hk => by cases hk) fun _ _ hf => hf,
    f.read [] made.ledger done (fun y => ?_) reads.uses, made.grows.trans reads.grows,
    reads.tally ▸ made.counted⟩, fun q vacant => vacant.after made.stage.inv stage₃.inv rfl
      reads.grows fun x hx hD => absurd hx hD⟩
  simp [List.count_cons]

/-! ## Comparisons without a place -/

theorem Stage.findAside (h : Stage S E σ₀ p₀ D σ R p) (p' : Pose) (hx : x ∉ D) (dead : σ.uses x = 0)
    {f : Course} {w : Moment → Word} (found : ∀ A, f A (.ok (A.find x (w A))))
    (held : p'.held = p.held) (locks : p'.locks = p.locks) (lowered : p'.lowered = p.lowered)
    (known : p'.known = fun _ => none)
    (flags : ∀ A fl, p.flags A fl → p'.flags (A.find x (w A)) fl) :
    Stage S E σ₀ p₀ (insert x D) σ (R.andThen f) p' := by
  have inv : Inv S (insert x D) σ p' :=
    (h.inv.widen _ (Finset.subset_insert x D) fun y hy hD => by
      rwa [(Finset.mem_insert.1 hy).resolve_right hD]).congr held locks fun hk => by
        rw [known] at hk
        cases hk
  refine h.next inv .refl fun sound within A m at_ hm => ⟨_, found A, .refl at_ ?_⟩
  refine ⟨fun {y pl} hu hpl => ?_, fun hk => ?_, ?_, hm.bp, hm.heap, hm.kept, hm.saved, hm.log,
    flags A _ hm.flags⟩
  · have other : y ≠ x := by
      rintro rfl
      exact Nat.ne_of_gt hu dead
    rw [Moment.found_find, if_neg other]
    exact hm.values hu hpl
  · rw [known] at hk
    cases hk
  · rw [lowered]
    exact hm.sp

theorem Moment.word_find (A : Moment) (x : NodeId) (w : Word) (y : NodeId) :
    (A.find x w).word y = if y = x then w else A.word y := by
  rw [Moment.word, Moment.found_find]
  split <;> rfl

theorem refutes_find {g : Graph} {f : Machine.Flags} (same : g.tyOf rhs = g.tyOf lhs)
    (single : isSingleCondition pred (g.tyOf lhs) = true)
    (hf : f = comparisonFlags g pred lhs rhs A) :
    Refutes (comparisonCondition pred (g.tyOf lhs)).invert c
      (A.find c (Value.compare pred (A.value g lhs) (A.value g rhs)).bits) f := by
  rw [Refutes, Machine.Flags.holds_invert, hf, holds_comparison same single, Moment.word_find,
    if_pos rfl]
  show (!pred.holds _) = !((if pred.holds _ = true then (1 : Word) else 0) != 0)
  cases pred.holds ((A.value g lhs).order (A.value g rhs)) <;> rfl

theorem generates_fused (f : Forking S D o s c a b) {n : Node}
    (made : Made S E σ₀ p₀ D σ R (o.enter s []) (S.graph.doneAfter D n.operands) C τ)
    (w : S.graph.WellFormed) (node : S.graph.node? c = some n)
    (kind : n.kind = .compare pred lhs rhs)
    (single : isSingleCondition pred (S.graph.tyOf lhs) = true) (fresh : c ∉ D)
    (last : τ.uses c = 1) :
    Generates S (emitBranchCondition S.ctx (.fused c pred lhs rhs)) τ fun cond τ' =>
      Decided S E σ₀ p₀ D σ R o s c (C.andThen (E.world.visit S.graph c n)) cond τ' ∧
        ∀ r, Vacant S τ r → Vacant S τ' r := by
  have operands : n.operands = [lhs, rhs] := by rw [Node.operands, kind]; rfl
  have other : c ∉ (o.enter s []).nodes := fun hm =>
    Nat.lt_irrefl c (f.operand_lt w (by simp) c hm)
  have t := made.turn w f.fork.root_lt node (f.fork.mem_below w (by simp)) fresh other
  have same : S.graph.tyOf rhs = S.graph.tyOf lhs := by
    have typed := t.typed
    obtain ⟨k, ty⟩ := n
    obtain rfl : k = _ := kind
    obtain ⟨⟨ty', hl, hr⟩, -⟩ := typed
    rw [hl.tyOf_eq, hr.tyOf_eq]
  have compare : S.graph.isCompare c = true := by simp [Graph.isCompare, node, kind]
  have expressible : Expressible S.graph c := (expressible_iff node).2 (by rw [kind]; trivial)
  dsimp only [emitBranchCondition]
  refine .seq (made.stage.emitComparison (t.reads lhs (by simp [operands]))
    (t.reads rhs (by simp [operands])) (t.live (by simp [operands]))
    (t.live (by simp [operands])) same) ?_
  rintro cond σ₁ ⟨rfl, coded₁, p, beside, stage₁⟩
  have unlocked : (p.setFlags fun A fl => fl = comparisonFlags S.graph pred lhs rhs A).locks =
      fun _ => 0 := beside.locks
  refine stage₁.consumeBoth unlocked coded₁.reads (fun x => operands ▸ t.uses x)
    fun σ₃ reads₀ stage₃ => ?_
  rw [← operands] at reads₀
  have own : σ₃.uses c = 1 := by
    have := reads₀.uses c
    rw [List.count_eq_zero_of_not_mem fun hm => t.fresh (t.reads c hm)] at this
    exact this.trans last
  have live : 0 < σ₃.uses c := by rw [own]; exact Nat.one_pos
  have place : σ₃.place c = none := stage₃.inv.notDone t.fresh
  refine .seq (stage₃.dropUse live fun q hn => ?_) ?_
  · rw [place] at hn
    cases hn.2
  rintro _ σ₄ ⟨reads₄, stage₄⟩
  have reads : Reads τ σ₄ (n.operands ++ [c]) := reads₀.trans reads₄
  have dead : σ₄.uses c = 0 := by
    have := reads₄.uses c
    rw [List.count_singleton_self, own] at this
    omega
  refine .bind (.of_modify (.bind (.of_modify (.of_pure ?_))))
  have stage₅ := (((stage₄.note (n := .fused c) rfl trivial fun same => by cases same).count
    { σ₄.stats with fused := σ₄.stats.fused + 1 }).findAside
    (Pose.idle.setFlags (Refutes (comparisonCondition pred (S.graph.tyOf lhs)).invert c))
    t.fresh dead (f := E.world.visit S.graph c n)
    (w := fun A => (Value.compare pred (A.value S.graph lhs) (A.value S.graph rhs)).bits)
    (fun A => by simp only [World.visit, kind]) beside.held.symm beside.locks.symm
    beside.lowered.symm rfl fun A fl hf => refutes_find same single hf)
  rw [Course.andThen_assoc, w.insert_doneAfter node] at stage₅
  have ledger := t.ledger w made.ledger other reads₀.uses
  have counted := made.counted.trans (.fused compare expressible)
    (Finset.disjoint_singleton_right.2 fun hm => t.fresh (Finset.mem_sdiff.1 hm).1)
  have sets : S.graph.doneAfter D n.operands \ D ∪ {c} = (D ∪ S.graph.below c) \ D := by
    rw [← w.insert_doneAfter node, Finset.insert_sdiff_of_notMem _ fresh, Finset.insert_eq,
      Finset.union_comm]
  rw [sets, ← reads.tally] at counted
  refine ⟨⟨stage₅, (f.read [] ledger ?_ (fun y => ?_) reads₄.uses).of_uses fun _ => rfl,
    made.grows.trans (reads.grows.trans (grows_record _ [.fused c] rfl)), counted⟩,
    fun q vacant => ?_⟩
  · exact Finset.mem_union_right _ (w.self_mem_below (Graph.node?_lt node))
  · simp [List.count_cons]
  · have after := vacant.after made.stage.inv stage₄.inv (congrFun beside.held q) reads.grows
      fun x hx hD => absurd hx hD
    exact ⟨after.mem, after.free, after.touched⟩

/-! ## From the condition to the branch -/

def Prepared (S : Setting) (E : Env) (σ₀ : State) (p₀ : Pose) (D : Finset NodeId) (σ : State)
    (R : Course) (o : Opened) (s c : NodeId) (depth : Nat) : Branch → State → Prop
  | .test x, τ => x = c ∧ Made S E σ₀ p₀ D σ R (o.enter s []) (D ∪ S.graph.below c)
      (E.world.play S.graph S.ctx.root depth D c) τ
  | .fused x pred lhs rhs, τ => x = c ∧ c ∉ D ∧ τ.uses c = 1 ∧
      isSingleCondition pred (S.graph.tyOf lhs) = true ∧
      (∃ n, S.graph.node? c = some n ∧ n.kind = .compare pred lhs rhs) ∧
      Made S E σ₀ p₀ D σ R (o.enter s []) (S.graph.doneAfter D [lhs, rhs])
        (World.visitAll S.graph (E.world.play S.graph S.ctx.root depth) D [lhs, rhs]) τ

theorem yields_fusible? (inv : Inv S D σ p) (hc : c < S.graph.size)
    (live : 0 < σ.uses c) (w : S.graph.WellFormed)
    {post : Option (Predicate × NodeId × NodeId) → State → Prop}
    (none : post none σ)
    (some : ∀ pred lhs rhs n, S.graph.node? c = some n → n.kind = .compare pred lhs rhs →
      isSingleCondition pred (S.graph.tyOf lhs) = true → σ.uses c = 1 → c ∉ D →
        post (some (pred, lhs, rhs)) σ) :
    Generates S (fusible? S.ctx c) σ post := by
  refine .bind (yields_assignment ?_)
  split
  · next fits =>
    simp only [Bool.and_eq_true, Bool.not_eq_true', beq_iff_eq] at fits
    obtain ⟨⟨-, unplaced⟩, last⟩ := fits
    have fresh : c ∉ D := fun hD => by
      have := inv.done hD live
      rw [Assignment.isGenerated, Option.isSome_eq_false_iff, Option.isNone_iff_eq_none] at unplaced
      exact this unplaced
    obtain ⟨n, hn⟩ := Graph.node?_of_lt hc
    refine .bind (.of_ok (Graph.node_eq_ok.2 hn) ?_)
    split
    · next pred lhs rhs kind =>
      obtain ⟨t, hl⟩ : ∃ t, S.graph.HasType lhs t := by
        have typed := w.typed hn
        obtain ⟨k, ty⟩ := n
        obtain rfl : k = _ := kind
        obtain ⟨⟨t, hl, -⟩, -⟩ := typed
        exact ⟨t, hl⟩
      refine .bind (.of_ok (Graph.typeOf_eq hl) (.of_pure ?_))
      split
      · next single => exact some pred lhs rhs n hn kind (hl.tyOf_eq ▸ single) last fresh
      · exact none
    · exact .of_pure none
  · exact .of_pure none

theorem generates_prepareBranch (makes : Makes S E gen depth) (w : S.graph.WellFormed)
    (f : Forking S D o s c a b) (le : s ≤ depth) (stage : Stage S E σ₀ p₀ D σ R .idle)
    (ledger : Ledger S D (o.enter s []) σ) :
    Generates S (prepareBranch S.ctx gen c) σ fun branch τ =>
      Prepared S E σ₀ p₀ D σ R o s c depth branch τ := by
  have hc : c < s := f.fork.operand_lt w (by simp)
  have below : c ∈ S.graph.below S.ctx.root := f.fork.mem_below w (by simp)
  have live : 0 < σ.uses c := f.live ledger (by simp)
  have inner : ∀ y ∈ (o.enter s []).nodes, c < y := f.operand_lt w (by simp)
  refine .bind (yields_fusible? stage.inv (Nat.lt_trans hc f.fork.lt_size) live w ?_ ?_)
  · refine .seq (makes stage ledger below (Nat.lt_of_lt_of_le hc le) inner live) ?_
    exact fun _ τ made => .of_pure ⟨rfl, made⟩
  · intro pred lhs rhs n hn kind single last fresh
    have operands : S.graph.operandsOf c = [lhs, rhs] := by
      rw [Graph.operandsOf_eq hn, Node.operands, kind]
      rfl
    have gens : Operands S gen (Made S E σ₀ p₀ D σ R (o.enter s [])
        (S.graph.doneAfter D [lhs, rhs]) (World.visitAll S.graph
          (E.world.play S.graph S.ctx.root depth) D [lhs, rhs])) [lhs, rhs] σ := by
      refine makes.operands w f.fork.root_lt below (Nat.le_refl c)
        (Nat.le_of_lt (Nat.lt_of_lt_of_le hc le)) stage ledger fresh
        (fun hm => Nat.lt_irrefl c (inner c hm)) (fun y hy => Nat.le_of_lt (inner y hy))
        (Graph.askable_operands fun x hx => ?_) fun _ made => made
      rw [← operands] at hx
      exact ⟨hx, w.operand_mem_below f.fork.root_lt below hx, w.operandsOf_lt hx⟩
    refine .seq gens fun _ _ gens => .seq gens fun _ τ made => .of_pure ?_
    refine ⟨rfl, fresh, ?_, single, ⟨n, hn, kind⟩, made⟩
    have least : 0 < τ.uses c := f.live made.ledger (by simp)
    have most := made.grows.uses_le c
    omega

/-- The condition is found, a register is chosen for the result, and the flags are set. -/
theorem generates_decide (makes : Makes S E gen depth) (w : S.graph.WellFormed)
    (f : Forking S D o s c a b) (le : s ≤ depth) (stage : Stage S E σ₀ p₀ D σ R .idle)
    (ledger : Ledger S D (o.enter s []) σ) (ty : S.graph.tyOf c = .bool) (cls : RegClass)
    {k : Reg → Condition → Lower Unit} {post : Unit → State → Prop}
    (next : ∀ r cond τ, Decided S E σ₀ p₀ D σ R o s c (E.world.play S.graph S.ctx.root depth D c)
      cond τ → Vacant S τ r → r.Of cls → Generates S (k r cond) τ post) :
    Generates S (do
      let branch ← prepareBranch S.ctx gen c
      let result ← allocResult S.ctx s cls
      onRegs (RegisterFile.free result)
      let toElse ← emitBranchCondition S.ctx branch
      k result toElse) σ post := by
  refine .seq (generates_prepareBranch makes w f le stage ledger) fun branch τ prepared => ?_
  -- A register is taken and given back at once, whatever is to be found for the branch.
  have choose {D' : Finset NodeId} {C : Course} (made : Made S E σ₀ p₀ D σ R (o.enter s []) D' C τ)
      (decide : ∀ τ', Reads τ τ' [] → Made S E σ₀ p₀ D σ R (o.enter s []) D' C τ' →
        Generates S (emitBranchCondition S.ctx branch) τ' fun cond τ'' =>
          Decided S E σ₀ p₀ D σ R o s c (E.world.play S.graph S.ctx.root depth D c) cond τ'' ∧
            ∀ r, Vacant S τ' r → Vacant S τ'' r) :
      Generates S (do
        let result ← allocResult S.ctx s cls
        onRegs (RegisterFile.free result)
        let toElse ← emitBranchCondition S.ctx branch
        k result toElse) τ post := by
    refine .seq (made.stage.allocResult (fun _ _ hq => by cases hq) room_idle) ?_
    rintro r τ₁ ⟨fresh, reads₁, stage₁⟩
    have used : τ₁.regs.used.contains r = true := by
      rw [stage₁.inv.regular.used_iff fresh.of.1, stage₁.inv.held fresh.of.1 Pose.held_hand]
      exact Option.some_ne_none _
    refine .seq (stage₁.free fresh.of.1 Pose.held_hand rfl) ?_
    rintro _ τ₂ ⟨reads₂, owners, stage₂⟩
    rw [Pose.hand_hand, Pose.hand_none rfl] at stage₂
    have vacant : Vacant S τ₂ r := by
      refine ⟨fresh.of.2 ▸ fresh.mem, ?_,
        reads₂.grows.touched r (stage₁.inv.regular.touched_of_used used)⟩
      rw [owners fresh.of.1, if_pos rfl]
    have reads : Reads τ τ₂ [] := reads₁.trans reads₂
    refine .seq (decide τ₂ reads (made.reads reads stage₂)) ?_
    rintro cond τ₃ ⟨decided, vacants⟩
    exact next r cond τ₃ decided (vacants r vacant) fresh.of
  cases branch with
  | test x =>
    obtain ⟨rfl, made⟩ := prepared
    exact choose made fun τ' _ made' => generates_test f made' w ty
  | fused x pred lhs rhs =>
    obtain ⟨rfl, fresh, last, single, ⟨n, hn, kind⟩, made⟩ := prepared
    have operands : n.operands = [lhs, rhs] := by rw [Node.operands, kind]; rfl
    have lt : x < depth := Nat.lt_of_lt_of_le (f.fork.operand_lt w (by simp)) le
    refine choose made fun τ' reads made' => ?_
    rw [← operands] at made'
    rw [World.play_operands w lt fresh hn (fun _ _ _ h => by rw [kind] at h; cases h)]
    exact generates_fused f made' w hn kind single fresh ((reads.uses_eq x).trans last)

end NativeExpr.Lowering
