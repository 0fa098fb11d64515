import NativeExpr.Proofs.Lowering.Meeting

/-!
# Conditionals

The code of a conditional is what the arms share, the decision, and the arms. It is noted
where the code comes apart and where it meets again.
-/
namespace NativeExpr.Lowering

open NativeExpr X64 Convention

variable {S : Setting} {E : Env} {σ₀ σ σ' τ τ' : State} {A : Moment} {p₀ p p' : Pose}
variable {R C : Course} {D : Finset NodeId} {o : Opened} {x y s c a b : NodeId}
variable {r q : Reg} {gen : NodeId → Lower Unit} {depth : Nat} {cond : Condition}
variable {l l' : Nat} {m : Machine.Config} {post : Unit → State → Prop}

theorem yields_mark {post : Mark → State → Prop} {fails : CompileError → State → Prop}
    (h : post σ.mark σ) : Yields mark σ post fails := .bind (.of_get (.of_pure h))

/-! ## Ahead of the branch -/

/-- What holds at the branch of a conditional whose lowering began in the state `σ`: what both arms
share is done, and so is the condition. -/
structure Branched (S : Setting) (E : Env) (σ₀ : State) (p₀ : Pose) (D : Finset NodeId) (σ : State)
    (R : Course) (o : Opened) (s c a b : NodeId) (depth : Nat) (cond : Condition)
    (D' : Finset NodeId) (σ' : State) : Prop where
  forking : Forking S D o s c a b
  before : Ledger S D o σ
  start : remainingUses σ.mark.tables.values = S.graph.remaining S.ctx.root D
  done : S.graph.doneAfter D (World.ahead S.graph S.ctx.root D c a b) = D'
  stage : Stage S E σ₀ p₀ D' σ'
    (R.andThen (World.visitAll S.graph (E.world.play S.graph S.ctx.root depth) D
      (World.ahead S.graph S.ctx.root D c a b)))
    (Pose.idle.setFlags (Refutes cond c))
  ledger : Ledger S D' (o.enter s [c]) σ'
  grows : Grows σ σ'
  counted : Counted S.graph ( D' \ D) σ.tally σ'.tally

theorem generates_ahead (makes : Makes S E gen depth) (w : S.graph.WellFormed)
    (f : Forking S D o s c a b) (le : s ≤ depth) (stage : Stage S E σ₀ p₀ D σ R .idle)
    (ledger : Ledger S D o σ) (ty : S.graph.tyOf c = .bool) (cls : RegClass)
    {k : Reg → Condition → Lower Unit}
    (next : ∀ r cond D' σ', Branched S E σ₀ p₀ D σ R o s c a b depth cond D' σ' →
      Vacant S σ' r → r.Of cls → Generates S (k r cond) σ' post) {shared : List NodeId}
    (hshared : sharedNodes S.graph (S.graph.remaining S.ctx.root D) a b = shared) :
    Generates S (do
      shared.forM gen
      modifyStats fun s => { s with hoisted := s.hoisted + shared.length }
      let branch ← prepareBranch S.ctx gen c
      let result ← allocResult S.ctx s cls
      onRegs (RegisterFile.free result)
      let toElse ← emitBranchCondition S.ctx branch
      k result toElse) σ post := by
  generalize hDs : S.graph.doneAfter D shared = Ds
  have ahead : World.ahead S.graph S.ctx.root D c a b = shared ++ [c] := by
    rw [World.ahead, hshared]
  have done : S.graph.doneAfter D (World.ahead S.graph S.ctx.root D c a b) =
      Ds ∪ S.graph.below c := by
    rw [ahead, Graph.doneAfter_append, hDs]
    rfl
  have notMem : s ∉ Ds := fun hm =>
    f.fork.notMem_ahead w (done ▸ Finset.mem_union_left _ hm)
  have gens : Operands S gen (Made S E σ₀ p₀ D σ R o Ds
      (World.visitAll S.graph (E.world.play S.graph S.ctx.root depth) D shared)) shared σ :=
    makes.operands w f.fork.root_lt f.fork.user (Nat.le_refl s) le stage ledger f.fork.open_ f.other
      (fun y hy => Nat.le_of_lt (f.inner y hy)) (hshared ▸ f.fork.askable w) fun _ made =>
        hDs ▸ made
  refine .seq gens.forM fun _ τ made => .bind (.of_modify ?_)
  have fs : Forking S Ds o s c a b := f.ahead made.ledger.closed notMem
  have start := made.stage.count { τ.stats with hoisted := τ.stats.hoisted + shared.length }
  refine generates_decide makes w fs le start (fs.enter (made.ledger.of_uses fun _ => rfl)) ty cls
    fun r cond σ' decided vacant hr => next r cond (Ds ∪ S.graph.below c) σ' ?_ vacant hr
  refine ⟨f, ledger, ledger.remaining_eq stage.inv, done, ?_, decided.ledger,
    (made.grows.trans (grows_record _ [] rfl)).trans decided.grows, ?_⟩
  · rw [ahead, World.visitAll_append, World.visitAll_singleton, hDs, ← Course.andThen_assoc]
    exact decided.stage
  · have le : D ⊆ Ds := hDs ▸ Graph.subset_doneAfter
    exact made.counted.trans_sdiff decided.counted le Finset.subset_union_left

namespace Branched

variable {D' : Finset NodeId} (w : S.graph.WellFormed)
variable (h : Branched S E σ₀ p₀ D σ R o s c a b depth cond D' σ')
include w h

theorem forks : Forking S D' o s c a b :=
  h.forking.ahead h.ledger.closed (h.done ▸ h.forking.fork.notMem_ahead w)

theorem apart (y : NodeId) (ha : y ∈ S.graph.below a) (hb : y ∈ S.graph.below b) : y ∈ D' :=
  h.done ▸ h.forking.fork.apart w ha hb

theorem closing_first : Closing S D' s c a b a :=
  ⟨by simp, fun _ hx hx' => h.done ▸ h.forking.fork.pending_first w hx (h.done ▸ hx')⟩

theorem closing_second : Closing S D' s c a b b :=
  ⟨by simp, fun _ hx hx' => h.done ▸ h.forking.fork.pending_second w hx (h.done ▸ hx')⟩

theorem cond_mem : c ∈ D' := h.done ▸ h.forking.fork.cond_mem_ahead w

theorem notMem_arms : s ∉ D' ∪ S.graph.below a ∪ S.graph.below b :=
  h.done ▸ h.forking.fork.notMem_arms w

theorem insert_arms : insert s (D' ∪ S.graph.below a ∪ S.graph.below b) = D ∪ S.graph.below s :=
  h.done ▸ h.forking.fork.insert_ahead w

omit w in
/-- What was found ahead of the branch has its code when the branch is noted. -/
theorem parted {n : Node} (hn : S.graph.node? s = some n) (kind : n.kind = .select c a b) :
    Parted S.graph S.ctx.root D s c a b σ.mark σ'.mark σ'.journal where
  node := ⟨n, hn, kind⟩
  fork := h.forking.fork
  start := h.start
  branch := h.done ▸ h.ledger.remaining_eq h.stage.inv
  noted := rfl
  behind _ _ _ forked := (h.stage.inv.clean.branches forked).lt_size
  lowered _ := h.done ▸ mem_loweredBetween h.grows.journal rfl rfl h.counted rfl rfl

theorem counted_arms {t : Tally}
    (arms : Counted S.graph ((D' ∪ S.graph.below a ∪ S.graph.below b) \ D') σ'.tally t) :
    Counted S.graph (((D ∪ S.graph.below s) \ D).erase s) σ.tally t := by
  have subset : D ⊆ D' := h.done ▸ Graph.subset_doneAfter
  have more : D' ⊆ D' ∪ S.graph.below a ∪ S.graph.below b := by
    rw [Finset.union_assoc]
    exact Finset.subset_union_left
  have sets : ((D ∪ S.graph.below s) \ D).erase s =
      (D' ∪ S.graph.below a ∪ S.graph.below b) \ D := by
    rw [← h.insert_arms w, Finset.insert_sdiff_of_notMem _ h.forking.fork.open_,
      Finset.erase_insert fun hm => h.notMem_arms w (Finset.mem_sdiff.1 hm).1]
  exact sets ▸ h.counted.trans_sdiff arms subset more

end Branched

/-! ## Behind the branch -/

theorem generates_legs (makes : Makes S E gen depth) (w : S.graph.WellFormed)
    (f : Forking S D o s c a b) (le : s ≤ depth)
    (decided : Stage S E σ₀ p₀ D σ R (Pose.idle.setFlags (Refutes cond c))) {start : Mark}
    (forked : Note.Sound S.graph S.ctx.root σ.journal (.forked s start σ.mark))
    (ledger : Ledger S D (o.enter s [c]) σ) (vacant : Vacant S σ r)
    (hr : r.Of (S.graph.tyOf a).regClass) (same : S.graph.tyOf b = S.graph.tyOf a)
    (closingA : Closing S D s c a b a) (closingB : Closing S D s c a b b)
    (apart : ∀ y ∈ S.graph.below a, y ∈ S.graph.below b → y ∈ D) {k : Mark → Mark → Lower Unit}
    (next : ∀ σb τa σe τb σj σm, Legs S E D σ start o s c a b r depth cond σb τa σe τb σj σm →
      Generates S (k τa.mark τb.mark) σm post) :
    Generates S (do
      let elseLabel ← emit Assembler.createLabel
      let joinLabel ← emit Assembler.createLabel
      emit (Assembler.jumpIf cond elseLabel)
      note (.forked s start σ.mark)
      lowerArm gen a r (S.graph.tyOf a) σ.values
      let thenEnd ← mark
      emit (Assembler.jump joinLabel)
      modify fun s => { s with regs := s.regs.restore σ.regs.snapshot, values := σ.values }
      emit (Assembler.bindLabel elseLabel)
      lowerArm gen b r (S.graph.tyOf a) σ.values
      let elseEnd ← mark
      emit (Assembler.bindLabel joinLabel)
      (List.range σ.values.size).forM (mergeUses σ.values thenEnd.tables.values.useCounts)
      k thenEnd elseEnd) σ post := by
  have idle : Inv S D σ .idle := decided.inv.congr rfl rfl fun hk => by cases hk
  refine generates_split decided.inv fun asm₁ l l' split => ?_
  have split : Split σ (σ.fork s start asm₁) cond l l' := split.fork
  have vacantB : Vacant S (σ.fork s start asm₁) r := ⟨vacant.mem, vacant.free, vacant.touched⟩
  refine .bind (.of_modify (.seq (generates_lowerArm makes w f le closingA
    (split.inv idle forked) (ledger.of_uses fun _ => rfl) vacantB hr) fun _ τa first => ?_))
  refine .bind (yields_mark ?_)
  have precedes : Precedes σ τa := split.precedes.trans first.stage.grows.precedes
  have between := split.turned first.stage.grows
  refine generates_turn first.stage.inv between split.other _ _ fun asm₂ turned => ?_
  have turned : Turned τa (secondStart σ τa asm₂) l l' := turned
  refine .seq (same ▸ generates_lowerArm makes w f le closingB
    (turned.inv idle first.stage.inv precedes) (ledger.of_uses fun _ => rfl)
    (vacant.again idle first.stage.inv precedes) (same ▸ hr)) fun _ τb second => ?_
  have ended := turned.ended precedes between second.stage.grows
  refine .bind (yields_mark (.seq (generates_bind second.stage.inv ended) ?_))
  rintro _ _ ⟨asm₃, rfl, bound⟩
  have sum (x : NodeId) : σ.uses x ≤ τa.uses x + τb.uses x :=
    (f.merge apart w ledger first.ledger second.ledger x).1
  have size : τb.values.size = σ.values.size := second.stage.inv.size.trans idle.size.symm
  refine .seq (Inv.mergeAll (second.stage.inv.setAsm bound.residue bound.code) size rfl
    (fun x => ?_) fun x => ?_) fun _ σm merged => ?_
  · rw [ValueTable.getD_useCounts]
    exact first.stage.grows.uses_le x
  · rw [ValueTable.getD_useCounts]
    exact sum x
  · exact next _ _ _ _ _ σm ⟨⟨asm₁, rfl⟩, ⟨asm₂, rfl⟩, ⟨asm₃, rfl⟩,
      ⟨l, l', split, turned, bound⟩, sum, first, second, merged⟩

/-- Where the arms have met the conditional gets its register. -/
theorem Branched.generates_join {D' : Finset NodeId} {σ₁ σb τa σe τb σj σm : State} {start : Mark}
    (h : Branched S E σ₀ p₀ D σ R o s c a b depth cond D' σ₁)
    (legs : Legs S E D' σ₁ start o s c a b r depth cond σb τa σe τb σj σm)
    (w : S.graph.WellFormed) {n : Node} (hn : S.graph.node? s = some n)
    (kind : n.kind = .select c a b) (le : s ≤ depth) (hr : r.Of (S.graph.tyOf a).regClass)
    (same : S.graph.tyOf b = S.graph.tyOf a) (type : S.graph.tyOf s = S.graph.tyOf a) :
    Generates S (do
      modifyStats fun s => { s with conditionals := s.conditionals + 1 }
      note (.joined s ⟨r, σ₁.mark, τa.mark, τb.mark, ← mark⟩)
      define s r) σm fun _ σ' => Lowered S E σ₀ p₀ D σ R o s n depth σ' := by
  have fork := h.forking.fork
  have f := h.forks w
  have apart := h.apart w
  have closingA := h.closing_first w
  have outside := h.notMem_arms w
  have uses (x : NodeId) : σm.uses x + o.reads.count x + [c, a, b].count x =
      S.graph.pending S.ctx.root (D' ∪ S.graph.below a ∪ S.graph.below b) x := by
    rw [(legs.uses x).2.2.2.2]
    exact (f.merge apart w (h.ledger.of_uses fun _ => rfl) legs.first.ledger
      legs.second.ledger x).2
  have live : 0 < σm.uses s := by
    have closed := (h.ledger.closed.union (w.closed_below (fork.first.lt_size w))).union
      (w.closed_below (fork.second.lt_size w))
    have pending := w.pending_pos fork.root_lt closed fork.user outside
    have all := uses s
    rw [List.count_eq_zero_of_not_mem fun hm => fork.open_ (h.before.reads_done s hm),
      List.count_eq_zero_of_not_mem fun hm => Nat.lt_irrefl s (fork.operand_lt w hm)] at all
    omega
  have met : Note.Sound S.graph S.ctx.root σm.journal (.joined s (meeting r σ₁ τa τb σm)) :=
    ⟨legs.agrees closingA hr.1, D', c, a, b, legs.rejoined hn kind f.fork h.ledger h.stage.inv
      closingA (h.closing_second w) apart⟩
  have joined := legs.stage w h.stage f.fork le (h.cond_mem w) same closingA
    (h.ledger.remaining_eq h.stage.inv) met
    { σm.stats with conditionals := σm.stats.conditionals + 1 }
  refine .bind (.of_modify (.bind (yields_mark (.bind (.of_modify ?_)))))
  refine (joined.define (r := r) outside live (type ▸ hr) Pose.held_hand Pose.known_learn
    (f := fun A o => o = .ok (A.find s (A.word (World.arm A c a b)))) fun A word picked => ?_).mono
    ?_ fun _ _ he => he
  · rw [type, show (S.graph.tyOf a).view word = _ from picked]
  rintro _ σ' ⟨reads, stage'⟩
  have idle : (((Pose.idle.hand r (some .temp)).learn r (Picked S.graph c a b)).hand r
      none).forget = Pose.idle := forget_temporary rfl rfl rfl
  rw [h.insert_arms w, idle] at stage'
  constructor
  case stage =>
    refine stage'.mono fun m o' ho => ?_
    simp only [Course.andThen_assoc] at ho
    rw [World.play_select fork.open_ hn kind, World.choose, h.done]
    refine Course.andThen_mono (fun _ _ h => h) (fun m₁ o₁ h₁ => ?_) ho
    exact Course.andThen_mono (fun _ _ h => h)
      (fun m₂ o₂ h₂ => World.choose_of_later (h.cond_mem w) h₂) h₁
  case ledger =>
    refine h.before.below w fork.lt_size h.forking.inner fun x => ?_
    have own : σ'.uses x = σm.uses x := reads.uses_eq x
    have more := S.graph.pending_insert (x := x) fork.user outside
    rw [own, ← h.insert_arms w]
    rw [← uses x, h.forking.edges] at more
    omega
  case grows =>
    exact (h.grows.trans legs.grows).trans ((grows_record _ [.joined s _] rfl).trans reads.grows)
  case met => exact fun _ _ _ _ => ⟨_, reads.grows.journal.subset (List.mem_cons_self ..)⟩
  case counted =>
    obtain ⟨t, arms, tally⟩ := legs.counted apart
    refine ⟨t, h.counted_arms w arms, ?_⟩
    rw [reads.tally, Tally.turn, kind]
    exact congrArg (fun t : Tally => { t with conditionals := t.conditionals + 1 }) tally

/-! ## Conditionals -/

theorem generates_lowerSelect (makes : Makes S E gen depth) (w : S.graph.WellFormed)
    (hr : S.ctx.root < S.graph.size) (stage : Stage S E σ₀ p₀ D σ R .idle)
    (ledger : Ledger S D o σ) {n : Node} (hn : S.graph.node? s = some n)
    (kind : n.kind = .select c a b) (below : s ∈ S.graph.below S.ctx.root) (fresh : s ∉ D)
    (le : s ≤ depth) (inner : ∀ y ∈ o.nodes, s < y) :
    Generates S (lowerSelect S.ctx gen s c a b n.ty) σ fun _ σ' =>
      Lowered S E σ₀ p₀ D σ R o s n depth σ' := by
  have operands : S.graph.operandsOf s = [c, a, b] := by
    rw [Graph.operandsOf_eq hn, Node.operands, kind]
    rfl
  have types : S.graph.tyOf c = .bool ∧ S.graph.tyOf a = n.ty ∧ S.graph.tyOf b = n.ty := by
    have typed := w.typed hn
    obtain ⟨k, ty⟩ := n
    obtain rfl : k = _ := kind
    exact ⟨typed.1.tyOf_eq, typed.2.1.tyOf_eq, typed.2.2.tyOf_eq⟩
  obtain ⟨tyC, tyA, tyB⟩ := types
  have same := tyB.trans tyA.symm
  have f : Forking S D o s c a b :=
    ⟨⟨hr, ledger.closed, below, fresh, operands⟩, inner, ledger.reads_le⟩
  unfold lowerSelect
  refine .bind (yields_mark ?_)
  rw [show remainingUses σ.mark.tables.values = _ from ledger.remaining_eq stage.inv, ← tyA]
  refine generates_ahead makes w f le stage ledger tyC _ (fun r cond D' σ₁ h vacant cls => ?_) rfl
  refine .bind (yields_mark ?_)
  refine generates_legs makes w (h.forks w) le h.stage ⟨D, c, a, b, h.parted hn kind⟩ h.ledger
    vacant cls same (h.closing_first w) (h.closing_second w) (h.apart w)
    fun σb τa σe τb σj σm legs => ?_
  exact h.generates_join legs w hn kind le cls same
    ((Graph.hasType_of_node? hn).tyOf_eq.trans tyA.symm)

end NativeExpr.Lowering
