import NativeExpr.Lowering.Conditional
import NativeExpr.Proofs.Lowering.Ledger

/-!
# The code of an arm

An arm leaves its result in the register that both arms agreed on. What is still to be
read then was there before the branch, and the arm can only have moved it from a
register to its slot. So every such register is free at the end of the arm, and the
value is brought back to it.
-/
namespace NativeExpr.Lowering

open NativeExpr X64 Convention

variable {S : Setting} {E : Env} {σ₀ σ σ' τ τ' : State} {A : Moment} {p₀ p p' : Pose}
variable {R C : Course} {D : Finset NodeId} {o : Opened} {x y s c a b arm : NodeId}
variable {r q : Reg} {rest : List NodeId} {gen : NodeId → Lower Unit} {depth : Nat}

/-! ## Bringing a value back -/

/-- A value in its slot gets back the register that it had at the start. -/
theorem Stage.recover (h : Stage S E σ₀ p₀ D σ R p) {offset : Int}
    (placed : Placed σ x (.stack offset)) (was : σ₀.place x = some (.register r))
    (hr : r.Of (S.graph.tyOf x).regClass) (held : p.held r = some (.value x))
    (known : p.known r = some (Reading S.graph x)) :
    Generates S (setStorage x (.register r)) σ fun _ σ' =>
      Updated σ σ' x (some (.register r)) (σ.slot x) (σ.uses x) ∧ σ'.tally = σ.tally ∧
        Stage S E σ₀ p₀ D σ' R (p.hand r none) := by
  have updated := updated_withPlace placed.live (.register r) σ.regs
  have live := updated.uses_same
  have inv : Inv S D (σ.withPlace x (.register r) σ.regs) (p.hand r none) := by
    have housed : Housed S σ p x (.register r) σ.regs (p.hand r none) :=
      h.inv.housed_register hr held (h.inv.handed_self hr.1 held) rfl rfl
    have settled := h.inv.settle (fun q hq => by rw [placed.place] at hq; cases hq) placed.live
      housed h.inv.knownValid
    have done : x ∈ D := Classical.byContradiction fun hD => by
      have := h.inv.notDone hD
      rw [placed.place] at this
      cases this
    rwa [Finset.insert_eq_of_mem done] at settled
  -- The value is back where it was at the start, so that nothing has moved since then.
  have grows : Grows σ₀ (σ.withPlace x (.register r) σ.regs) := by
    refine { h.grows with
      uses_le := fun y => live y ▸ h.grows.uses_le y
      moved := fun y hy hp => ?_
      reads := fun y => (reads_of_eq live rfl y).trans (h.grows.reads y) }
    by_cases he : y = x
    · rw [he]
      exact .inl (by rw [updated.place_eq, if_pos rfl, was])
    · rw [live] at hy
      have place : (σ.withPlace x (.register r) σ.regs).place y = σ.place y := by
        rw [updated.place_eq, if_neg he]
      rw [Moved, place]
      exact h.grows.moved y hy hp
  have same : Precedes σ (σ.withPlace x (.register r) σ.regs) :=
    ⟨⟨[], .refl⟩, Nat.le_refl _, id, id, fun _ hq => hq, List.suffix_rfl⟩
  refine yields_setStorage ⟨updated, rfl, inv, grows, fun sound within A m at_ hm => ?_⟩
  obtain ⟨o, ho, ends⟩ := h.run sound (within.before h.inv.begun same) A m at_ hm
  refine ⟨o, ho, ?_⟩
  cases o with
  | error events => exact ends
  | ok A' =>
    refine Machine.Site.Leads.mono ends fun m' hm' => ?_
    refine ⟨fun {y pl} hy hpl => ?_, hm'.known, hm'.sp, hm'.bp, hm'.heap, hm'.kept, hm'.saved,
      hm'.log, hm'.flags⟩
    rw [live] at hy
    rw [updated.place_eq] at hpl
    split at hpl
    · next he =>
      cases hpl
      have found := hm'.values placed.live placed.place
      have word : (S.graph.tyOf x).view (m'.state.named r) = A'.word x := hm'.known known
      rw [he, found, content, word, Moment.word, found]
      rfl
    · exact hm'.values hy hpl

/-- The values in `rest` may still be in their slots; the others are where they were at
the start. -/
structure Returning (S : Setting) (E : Env) (σ : State) (D : Finset NodeId) (C : Course)
    (arm : NodeId) (r : Reg) (σ₁ : State) (rest : List NodeId) (τ : State) : Prop where
  stage : ∃ p, Stage S E σ .idle D τ C p ∧ p.held = (Pose.idle.hand r (some .temp)).held ∧
    p.locks = (fun _ => 0) ∧ p.lowered = 0 ∧ p.known r = some (Reading S.graph arm)
  uses : ∀ x, τ.uses x = σ₁.uses x
  tally : τ.tally = σ₁.tally
  unplaced : ∀ x, 0 < τ.uses x → σ.place x = none → τ.place x = none
  back : ∀ x, 0 < τ.uses x → x ∉ rest → τ.place x = σ.place x

/-- At first no value is brought back. What only the arm found is not to be read behind it. -/
theorem Returning.start {D' : Finset NodeId} (inv : Inv S D σ .idle)
    (stage : Stage S E σ .idle D' τ C p) (held : p.held = (Pose.idle.hand r (some .temp)).held)
    (locks : p.locks = fun _ => 0) (lowered : p.lowered = 0)
    (known : p.known r = some (Reading S.graph arm))
    (dead : ∀ x ∈ D', x ∉ D → τ.uses x = 0) :
    Returning S E σ D' C arm r τ (List.range σ.values.size) τ := by
  refine ⟨⟨p, stage, held, locks, lowered, known⟩, fun _ => rfl, rfl, fun x hx none => ?_,
    fun x hx hm => ?_⟩
  · have hD : x ∉ D := fun hD =>
      inv.done hD (Nat.lt_of_lt_of_le hx (stage.grows.uses_le x)) none
    exact stage.inv.notDone fun hm => Nat.ne_of_gt hx (dead x hm hD)
  · rw [List.mem_range, Nat.not_lt, inv.size, ← stage.inv.size] at hm
    exact absurd (uses_lt_size hx) (Nat.not_lt_of_le hm)

theorem Stage.reload (h : Stage S E σ₀ p₀ D σ R p) {offset : Int}
    (placed : Placed σ x (.stack offset)) (hr : r.Of (S.graph.tyOf x).regClass)
    (held : p.held r = some (.value x)) {k : Lower Unit} {post : Unit → State → Prop}
    (next : ∀ σ', Coded σ σ' → Stage S E σ₀ p₀ D σ' R (p.learn r (Reading S.graph x)) →
      Generates S k σ' post) :
    Generates S (match r.regClass with
      | .float => do
        emit (Assembler.movFloat .double r (.mem (.frame offset)))
        k
      | .general => do
        emit (Assembler.load none r (.frame offset))
        k) σ post := by
  have writable := h.inv.writable hr.1 held
  have ready : (Mem.frame offset).Ready := h.inv.ready placed
  have word (sound : E.Sound) (within : Within S E σ) (A : Moment) (m : Machine.Config)
      (hm : Matches S.graph E A σ p m) :
      Reading S.graph x A (m.state.operand (.mem (.frame offset))) := by
    rw [Reading, ← hm.word_eq placed, ← hm.operand_eq h.inv sound within placed]
    rfl
  cases hc : r.regClass with
  | float =>
    have performs := Machine.performs_movFloat .double (o := .mem (.frame offset)) ⟨hr.1, hc⟩ ready
    refine .seq (h.assign writable performs word) ?_
    exact fun _ σ' next' => next σ' next'.1 next'.2
  | general =>
    refine .seq (h.assign writable (Machine.performs_load ⟨hr.1, hc⟩ ready) word) ?_
    exact fun _ σ' next' => next σ' next'.1 next'.2

/-- A register that a value had at the start is free when the value is in its slot. -/
theorem Returning.free {σ₁ : State} (h : Returning S E σ D C arm r σ₁ rest τ) {D₁ : Finset NodeId}
    (inv : Inv S D₁ σ .idle) (vacant : Vacant S σ r) {offset : Int}
    (was : σ.place x = some (.register q)) (now : Placed τ x (.stack offset)) :
    q.Of (S.graph.tyOf x).regClass ∧ q ≠ r ∧ τ.regs.owner q = none ∧
      q ∈ budgeted S.budget q.regClass := by
  obtain ⟨p, stage, held, -⟩ := h.stage
  have before : 0 < σ.uses x := Nat.lt_of_lt_of_le now.live (stage.grows.uses_le x)
  have own : σ.regs.owner q = some (.value x) := inv.owner_of_placed ⟨was, before⟩
  have of := inv.register was before
  have other : q ≠ r := by
    rintro rfl
    rw [vacant.free] at own
    cases own
  have unheld : p.held q = none := by
    rw [held]
    exact Pose.held_hand_of_ne other
  refine ⟨of, other, ?_, inv.regular.owned_mem of.1 (own ▸ Option.some_ne_none _)⟩
  cases hq : τ.regs.owner q with
  | none => rfl
  | some owner =>
    cases owner with
    | temp =>
      rw [stage.inv.temp of.1 hq] at unheld
      cases unheld
    | value y =>
      obtain ⟨place, live⟩ := (stage.inv.owned of.1 unheld).1 hq
      by_cases none : σ.place y = none
      · rw [h.unplaced y live none] at place
        cases place
      rcases stage.grows.moved y live none with same | ⟨_, _, -, moved⟩
      · have hy : Placed σ y (.register q) :=
          ⟨same ▸ place, Nat.lt_of_lt_of_le live (stage.grows.uses_le y)⟩
        rw [inv.placed_inj hy ⟨was, before⟩, now.place] at place
        cases place
      · rw [place] at moved
        cases moved

theorem Returning.reload {σ₁ : State} {D₁ : Finset NodeId} (inv : Inv S D₁ σ .idle)
    (vacant : Vacant S σ r) (h : Returning S E σ D C arm r σ₁ (x :: rest) τ) :
    Generates S (reload (σ.values.entry x) x) τ fun _ τ' =>
      Returning S E σ D C arm r σ₁ rest τ' := by
  obtain ⟨p, stage, held, locks, lowered, known⟩ := h.stage
  -- Nothing is to be done unless the value was moved to its slot and is still to be read.
  have stay (same : 0 < τ.uses x → τ.place x = σ.place x) :
      Returning S E σ D C arm r σ₁ rest τ := by
    refine ⟨h.stage, h.uses, h.tally, h.unplaced, fun y hy hm => ?_⟩
    by_cases he : y = x
    · exact he ▸ same (he ▸ hy)
    · exact h.back y hy fun hn => (List.mem_cons.1 hn).elim he hm
  unfold Lowering.reload
  refine .bind (yields_assignment ?_)
  rw [register?_eq]
  split
  · next q offset hq here =>
    have was : σ.place x = some (.register q) := by
      split at hq
      · next hp => cases hq; exact hp
      · cases hq
    have here : τ.place x = some (.stack offset) := here
    split
    · next dead => exact .of_pure (stay fun live => absurd dead (Nat.ne_of_gt live))
    · next live =>
      have now : Placed τ x (.stack offset) := ⟨here, Nat.pos_of_ne_zero live⟩
      obtain ⟨of, other, free, mem⟩ := h.free inv vacant was now
      refine .seq (stage.take of.1 free (fun _ => mem) (.value x)) ?_
      rintro _ τ₁ ⟨reads₁, -, values₁, stage₁⟩
      have place₁ (y : NodeId) : τ₁.place y = τ.place y := by rw [State.place, values₁]; rfl
      have now₁ : Placed τ₁ x (.stack offset) :=
        ⟨(place₁ x).trans here, reads₁.uses_eq x ▸ now.live⟩
      refine stage₁.reload now₁ of Pose.held_hand fun τ₂ coded₂ stage₂ => ?_
      have now₂ : Placed τ₂ x (.stack offset) :=
        ⟨(coded₂.place_eq x).trans now₁.place, coded₂.reads.uses_eq x ▸ now₁.live⟩
      refine (stage₂.recover now₂ was of Pose.held_hand Pose.known_learn).mono ?_
        fun _ _ he => he
      rintro _ τ₃ ⟨updated, tally, stage₃⟩
      have unheld : p.held q = none := by
        rw [held]
        exact Pose.held_hand_of_ne other
      have place (y : NodeId) : τ₃.place y = if y = x then some (.register q) else τ.place y := by
        rw [updated.place_eq, coded₂.place_eq, place₁]
      have uses (y : NodeId) : τ₃.uses y = τ.uses y := by
        rw [updated.uses_same, coded₂.reads.uses_eq, reads₁.uses_eq]
      refine ⟨⟨_, stage₃, ?_, locks, lowered, ?_⟩, fun y => (uses y).trans (h.uses y), ?_, ?_, ?_⟩
      · rw [← held]
        show (((p.hand q (some (.value x))).hand q none).held : Reg → Option Owner) = p.held
        rw [Pose.hand_hand, Pose.hand_none unheld]
      · exact (Pose.known_learn_of_ne other.symm).trans known
      · rw [tally, coded₂.reads.tally, reads₁.tally, h.tally]
      · intro y hy none
        rw [uses] at hy
        rw [place, if_neg, h.unplaced y hy none]
        rintro rfl
        rw [was] at none
        cases none
      · intro y hy hm
        rw [uses] at hy
        rw [place]
        split
        · next he => rw [he, was]
        · next he => exact h.back y hy fun hn => (List.mem_cons.1 hn).elim he hm
  · next other =>
    refine .of_pure (stay fun live => ?_)
    by_cases none : σ.place x = none
    · rw [none, h.unplaced x live none]
    rcases stage.grows.moved x live none with same | ⟨q, offset, was, now⟩
    · exact same
    · exact (other q offset (by rw [was]) now).elim

theorem Returning.reloads {σ₁ : State} {D₁ : Finset NodeId} (inv : Inv S D₁ σ .idle)
    (vacant : Vacant S σ r) (h : Returning S E σ D C arm r σ₁ (List.range σ.values.size) τ) :
    Generates S ((List.range σ.values.size).forM fun x => Lowering.reload (σ.values.entry x) x) τ
      fun _ τ' => Returning S E σ D C arm r σ₁ [] τ' :=
  Yields.forM (fun rest τ => Returning S E σ D C arm r σ₁ rest τ)
    (fun _ _ _ h => h.reload inv vacant) _ τ h

/-! ## The whole arm -/

/-- The end of an arm: its result is in a register, every other value that is to be read is
where it was at the start. -/
structure Ran (S : Setting) (E : Env) (D : Finset NodeId) (σ : State) (o : Opened)
    (s c arm : NodeId) (r : Reg) (C : Course) (τ : State) : Prop where
  stage : Stage S E σ .idle (D ∪ S.graph.below arm) τ C
    ((Pose.idle.hand r (some .temp)).learn r (Reading S.graph arm))
  ledger : Ledger S (D ∪ S.graph.below arm) (o.enter s [c, arm]) τ
  back : ∀ x, 0 < τ.uses x → τ.place x = σ.place x
  counted : Counted S.graph ((D ∪ S.graph.below arm) \ D) σ.tally τ.tally

/-- After an arm nothing of what it found but its result is to be read. -/
structure Closing (S : Setting) (D : Finset NodeId) (s c a b arm : NodeId) : Prop where
  mem : arm ∈ [a, b]
  pending : ∀ x ∈ S.graph.below arm, x ∉ D →
    S.graph.pending S.ctx.root (D ∪ S.graph.below arm) x = if x = arm then 1 else 0

theorem Closing.dead (h : Closing S D s c a b arm)
    (ledger : Ledger S (D ∪ S.graph.below arm) (o.enter s [c, arm]) τ)
    (hx : x ∈ S.graph.below arm) (hD : x ∉ D) : τ.uses x = 0 := by
  have uses := ledger.uses x
  rw [h.pending x hx hD] at uses
  by_cases he : x = arm
  · simp only [he, Opened.enter, List.count_append, List.count_cons, beq_self_eq_true, if_true]
      at uses ⊢
    omega
  · rw [if_neg he] at uses
    omega

theorem generates_lowerArm (makes : Makes S E gen depth) (w : S.graph.WellFormed)
    (f : Forking S D o s c a b) (le : s ≤ depth) (closing : Closing S D s c a b arm)
    (inv : Inv S D σ .idle) (ledger : Ledger S D (o.enter s [c]) σ) (vacant : Vacant S σ r)
    (hr : r.Of (S.graph.tyOf arm).regClass) :
    Generates S (lowerArm gen arm r (S.graph.tyOf arm) σ.values) σ fun _ τ =>
      Ran S E D σ o s c arm r (E.world.play S.graph S.ctx.root depth D arm) τ := by
  have operand : arm ∈ [c, a, b] := List.mem_cons_of_mem c closing.mem
  have lt : arm < s := f.fork.operand_lt w operand
  have size : arm < S.graph.size := Nat.lt_trans lt f.fork.lt_size
  have le_operands (y : NodeId) : ([c] ++ [arm]).count y ≤ [c, a, b].count y := by
    refine List.Sublist.count_le y (List.Sublist.cons_cons c ?_)
    exact List.singleton_sublist.2 closing.mem
  have further : [c].count arm < [c, a, b].count arm := by
    have := le_operands arm
    rw [List.count_append, List.count_singleton_self] at this
    exact this
  have made := makes (.refl inv) ledger (f.fork.mem_below w operand) (Nat.lt_of_lt_of_le lt le)
    (f.operand_lt w operand) (f.live ledger further)
  refine .seq made fun _ τ₁ made₁ => ?_
  have stage₁ := made₁.stage
  rw [Course.stay_andThen] at stage₁
  have done : arm ∈ D ∪ S.graph.below arm := Finset.mem_union_right _ (w.self_mem_below size)
  have live : 0 < τ₁.uses arm := f.live made₁.ledger further
  obtain ⟨pl, placed⟩ := stage₁.inv.placed done live
  -- Of the nodes that the arm found only its result can be read.
  have single (x : NodeId) (hx : x ∈ D ∪ S.graph.below arm) (hD : x ∉ D) (other : x ≠ arm) :
      τ₁.uses x = 0 := by
    have below := (Finset.mem_union.1 hx).resolve_left hD
    have uses := made₁.ledger.uses x
    rw [closing.pending x below hD, if_neg other] at uses
    omega
  have writable (other : pl ≠ .register r) : Writable τ₁ r := by
    refine ⟨vacant.valid, (vacant.writable inv).special, fun x hx hu => ?_, fun _ =>
      made₁.grows.touched r vacant.touched⟩
    have hD : x ∉ D := inv.notMem_of_free vacant.free made₁.grows ⟨hx, hu⟩
    by_cases he : x = arm
    · rw [he, placed.place] at hx
      exact other (Option.some.inj hx)
    · refine Nat.ne_of_gt hu (single x (Classical.byContradiction fun hD' => ?_) hD he)
      rw [stage₁.inv.notDone hD'] at hx
      cases hx
  refine .seq (placed.operand (S := S)) ?_
  rintro _ _ ⟨rfl, rfl⟩
  refine .seq (stage₁.copyTo placed hr writable) ?_
  rintro _ τ₂ ⟨coded₂, stage₂⟩
  refine .seq (stage₂.consume (coded₂.reads.uses_eq arm ▸ live) (.of_unlocked rfl)) ?_
  rintro _ τ₃ ⟨reads₃, stage₃⟩
  have reads : Reads τ₁ τ₃ [arm] := coded₂.reads.trans reads₃
  have ledger₃ : Ledger S (D ∪ S.graph.below arm) (o.enter s ([c] ++ [arm])) τ₃ :=
    f.read [c] made₁.ledger done le_operands reads.uses
  have dead (x : NodeId) (hx : x ∈ D ∪ S.graph.below arm) (hD : x ∉ D) : τ₃.uses x = 0 :=
    closing.dead ledger₃ ((Finset.mem_union.1 hx).resolve_left hD) hD
  have grows₃ : Grows σ τ₃ := made₁.grows.trans reads.grows
  have vacant₃ : Vacant S τ₃ r := vacant.after inv stage₃.inv rfl grows₃ dead
  refine .seq (stage₃.take vacant.valid vacant₃.free (fun _ => vacant.mem) .temp) ?_
  rintro _ τ₄ ⟨reads₄, -, -, stage₄⟩
  have uses₄ := reads₄.uses_eq
  have returning := Returning.start inv stage₄ rfl rfl rfl Pose.known_learn
    fun x hx hD => (uses₄ x).trans (dead x hx hD)
  refine (returning.reloads inv vacant).mono ?_ fun _ _ he => he
  rintro _ τ₅ ⟨⟨p, stage₅, held, locks, lowered, known⟩, uses₅, tally₅, -, back₅⟩
  refine ⟨stage₅.relax _ held.symm locks.symm lowered.symm (fun q P hk => ?_) fun _ _ _ => trivial,
    ledger₃.of_uses fun x => (uses₅ x).trans (uses₄ x), fun x hx => back₅ x hx (by simp), ?_⟩
  · by_cases he : q = r
    · rw [he] at hk ⊢
      rw [known, ← hk, Pose.known_learn]
    · rw [Pose.known_learn_of_ne he] at hk
      cases hk
  · rw [tally₅, reads₄.tally, reads.tally]
    exact made₁.counted

end NativeExpr.Lowering
