import NativeExpr.Proofs.Lowering.Legs

/-!
# The way through an arm

A machine at the branch of a conditional runs one of the arms and comes to where they meet. What
is still to be read there was in its place on the way, so the branch is as it has to be.
-/
namespace NativeExpr.Lowering

open NativeExpr X64

variable {S : Setting} {E : Env} {σ₀ σ σ' τ : State} {A A' : Moment} {p₀ p p' : Pose} {R : Course}
variable {D : Finset NodeId} {o : Opened} {x s c a b arm : NodeId} {r : Reg} {depth : Nat}
variable {cond : Condition} {start : Mark} {m m₀ m₁ : Machine.Config} {mt : Meeting}
variable {out : Except (List Event) Moment}

/-! ## Through one arm -/

abbrev Pose.met (g : Graph) (c a b : NodeId) (r : Reg) : Pose :=
  (Pose.idle.hand r (some .temp)).learn r (Picked g c a b)

/-- What becomes of a machine at the offset `p` that takes an arm with its end in `τ`, where the
arms meet in `σ'`. -/
def Takes (S : Setting) (E : Env) (mt : Meeting) (A : Moment) (arm : NodeId) (p : Nat)
    (τ σ' : State) (p' : Pose) (m₀ : Machine.Config) : Except (List Event) Moment → Prop
  | .error events => E.site.Traps p σ'.offset m₀ fun m =>
      Logged E.site.host E.noted m.entered events
  | .ok A' => E.site.Leads p τ.offset m₀ fun m₁ =>
      mt.Keeps S.graph A A' arm m₁.state ∧ E.site.Leads τ.offset σ'.offset m₁ fun m₂ =>
        mt.Keeps S.graph A A' arm m₂.state ∧ Matches S.graph E A' σ' p' m₂

theorem Matches.holds_mark {g : Graph} (hm : Matches g E A σ p m) :
    σ.mark.Holds g E.noted E.site.host A m :=
  ⟨fun used stored => by rw [← content_eq hm.bp]; exact hm.values used stored, hm.log⟩

theorem Takes.runs {k : Nat} (h : Takes S E mt A arm k τ σ' p' m₀ out)
    (one : Machine.step E.site.host E.site.code m = .ok m₀)
    (after : mt.after = σ'.mark) :
    mt.Runs S.graph E.noted E.site.host E.site.code E.site.start A arm τ.mark m out := by
  cases out with
  | error events =>
    obtain ⟨n, c₁, walk, -, -, stuck, log⟩ := h
    exact ⟨_, c₁, .step one walk.steps, stuck, log⟩
  | ok A' =>
    obtain ⟨n₁, c₁, walk₁, -, at₁, keeps₁, n₂, c₂, walk₂, -, at₂, keeps₂, hm⟩ := h
    exact ⟨_, c₁, _, c₂, .step one walk₁.steps, at₁, keeps₁, walk₂.steps, after ▸ at₂, keeps₂,
      after ▸ hm.holds_mark⟩

theorem Takes.ends {k : Nat} (h : Takes S E mt A arm k τ σ' p' m₀ out)
    (one : Machine.step E.site.host E.site.code m = .ok m₀) (minds : E.site.Minds m)
    (ahead : σ.offset < k) (at_ : E.site.At k m₀) : Ends S E σ σ' p' m out := by
  have first : E.site.Leads σ.offset k m (· = m₀) :=
    ⟨1, m₀, .step minds one .refl, by omega, at_, rfl⟩
  cases out with
  | error events => exact first.traps fun _ _ same => same ▸ h
  | ok A' =>
    exact first.trans fun _ _ same => same ▸ Machine.Site.Leads.trans h fun _ _ rest =>
      rest.2.mono fun _ hm => hm.2

/-! ## Through the arms of a conditional -/

/-- Where the arms of a conditional meet, by the states at its branch, at the ends of the arms and
behind them. -/
def meeting (r : Reg) (σ τa τb σm : State) : Meeting := ⟨r, σ.mark, τa.mark, τb.mark, σm.mark⟩

/-- The state where the arms have met, which is noted. -/
def State.join (σ : State) (s : NodeId) (mt : Meeting) (stats : CodeStats) : State :=
  { σ with stats, journal := .joined s mt :: σ.journal }

theorem Ends.join {stats : CodeStats} (h : Ends S E σ σ' p m out) :
    Ends S E σ (σ'.join s mt stats) p m out := by
  cases out with
  | error events => exact h
  | ok A' =>
    exact Machine.Site.Leads.mono h fun _ hm => hm.congr (fun _ _ hu hpl => ⟨hu, hpl⟩)
      (fun _ => (·)) (fun _ _ hk => hk) rfl fun _ hf => hf

/-- What is to be read where the arms meet is where it was at the branch if the machine matches
a state in which it is in its place. -/
theorem Inv.keeps {τa τb σm : State} (inv : Inv S D σ p) (kept : ∀ x ∈ D, A'.found x = A.found x)
    (live : ∀ {x}, 0 < σm.uses x → 0 < τ.uses x ∧ τ.place x = σ.place x)
    (hm : Matches S.graph E A' τ p' m) (result : Reading S.graph arm A' (m.state.named r)) :
    (meeting r σ τa τb σm).Keeps S.graph A A' arm m.state where
  values {x place} used stored := by
    obtain ⟨unread, same⟩ := live used
    have done : x ∈ D := Classical.byContradiction fun hD => by
      have none : (σ.values.entry x).storage = none := inv.notDone hD
      rw [show (σ.values.entry x).storage = some place from stored] at none
      cases none
    rw [← kept x done, hm.values unread (same.trans stored), content_eq hm.bp]
  result := result

namespace Legs

variable {σb τa σe τb σj σm : State}
variable (h : Legs S E D σ start o s c a b r depth cond σb τa σe τb σj σm)
include h

/-- A machine that matches the end of the first arm matches the place where the arms meet. -/
theorem matches_first {A' : Moment}
    (hm : Matches S.graph E A' τa ((Pose.idle.hand r (some .temp)).learn r (Reading S.graph a)) m)
    (taken : World.arm A' c a b = a) : Matches S.graph E A' σm
      ((Pose.idle.hand r (some .temp)).learn r (Picked S.graph c a b)) m := by
  obtain ⟨-, -, third, fourth, fifth⟩ := h.precedes
  have picked : Picked S.graph c a b A' (m.state.named r) := by
    rw [Picked, taken]
    exact hm.known Pose.known_learn
  refine (Pose.learn_learn ▸ hm.learn picked).congr (fun x pl hu hpl => ?_)
    ((third.trans fourth).trans fifth).touched (fun _ _ hk => hk) rfl fun _ hf => hf
  obtain ⟨live, -, place, same⟩ := h.live hu
  exact ⟨live, place.trans (same.symm.trans hpl)⟩

theorem matches_second {A' : Moment} (same : S.graph.tyOf b = S.graph.tyOf a)
    (hm : Matches S.graph E A' τb ((Pose.idle.hand r (some .temp)).learn r (Reading S.graph b)) m)
    (taken : World.arm A' c a b = b) : Matches S.graph E A' σm
      ((Pose.idle.hand r (some .temp)).learn r (Picked S.graph c a b)) m := by
  obtain ⟨-, -, -, -, fifth⟩ := h.precedes
  have picked : Picked S.graph c a b A' (m.state.named r) := by
    rw [Picked, taken, ← same]
    exact hm.known Pose.known_learn
  refine (Pose.learn_learn ▸ hm.learn picked).congr (fun x pl hu hpl => ?_) fifth.touched
    (fun _ _ hk => hk) rfl fun _ hf => hf
  refine ⟨(h.live hu).2.1, ?_⟩
  have place := h.merging.place x
  obtain ⟨asm, rfl⟩ := h.ends
  exact place.symm.trans hpl

theorem matches_start {m' : Machine.Config}
    (hm : Matches S.graph E A σ (Pose.idle.setFlags (Refutes cond c)) m) (went : Went m m') :
    Matches S.graph E A σb .idle m' ∧ Matches S.graph E A σe .idle m' := by
  obtain ⟨first, second, third, -⟩ := h.precedes
  have hm' := Matches.setState (c := m) hm went
  constructor
  · refine hm'.congr (fun x pl hu hpl => ?_) first.touched (fun _ _ hk => by cases hk) rfl
      fun _ _ => trivial
    obtain ⟨asm, rfl⟩ := h.starts
    exact ⟨hu, hpl⟩
  · refine hm'.congr (fun x pl hu hpl => ?_) ((first.trans second).trans third).touched
      (fun _ _ hk => by cases hk) rfl fun _ _ => trivial
    obtain ⟨asm, rfl⟩ := h.again
    exact ⟨hu, hpl⟩

/-- A machine that stands in the first arm at its end has kept what it has to. -/
theorem passes_first (inv : Inv S D σ p) (kept : ∀ x ∈ D, A'.found x = A.found x)
    (taken : World.arm A' c a b = a)
    (hm : Matches S.graph E A' τa ((Pose.idle.hand r (some .temp)).learn r (Reading S.graph a)) m) :
    (meeting r σ τa τb σm).Keeps S.graph A A' a m.state ∧
      Matches S.graph E A' σm (.met S.graph c a b r) m :=
  ⟨inv.keeps kept (fun used => ⟨(h.live used).1, (h.live used).2.2.1⟩) hm
    (hm.known Pose.known_learn), h.matches_first hm taken⟩

theorem passes_second (inv : Inv S D σ p) (kept : ∀ x ∈ D, A'.found x = A.found x)
    (same : S.graph.tyOf b = S.graph.tyOf a) (taken : World.arm A' c a b = b)
    (hm : Matches S.graph E A' τb ((Pose.idle.hand r (some .temp)).learn r (Reading S.graph b)) m) :
    (meeting r σ τa τb σm).Keeps S.graph A A' b m.state ∧
      Matches S.graph E A' σm (.met S.graph c a b r) m := by
  refine ⟨inv.keeps kept (fun used => ?_) hm (hm.known Pose.known_learn),
    h.matches_second same hm taken⟩
  have unread := (h.live used).2.1
  refine ⟨unread, (h.second.back _ unread).trans ?_⟩
  obtain ⟨asm, rfl⟩ := h.again
  rfl

theorem takes_first (inv : Inv S D σ p) (sound : E.Sound) (within : Within S E σm) (done : c ∈ D)
    (taken : (A.word c != 0) = true) (at_ : E.site.At σb.offset m₀)
    (hm : Matches S.graph E A σb .idle m₀) :
    ∃ out, E.world.play S.graph S.ctx.root depth D a A out ∧
      Takes S E (meeting r σ τa τb σm) A a σb.offset τa σm (.met S.graph c a b r) m₀ out := by
  obtain ⟨l, l', split, turned, bound⟩ := h.labels
  obtain ⟨first, second, third, fourth, fifth⟩ := h.precedes
  have begunA := second.begun (first.begun inv.begun)
  have fromE := fourth.trans fifth
  have fromA := third.trans fromE
  have withinA := within.before begunA fromA
  have withinE := within.before (third.begun begunA) fromE
  obtain ⟨out, play, ends⟩ := h.first.stage.run sound withinA A m₀ at_ hm
  refine ⟨out, play, ?_⟩
  cases out with
  | error events => exact Machine.Site.Traps.le ends fromA.offset_le
  | ok A' =>
    have kept := World.keeps_play (Finset.Subset.refl D) (.ok A') play
    have arm : World.arm A' c a b = a := by
      rw [World.arm, Moment.word, kept c done, ← Moment.word, taken, if_pos rfl]
    have toEnd : E.site.body.labelOffset l' = σm.offset := by
      refine labelOffset_of_covers within.code ?_
      have same : σm.buffer = σj.buffer := by rw [State.buffer, h.merging.asm]; rfl
      rw [same, bound.bound, h.offset.1]
    obtain ⟨n, m₁, walk, steps, at₁, hm₁⟩ := ends
    refine ⟨n, m₁, walk, steps, at₁, (h.passes_first inv kept arm hm₁).1, ?_⟩
    refine (turned.leads sound withinE.code h.first.stage.inv (hm₁.keeps withinA) toEnd
      ?_ at₁).mono fun m₂ went => ?_
    · exact Nat.lt_of_lt_of_le turned.offset_lt fromE.offset_le
    · exact h.passes_first inv kept arm (Matches.setState (c := m₁) hm₁ went)

theorem takes_second (inv : Inv S D σ p) (sound : E.Sound) (within : Within S E σm) (done : c ∈ D)
    (same : S.graph.tyOf b = S.graph.tyOf a) (taken : (A.word c != 0) = false)
    (at_ : E.site.At σe.offset m₀) (hm : Matches S.graph E A σe .idle m₀) :
    ∃ out, E.world.play S.graph S.ctx.root depth D b A out ∧
      Takes S E (meeting r σ τa τb σm) A b σe.offset τb σm (.met S.graph c a b r) m₀ out := by
  obtain ⟨first, second, third, fourth, fifth⟩ := h.precedes
  have begunE := third.begun (second.begun (first.begun inv.begun))
  have withinT := within.before (fourth.begun begunE) fifth
  obtain ⟨out, play, ends⟩ := h.second.stage.run sound withinT A m₀ at_ hm
  refine ⟨out, play, ?_⟩
  cases out with
  | error events => exact Machine.Site.Traps.le ends fifth.offset_le
  | ok A' =>
    have kept := World.keeps_play (Finset.Subset.refl D) (.ok A') play
    have arm : World.arm A' c a b = b := by
      rw [World.arm, Moment.word, kept c done, ← Moment.word, taken, if_neg Bool.false_ne_true]
    have finish : τb.offset = σm.offset := h.offset.2.trans h.offset.1
    obtain ⟨n, m₁, walk, steps, at₁, hm₁⟩ := ends
    have passes := h.passes_second inv kept same arm hm₁
    exact ⟨n, m₁, walk, steps, at₁, passes.1, finish ▸ .refl at₁ passes⟩

theorem stage (w : S.graph.WellFormed)
    (decided : Stage S E σ₀ p₀ D σ R (Pose.idle.setFlags (Refutes cond c)))
    (fork : S.graph.Fork S.ctx.root D s c a b) (le : s ≤ depth) (done : c ∈ D)
    (same : S.graph.tyOf b = S.graph.tyOf a) (closing : Closing S D s c a b a)
    (reads : remainingUses σ.mark.tables.values = S.graph.remaining S.ctx.root D)
    (sound : Note.Sound S.graph S.ctx.root σm.journal (.joined s (meeting r σ τa τb σm)))
    (stats : CodeStats) :
    Stage S E σ₀ p₀ (D ∪ S.graph.below a ∪ S.graph.below b)
      (σm.join s (meeting r σ τa τb σm) stats)
      (R.andThen fun A o => E.world.play S.graph S.ctx.root depth D (World.arm A c a b) A o)
      (.met S.graph c a b r) := by
  have inv := h.inv closing
  have joins : Grows σm (σm.join s (meeting r σ τa τb σm) stats) :=
    grows_record stats [.joined s _] rfl
  refine decided.next { inv with clean := inv.clean.cons sound rfl rfl nofun }
    (h.grows.trans joins) fun soundE withinJ A m at_ hm => ?_
  have begun := decided.inv.begun
  have within := withinJ.of_grows inv.begun joins
  obtain ⟨l, l', split, turned, bound⟩ := h.labels
  obtain ⟨first, second, third, fourth, fifth⟩ := h.precedes
  have fromE := fourth.trans fifth
  have fromB := (second.trans third).trans fromE
  have begunB := first.begun begun
  have withinB := within.before begunB fromB
  have withinE := within.before ((second.trans third).begun begunB) fromE
  obtain ⟨minds, m₀, one, went, toElse, toThen⟩ := split.goes soundE withinB.code decided.inv
    (hm.keeps (within.before begun (first.trans fromB))) at_
  rw [labelOffset_of_covers withinE.code turned.bound] at toElse
  have starts := h.matches_start hm went
  -- A branch from which the run goes through an arm is as it has to be.
  have finish {arm : NodeId} {τ : State} {k : Nat} {out : Except (List Event) Moment}
      (picked : World.arm A c a b = arm)
      (last : (if A.word c != 0 then τa.mark else τb.mark) = τ.mark)
      (play : E.world.play S.graph S.ctx.root depth D arm A out)
      (takes : Takes S E (meeting r σ τa τb σm) A arm k τ σm (.met S.graph c a b r) m₀ out)
      (ahead : σ.offset < k) (at₀ : E.site.At k m₀) :
      ∃ out, E.world.play S.graph S.ctx.root depth D (World.arm A c a b) A out ∧
        Ends S E σ (σm.join s (meeting r σ τa τb σm) stats) (.met S.graph c a b r) m out := by
    subst picked
    have lt := fork.operand_lt w (Graph.Fork.arm_mem A)
    have crosses : (meeting r σ τa τb σm).Crosses S.graph S.ctx.root E.world E.noted E.site.host
        E.site.code E.site.start s m :=
      ⟨D, c, a, b, A, out, fork, reads, hm.holds_mark,
        World.play_depth w (Nat.lt_of_lt_of_le lt le) (Nat.lt_succ_self _) ▸ play, by
        rw [show (if A.word c != 0 then (meeting r σ τa τb σm).thenEnd
          else (meeting r σ τa τb σm).elseEnd) = τ.mark from last]
        exact takes.runs one rfl⟩
    have watched := within.watch s _ m (withinJ.journal _ (List.mem_cons_self ..)) at_ crosses
    exact ⟨out, play, (takes.ends one (minds watched) ahead at₀).join⟩
  have flags : m.state.flags.holds cond = !(A.word c != 0) := hm.flags
  cases taken : (A.word c != 0) with
  | true =>
    rw [taken] at flags
    obtain ⟨out, play, takes⟩ := h.takes_first decided.inv soundE within done taken
      (toThen flags) starts.1
    exact finish (by rw [World.arm, taken, if_pos rfl]) (by rw [taken, if_pos rfl]) play takes
      split.offset_lt (toThen flags)
  | false =>
    rw [taken] at flags
    obtain ⟨out, play, takes⟩ := h.takes_second decided.inv soundE within done same taken
      (toElse flags) starts.2
    exact finish (by rw [World.arm, taken, if_neg Bool.false_ne_true])
      (by rw [taken, if_neg Bool.false_ne_true]) play takes
      (Nat.lt_of_lt_of_le split.offset_lt (second.trans third).offset_le) (toElse flags)

end Legs

end NativeExpr.Lowering
