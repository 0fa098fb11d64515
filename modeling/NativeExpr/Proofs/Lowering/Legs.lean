import NativeExpr.Proofs.Lowering.Arm
import NativeExpr.Proofs.Lowering.Decision
import NativeExpr.Proofs.Lowering.Merge

/-!
# The arms of a conditional

Behind the decision stand the branch, the two arms one behind the other, and the place where
they meet. A machine runs one of the arms, and what it then holds fits the tables that were
made for both.
-/
namespace NativeExpr.Lowering

open NativeExpr X64 Convention

variable {S : Setting} {E : Env} {σ₀ σ σ' τ τ' : State} {A : Moment} {p₀ p p' : Pose}
variable {R C : Course} {D : Finset NodeId} {o : Opened} {x y s c a b : NodeId}
variable {r q : Reg} {gen : NodeId → Lower Unit} {depth : Nat} {cond : Condition}
variable {l l' : Nat} {start : Mark} {m : Machine.Config} {post : Unit → State → Prop}

/-! ## Labels and branches -/

theorem yields_code {α : Type} {f : Asm α} {post : α → Assembler → Prop}
    (clean : Clean S.graph S.ctx.root σ.journal)
    (h : Yields f σ.asm post fun e _ => e.IsOverflow) :
    Generates S (emit f) σ fun a σ' => ∃ asm, σ' = { σ with asm } ∧ post a asm :=
  (yields_emit h).mono (fun _ _ h => h) fun _ _ h =>
    ⟨permitted_of_overflow h.1, h.2 ▸ clean⟩

/-- The code between the decision and the first arm, with the labels of the second arm and
of the end. -/
structure Split (σ σ' : State) (cond : Condition) (l l' : Nat) : Prop where
  residue : σ'.asm.residue = []
  code : ∃ mid, σ.buffer.Written mid [] ∧ mid.Written σ'.buffer [.jumpIf cond l]
  pending : σ.buffer.Pending σ'.buffer [l', l]
  other : l' ≠ l

theorem generates_split (inv : Inv S D σ p) {k : Nat → Nat → Lower Unit}
    (next : ∀ asm l l', Split σ { σ with asm } cond l l' →
      Generates S (k l l') { σ with asm } post) :
    Generates S (do
      let l ← emit Assembler.createLabel
      let l' ← emit Assembler.createLabel
      emit (Assembler.jumpIf cond l)
      k l l') σ post := by
  refine .seq (yields_code inv.clean.sound (Machine.yields_createLabel σ.asm)) ?_
  rintro l _ ⟨asm₁, rfl, ⟨hl, w₁, size₁, offsets₁⟩, residue₁⟩
  refine .seq (yields_code ?_ (Machine.yields_createLabel asm₁)) ?_
  · exact inv.clean.sound
  rintro l' _ ⟨asm₂, rfl, ⟨hl', w₂, size₂, offsets₂⟩, residue₂⟩
  refine .seq (yields_code ?_
    (Machine.yields_jumpIf cond l (residue₂.trans (residue₁.trans inv.residue)))) ?_
  · exact inv.clean.sound
  rintro _ _ ⟨asm₃, rfl, ⟨w₃, labels₃⟩, residue₃⟩
  refine next asm₃ l l' ⟨residue₃, ⟨asm₂.buffer, w₁.trans w₂, w₃⟩, ?_, by omega⟩
  have first : σ.buffer.Pending asm₁.buffer [l] := by
    have := CodeBuffer.Pending.refl.create (Nat.le_refl _) (size₁.trans (by rw [hl])) offsets₁
      w₁.nothing.2
    rwa [hl]
  have second : σ.buffer.Pending asm₂.buffer [l', l] := by
    have := first.create w₁.labels (size₂.trans (by rw [hl'])) offsets₂ w₂.nothing.2
    rwa [hl']
  exact second.branch (by simp) labels₃ (w₃.pending.trans rfl)

/-- The code between the arms. The second one starts from earlier tables. -/
structure Turned (τ σ' : State) (l l' : Nat) : Prop where
  residue : σ'.asm.residue = []
  code : ∃ mid, τ.buffer.Written mid [.jump l'] ∧ mid.Written σ'.buffer []
  bound : σ'.buffer.offset? l = some σ'.offset
  pending : ∀ b : CodeBuffer, b.Pending τ.buffer [l', l] → b.Pending σ'.buffer [l']

theorem generates_turn (inv : Inv S D τ p) {b : CodeBuffer} (pending : b.Pending τ.buffer [l', l])
    (other : l' ≠ l) (occupancy : Occupancy) (values : ValueTable) {k : Lower Unit}
    (next : ∀ asm, Turned τ { τ with asm, regs := τ.regs.restore occupancy, values } l l' →
      Generates S k { τ with asm, regs := τ.regs.restore occupancy, values } post) :
    Generates S (do
      emit (Assembler.jump l')
      modify fun s => { s with regs := s.regs.restore occupancy, values }
      emit (Assembler.bindLabel l)
      k) τ post := by
  refine .seq (yields_code inv.clean.sound (Machine.yields_jump l' inv.residue)) ?_
  rintro _ _ ⟨asm₁, rfl, ⟨w₁, labels₁⟩, residue₁⟩
  obtain ⟨-, high, unbound⟩ := pending.unbound l (by simp)
  refine .bind (.of_modify ?_)
  have bind := Machine.yields_bindLabel (a := asm₁) (labels₁.1 ▸ high)
    ((labels₁.2 l).trans unbound)
  refine .seq (yields_code ?_ (bind.mono (fun _ _ h => h) fun _ _ h => h.elim)) ?_
  · exact inv.clean.sound
  rintro _ _ ⟨asm₂, rfl, ⟨w₂, size₂, offsets₂⟩, residue₂⟩
  refine next asm₂ ⟨residue₂.trans residue₁, ⟨asm₁.buffer, w₁, w₂⟩, ?_, fun b' hb => ?_⟩
  · refine (offsets₂ l).trans ?_
    rw [if_pos rfl]
    exact congrArg some w₂.nothing.1.symm
  · exact (hb.branch (by simp) labels₁ (w₁.pending.trans rfl)).bind (l := l) (by simp)
      (fun label => by
        simp only [List.mem_cons, List.not_mem_nil, or_false]
        constructor
        · rintro rfl
          exact ⟨.inl rfl, other⟩
        · exact fun hn => hn.1.resolve_right hn.2)
      size₂ offsets₂ w₂.nothing.2

/-- The label of the end. -/
structure Bound (τ σ' : State) (l' : Nat) : Prop where
  residue : σ'.asm.residue = []
  code : τ.buffer.Written σ'.buffer []
  bound : σ'.buffer.offset? l' = some σ'.offset
  pending : ∀ b : CodeBuffer, b.Pending τ.buffer [l'] → b.Balanced σ'.buffer

theorem generates_bind (inv : Inv S D τ p) {b : CodeBuffer} (pending : b.Pending τ.buffer [l']) :
    Generates S (emit (Assembler.bindLabel l')) τ fun _ σ' =>
      ∃ asm, σ' = { τ with asm } ∧ Bound τ σ' l' := by
  obtain ⟨-, high, unbound⟩ := pending.unbound l' (by simp)
  refine (yields_code inv.clean.sound ((Machine.yields_bindLabel (a := τ.asm) high unbound).mono
    (fun _ _ h => h) fun _ _ h => h.elim)).mono ?_ fun _ _ he => he
  rintro _ _ ⟨asm, rfl, ⟨w, size, offsets⟩, residue⟩
  refine ⟨asm, rfl, residue.trans inv.residue, w, ?_, fun b' hb => ?_⟩
  · refine (offsets l').trans ?_
    rw [if_pos rfl]
    exact congrArg some w.nothing.1.symm
  · have closed : b'.Pending asm.buffer [] :=
      hb.bind (l := l') (by simp) (fun label => by simp) size offsets w.nothing.2
    exact closed.close

/-! ## Taking a branch -/

theorem labelOffset_of_covers {L : Machine.Site} {b : CodeBuffer} {offset : Nat} (h : L.Covers b)
    (bound : b.offset? l = some offset) : L.body.labelOffset l = offset := by
  obtain ⟨-, its, w⟩ := h
  rw [CodeBuffer.labelOffset, w.kept l offset bound, Option.getD_some]

/-- A machine that went on, to wherever, without doing anything else. -/
def Went (m m' : Machine.Config) : Prop :=
  m'.entered = m.entered ∧ ∃ pc, m'.state = m.state.setPc pc

theorem Split.offset_lt (h : Split σ σ' cond l l') : σ.offset < σ'.offset := by
  obtain ⟨mid, w, w'⟩ := h.code
  have size : mid.size = σ.offset := w.nothing.1
  have := w'.size_singleton
  have := (Item.jumpIf cond l).size_pos
  show σ.offset < σ'.buffer.size
  omega

/-- At the branch a machine goes to the label of the second arm or on to the first one. It is
minded there if the branch is as it has to be. -/
theorem Split.goes (h : Split σ σ' cond l l') (sound : E.Sound)
    (covers : E.site.Covers σ'.buffer) (inv : Inv S D σ p) (keeps : E.Keeps m.state)
    (at_ : E.site.At σ.offset m) :
    (E.site.watch m → E.site.Minds m) ∧
      ∃ m', Machine.step E.site.host E.site.code m = .ok m' ∧ Went m m' ∧
        (m.state.flags.holds cond = true → E.site.At (E.site.body.labelOffset l) m') ∧
        (m.state.flags.holds cond = false → E.site.At σ'.offset m') := by
  obtain ⟨mid, w, w'⟩ := h.code
  have size : mid.size = σ.offset := w.nothing.1
  obtain ⟨capacity, its, begun⟩ := inv.begun
  have covers' : E.site.Covers mid := covers.before ⟨capacity, _, begun.trans w⟩ w'
  have here : E.site.At mid.size m := size.symm ▸ at_
  obtain ⟨m', one, entered, state, targets⟩ := covers'.goes_jumpIf sound.site w' covers here
  exact ⟨covers'.minds_jumpIf sound.site w' covers here fun _ => sound.permits.quiet keeps rfl,
    m', one, ⟨entered, state⟩, targets⟩

theorem Turned.leads (h : Turned τ σ' l l') (sound : E.Sound)
    (covers : E.site.Covers σ'.buffer) (inv : Inv S D τ p) (keeps : E.Keeps m.state)
    {target : Nat} (label : E.site.body.labelOffset l' = target) (ahead : τ.offset < target)
    (at_ : E.site.At τ.offset m) : E.site.Leads τ.offset target m (Went m) := by
  obtain ⟨mid, w, w'⟩ := h.code
  obtain ⟨capacity, its, begun⟩ := inv.begun
  have covers' : E.site.Covers mid := covers.before ⟨capacity, _, begun.trans w⟩ w'
  have first : E.site.Covers τ.buffer := covers'.before ⟨capacity, _, begun⟩ w
  have steps := first.leads_jump sound.site w covers' (c := m) at_
    (fun _ => sound.permits.quiet keeps rfl) (by rw [label]; exact ahead)
  rwa [label] at steps

theorem Turned.offset_lt (h : Turned τ σ' l l') : τ.offset < σ'.offset := by
  obtain ⟨mid, w, w'⟩ := h.code
  have size : σ'.offset = mid.size := w'.nothing.1
  have := w.size_singleton
  have := (Item.jump l').size_pos
  show τ.buffer.size < σ'.offset
  omega

/-! ## Both arms -/

/-- The state behind the branch of a conditional, which is noted. -/
def State.fork (σ : State) (s : NodeId) (start : Mark) (asm : Assembler) : State :=
  { σ with asm, journal := .forked s start σ.mark :: σ.journal }

def secondStart (σ τ : State) (asm : Assembler) : State :=
  { τ with asm, regs := τ.regs.restore σ.regs.snapshot, values := σ.values }

/-- The code from the branch to the place where the arms meet. -/
structure Legs (S : Setting) (E : Env) (D : Finset NodeId) (σ : State) (start : Mark) (o : Opened)
    (s c a b : NodeId) (r : Reg) (depth : Nat) (cond : Condition) (σb τa σe τb σj σm : State) :
    Prop where
  starts : ∃ asm, σb = σ.fork s start asm
  again : ∃ asm, σe = secondStart σ τa asm
  ends : ∃ asm, σj = { τb with asm }
  labels : ∃ l l', Split σ σb cond l l' ∧ Turned τa σe l l' ∧ Bound τb σj l'
  sum : ∀ x, σ.uses x ≤ τa.uses x + τb.uses x
  first : Ran S E D σb o s c a r (E.world.play S.graph S.ctx.root depth D a) τa
  second : Ran S E D σe o s c b r (E.world.play S.graph S.ctx.root depth D b) τb
  merging : Merging S (D ∪ S.graph.below b) σ σj
    ((Pose.idle.hand r (some .temp)).learn r (Reading S.graph b)) τa.values.useCounts [] σm

section

variable {asm : Assembler}

theorem Split.fork (h : Split σ { σ with asm } cond l l') :
    Split σ (σ.fork s start asm) cond l l' := ⟨h.residue, h.code, h.pending, h.other⟩

theorem Split.precedes (h : Split σ (σ.fork s start asm) cond l l') :
    Precedes σ (σ.fork s start asm) := by
  obtain ⟨mid, w, w'⟩ := h.code
  exact ⟨⟨_, w.trans w'⟩, Nat.le_refl _, (·), (·), fun _ => (·), List.suffix_cons ..⟩

/-- Behind the branch, which is noted, the tables are those of the decision. -/
theorem Split.inv (h : Split σ (σ.fork s start asm) cond l l') (inv : Inv S D σ p)
    (forked : Note.Sound S.graph S.ctx.root σ.journal (.forked s start σ.mark)) :
    Inv S D (σ.fork s start asm) p := by
  obtain ⟨mid, w, w'⟩ := h.code
  have coded : Inv S D { σ with asm } p := inv.setAsm h.residue (w.trans w')
  obtain ⟨capacity, its, begun⟩ := inv.begun
  have branches : asm.buffer.BranchesAt σ.mark.offset :=
    ⟨capacity, mid, asm.buffer, _, [], cond, l, begun.trans w, w.nothing.1, w', .refl⟩
  exact { coded with
    clean := coded.clean.cons forked rfl rfl fun same => by cases same; exact branches }

/-- The second arm starts from the tables of the decision, behind the code of the first. -/
theorem Turned.inv {D' : Finset NodeId} (h : Turned τ (secondStart σ τ asm) l l')
    (inv : Inv S D σ p) (first : Inv S D' τ p') (precedes : Precedes σ τ) :
    Inv S D (secondStart σ τ asm) p := by
  obtain ⟨mid, w, w'⟩ := h.code
  exact (inv.restore first precedes).setAsm h.residue (w.trans w')

theorem Vacant.again {D' : Finset NodeId} (h : Vacant S σ r) (inv : Inv S D σ p)
    (first : Inv S D' τ p') (precedes : Precedes σ τ) : Vacant S (secondStart σ τ asm) r := by
  have becomes := inv.regular.restore first.regular precedes.touched
  exact ⟨h.mem, (becomes.owner_eq h.valid).trans h.free, precedes.touched r h.touched⟩

/-- Between the arms the labels of their code are done with, but for that of the end. -/
theorem Split.turned {σb : State} (h : Split σ σb cond l l') (first : Grows σb τ) :
    σ.buffer.Pending τ.buffer [l', l] := by
  obtain ⟨mid, w, w'⟩ := h.code
  obtain ⟨its, v⟩ := first.written
  exact h.pending.trans first.balanced (w.trans w').labels v.labels

theorem Turned.ended {σe : State} (h : Turned τ σe l l') (precedes : Precedes σ τ)
    (pending : σ.buffer.Pending τ.buffer [l', l]) (second : Grows σe τ') :
    σ.buffer.Pending τ'.buffer [l'] := by
  obtain ⟨mid, w, w'⟩ := h.code
  obtain ⟨its, v⟩ := precedes.written
  obtain ⟨its', v'⟩ := second.written
  exact (h.pending _ pending).trans second.balanced (v.trans (w.trans w')).labels v'.labels

end

def Picked (g : Graph) (c a b : NodeId) (A : Moment) (w : Word) : Prop :=
  (g.tyOf a).view w = A.word (World.arm A c a b)

namespace Legs

variable {σb τa σe τb σj σm : State}
variable (h : Legs S E D σ start o s c a b r depth cond σb τa σe τb σj σm)
include h

theorem uses (x : NodeId) : σb.uses x = σ.uses x ∧ σe.uses x = σ.uses x ∧ τa.uses x ≤ σ.uses x ∧
    τb.uses x ≤ σ.uses x ∧ σm.uses x = τa.uses x + τb.uses x - σ.uses x := by
  obtain ⟨asm₁, rfl⟩ := h.starts
  obtain ⟨asm₂, rfl⟩ := h.again
  obtain ⟨asm₃, rfl⟩ := h.ends
  refine ⟨rfl, rfl, h.first.stage.grows.uses_le x, h.second.stage.grows.uses_le x, ?_⟩
  have merged := h.merging.merged x (by simp)
  rwa [ValueTable.getD_useCounts] at merged

/-- Both arms together have read what is not to be read any more. -/
theorem reads (x : NodeId) : τa.uses x + τb.uses x - σ.uses x + σm.readsOf x =
    σ.uses x + σ.readsOf x := by
  have sum := h.sum x
  have first := h.first.stage.grows.reads x
  have second := h.second.stage.grows.reads x
  have merged := h.merging.reads x
  obtain ⟨asm₁, rfl⟩ := h.starts
  obtain ⟨asm₂, rfl⟩ := h.again
  obtain ⟨asm₃, rfl⟩ := h.ends
  change τa.uses x + τa.readsOf x = σ.uses x + σ.readsOf x at first
  change τb.uses x + τb.readsOf x = σ.uses x + τa.readsOf x at second
  change σm.readsOf x = τb.readsOf x at merged
  omega

/-- What is to be read behind the arms is where it was, whichever was taken. -/
theorem live (hx : 0 < σm.uses x) : 0 < τa.uses x ∧ 0 < τb.uses x ∧
    τa.place x = σ.place x ∧ σm.place x = σ.place x := by
  obtain ⟨-, -, le, le', merged⟩ := h.uses x
  have liveA : 0 < τa.uses x := by omega
  have liveB : 0 < τb.uses x := by omega
  refine ⟨liveA, liveB, (h.first.back x liveA).trans ?_, (h.merging.place x).trans ?_⟩
  · obtain ⟨asm, rfl⟩ := h.starts
    rfl
  · obtain ⟨asm, rfl⟩ := h.ends
    refine (h.second.back x liveB).trans ?_
    obtain ⟨asm, rfl⟩ := h.again
    rfl

theorem precedes : Precedes σ σb ∧ Precedes σb τa ∧ Precedes τa σe ∧ Precedes σe τb ∧
    Precedes τb σm := by
  obtain ⟨l, l', split, turned, bound⟩ := h.labels
  obtain ⟨mid, w, w'⟩ := turned.code
  have merging := h.merging
  have first := h.first.stage.grows.precedes
  have second := h.second.stage.grows.precedes
  obtain ⟨asm₁, rfl⟩ := h.starts
  obtain ⟨asm₂, rfl⟩ := h.again
  obtain ⟨asm₃, rfl⟩ := h.ends
  refine ⟨split.precedes, first, ⟨⟨_, w.trans w'⟩, Nat.le_refl _, (·), (·),
    fun _ => (·), List.suffix_rfl⟩, second, ⟨⟨[], ?_⟩, ?_, ?_, ?_, merging.touched,
    merging.journal⟩⟩
  · have code := bound.code
    rwa [show State.buffer { τb with asm := asm₃ } = σm.buffer by
      rw [State.buffer, State.buffer, merging.asm]] at code
  · rw [merging.frame]
  · rw [merging.frame]
    exact (·)
  · rw [merging.frame]
    exact (·)

theorem offset : σj.offset = σm.offset ∧ τb.offset = σj.offset := by
  obtain ⟨l, l', -, -, bound⟩ := h.labels
  refine ⟨?_, bound.code.nothing.1.symm⟩
  rw [State.offset, State.offset, h.merging.asm]

theorem balanced : σ.buffer.Balanced σm.buffer := by
  obtain ⟨l, l', split, turned, bound⟩ := h.labels
  obtain ⟨first, second, -, -, -⟩ := h.precedes
  have between := split.turned h.first.stage.grows
  have all := bound.pending _ (turned.ended (first.trans second) between h.second.stage.grows)
  rwa [show σm.buffer = σj.buffer by rw [State.buffer, h.merging.asm]; rfl]

theorem grows : Grows σ σm := by
  obtain ⟨first, second, third, fourth, fifth⟩ := h.precedes
  have all := (((first.trans second).trans third).trans fourth).trans fifth
  refine ⟨all.written, h.balanced, all.spills, all.stackParams, all.calls, all.touched,
    fun x => ?_, fun x hx _ => .inl (h.live hx).2.2.2, all.journal, fun x => ?_⟩
  · obtain ⟨-, -, le, le', merged⟩ := h.uses x
    omega
  · obtain ⟨atB, atE, le, le', merged⟩ := h.uses x
    have reads := h.reads x
    omega

theorem inv (closing : Closing S D s c a b a) : Inv S (D ∪ S.graph.below a ∪ S.graph.below b) σm
    ((Pose.idle.hand r (some .temp)).learn r (Picked S.graph c a b)) := by
  have widened := h.merging.inv.widen (D ∪ S.graph.below a ∪ S.graph.below b) ?_ ?_
  · refine widened.congr rfl rfl fun {q P} hk => ?_
    by_cases he : q = r
    · exact he ▸ h.merging.inv.knownValid Pose.known_learn
    · rw [Pose.known_learn_of_ne he] at hk
      cases hk
  · intro x hx
    simp only [Finset.mem_union] at hx ⊢
    tauto
  · intro x hx hx'
    simp only [Finset.mem_union, not_or] at hx hx'
    have below : x ∈ S.graph.below a := by tauto
    obtain ⟨-, -, -, le', merged⟩ := h.uses x
    have dead := closing.dead h.first.ledger below hx'.1
    omega

theorem counted (apart : ∀ y ∈ S.graph.below a, y ∈ S.graph.below b → y ∈ D) :
    ∃ t : Tally, Counted S.graph ((D ∪ S.graph.below a ∪ S.graph.below b) \ D) σ.tally t ∧
      σm.tally = { t with branches := t.branches + 2 } := by
  obtain ⟨l, l', split, turned, bound⟩ := h.labels
  have first := h.first.counted
  have second := h.second.counted
  have merged := h.merging.tally
  obtain ⟨mid, w, w'⟩ := split.code
  obtain ⟨mid', v, v'⟩ := turned.code
  have sizes {b₁ b₂ : CodeBuffer} {its : List Item} (w : b₁.Written b₂ its) :
      b₂.pending.size = b₁.pending.size + (patchesFrom b₁.size its).length := by
    rw [← Array.length_toList, w.pending, List.length_append, Array.length_toList]
  have branchB : σb.tally = { σ.tally with branches := σ.tally.branches + 1 } := by
    obtain ⟨asm, rfl⟩ := h.starts
    have : asm.buffer.pending.size = σ.asm.buffer.pending.size + 1 :=
      (sizes w').trans (congrArg (· + 1) (sizes w))
    simp only [State.tally, State.fork, this]
    rfl
  have branchE : σe.tally = { τa.tally with branches := τa.tally.branches + 1 } := by
    obtain ⟨asm, rfl⟩ := h.again
    have : asm.buffer.pending.size = τa.asm.buffer.pending.size + 1 := (sizes v').trans (sizes v)
    simp only [State.tally, secondStart, this]
  have branchJ : σj.tally = τb.tally := by
    have size := sizes bound.code
    obtain ⟨asm, rfl⟩ := h.ends
    have : asm.buffer.pending.size = τb.asm.buffer.pending.size := size
    simp only [State.tally, this]
  rw [branchB] at first
  obtain ⟨t₁, counted₁, here₁⟩ := first.later
  rw [branchE, here₁] at second
  obtain ⟨t₂, counted₂, here₂⟩ := Counted.later (t := t₁) (k := 2) second
  have separate : Disjoint ((D ∪ S.graph.below a) \ D) ((D ∪ S.graph.below b) \ D) := by
    refine Finset.disjoint_left.2 fun x hx hx' => ?_
    simp only [Finset.mem_sdiff, Finset.mem_union] at hx hx'
    exact hx.2 (apart x (hx.1.resolve_left hx.2) (hx'.1.resolve_left hx.2))
  refine ⟨t₂, ?_, by rw [merged, branchJ, here₂]⟩
  have sets : (D ∪ S.graph.below a) \ D ∪ (D ∪ S.graph.below b) \ D =
      (D ∪ S.graph.below a ∪ S.graph.below b) \ D := by
    ext x
    simp only [Finset.mem_sdiff, Finset.mem_union]
    tauto
  exact sets ▸ counted₁.trans counted₂ separate

end Legs

end NativeExpr.Lowering
