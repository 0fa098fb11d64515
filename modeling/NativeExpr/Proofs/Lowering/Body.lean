import NativeExpr.Proofs.Lowering.Generate
import NativeExpr.Proofs.Lowering.Parameters

/-!
# The body of a function

The parameters that are read get their places, the root is generated, and its value
is moved to the return register. The body then does what the schedule says and leaves
nothing to be read and no register in use.
-/
namespace NativeExpr

open Lowering X64 Convention

namespace Graph

def isParameter (g : Graph) (x : NodeId) : Bool :=
  match (g.node? x).map Node.kind with
  | some (.parameter _) => true
  | _ => false

/-- The parameters that a node needs. -/
def inputs (g : Graph) (root : NodeId) : Finset NodeId :=
  (g.below root).filter fun x => g.isParameter x = true

variable {g : Graph} {root x : NodeId}

theorem isParameter_iff : g.isParameter x = true ↔ ∃ i ty, g.node? x = some ⟨.parameter i, ty⟩ := by
  rw [isParameter]
  constructor
  · intro h
    split at h
    · next i hk =>
      obtain ⟨⟨k, ty⟩, hn, rfl⟩ := Option.map_eq_some_iff.1 hk
      exact ⟨i, ty, hn⟩
    · cases h
  · rintro ⟨i, ty, hn⟩
    rw [hn]
    rfl

theorem operandsOf_of_isParameter (h : g.isParameter x = true) : g.operandsOf x = [] := by
  obtain ⟨i, ty, hn⟩ := isParameter_iff.1 h
  rw [operandsOf_eq hn]
  rfl

theorem closed_inputs : g.Closed (g.inputs root) := fun y hy x hx => by
  rw [operandsOf_of_isParameter (Finset.mem_filter.1 hy).2] at hx
  cases hx

theorem pending_inputs : g.pending root (g.inputs root) x = g.pending root ∅ x := by
  have none : ∑ y ∈ g.inputs root \ ∅, g.edges y x = 0 :=
    Finset.sum_eq_zero fun y hy => edges_eq_zero fun hm => by
      rw [operandsOf_of_isParameter (Finset.mem_filter.1 (Finset.mem_sdiff.1 hy).1).2] at hm
      cases hm
  have sub : g.inputs root ⊆ g.below root := Finset.filter_subset _ _
  have split := pending_union (D := ∅) (x := x) sub
  rw [none, Finset.empty_union, Nat.add_zero] at split
  exact split.symm

end Graph

/-- What a function does: its parameters are there from the start. -/
def World.course (ω : World) (g : Graph) (root : NodeId) : Course :=
  Course.andThen (fun m o => o = .ok (ω.enter g (g.inputs root) m))
    (ω.play g root (root + 1) (g.inputs root) root)

/-- What single nodes preserve holds in the end if it holds of the arguments. -/
theorem World.Maintains.course {ω : World} {g : Graph} {root : NodeId}
    {P : Finset NodeId → Moment → Prop} {F : List Event → Prop} {m : Moment}
    {o : Except (List Event) Moment} (maintains : ω.Maintains g root P F) (w : g.WellFormed)
    (hr : root < g.size) (start : P (g.inputs root) (ω.enter g (g.inputs root) m))
    (ho : ω.course g root m o) : World.Meets P F (g.below root) o := by
  rcases ho with ⟨m', entered, played⟩ | ⟨_, entered, -⟩
  · cases entered
    have met := maintains.play w hr Graph.closed_inputs (w.self_mem_below hr) start played
    have inside : g.inputs root ⊆ g.below root := Finset.filter_subset _ _
    rwa [Finset.union_eq_right.2 inside] at met
  · cases entered

namespace Lowering

variable {S : Setting} {E : Env} {σ₀ σ σ' : State} {p₀ p : Pose} {D : Finset NodeId}
variable {o : Options} {R : Course}

/-! ## The first state -/

/-- What stays fixed while the function of a root is generated with some options. -/
def Setting.of (g : Graph) (root : NodeId) (o : Options) : Setting :=
  ⟨⟨g, root, o.fuseCompares⟩, ⟨o.maxGeneral, o.maxFloat⟩⟩

/-- The state before the first instruction when so many reads of each value are to come. -/
def State.counting (uses : Array Nat) (o : Options) : State where
  asm := .new o.codeCapacity
  regs := .new (Convention.generalOrder.take o.maxGeneral) (Convention.floatOrder.take o.maxFloat)
  values := uses.map fun n => ⟨none, n, none⟩
  frame := .empty
  stats := .zero
  journal := []

section

variable {g : Graph} {root : NodeId} {uses : Array Nat}

theorem entry_counting (x : NodeId) :
    (State.counting uses o).values.entry x = ⟨none, uses.getD x 0, none⟩ := by
  show (uses.map fun n => (⟨none, n, none⟩ : Assignment)).getD x .unused = _
  rw [Array.getD_eq_getD_getElem?, Array.getD_eq_getD_getElem?, Array.getElem?_map]
  cases uses[x]? <;> rfl

theorem inv_counting (size : uses.size = g.size) :
    Inv (.of g root o) ∅ (State.counting uses o) (Pose.entry E) where
  size := by
    show (uses.map _).size = g.size
    rw [Array.size_map, size]
  regular := RegisterFile.regular_new ⟨o.maxGeneral, o.maxFloat⟩
  locks _ := RegisterFile.lockCount_new ..
  held _ hh := by cases hh
  temp {r} _ ho := by
    rw [show (State.counting uses o).regs.owner r = none from RegisterFile.owner_new ..] at ho
    cases ho
  owned {r x} _ _ := by
    rw [show (State.counting uses o).regs.owner r = none from RegisterFile.owner_new ..]
    refine ⟨(fun h => by cases h), fun h => ?_⟩
    have unplaced := h.1
    rw [State.place, entry_counting] at unplaced
    cases unplaced
  notHeld _ _ := rfl
  register h _ := by
    rw [State.place, entry_counting] at h
    cases h
  done h _ := absurd h (Finset.notMem_empty _)
  notDone _ := by rw [State.place, entry_counting]
  stack h := by
    rw [State.place, entry_counting] at h
    cases h
  constant h _ := by
    rw [State.place, entry_counting] at h
    cases h
  slot_eq h := by
    rw [State.slot, entry_counting] at h
    cases h
  slot_inj h _ := by
    rw [State.slot, entry_counting] at h
    cases h
  knownValid {r P} h := by
    dsimp only [Pose.entry] at h
    split at h
    · next hm =>
      rcases List.mem_append.1 hm with hm | hm
      · exact (of_mem_argRegs hm).1
      · exact (of_mem_argRegs hm).1
    · cases h
  saved := rfl
  residue := rfl
  begun := ⟨o.codeCapacity, [], .refl⟩
  clean := ⟨trivial, nofun⟩

theorem entry_initial (x : NodeId) : (State.initial g root o).values.entry x =
    ⟨none, (g.reachableUses root).getD x 0, none⟩ := entry_counting x

theorem inv_initial : Inv (.of g root o) ∅ (State.initial g root o) (Pose.entry E) :=
  inv_counting Graph.size_reachableUses

end

/-- When the parameters have their places, all other reads are to come. -/
theorem Binding.ledger {all : List Incoming} (w : S.graph.WellFormed)
    (hr : S.ctx.root < S.graph.size) (bound : Binding S E σ₀ all D σ p)
    (uses : ∀ x, σ₀.uses x = (S.graph.reachableUses S.ctx.root).getD x 0)
    (hall : incoming S.graph σ₀.values = all) (hD : ∀ y, y ∈ D ↔ ∃ x ∈ all, x.id = y) :
    D = S.graph.inputs S.ctx.root ∧ Ledger S D ⟨∅, []⟩ σ := by
  have reached {x} (hx : x < S.graph.size) : 0 < σ₀.uses x ↔ x ∈ S.graph.below S.ctx.root := by
    rw [uses, Graph.below, Finset.mem_filter, Finset.mem_range, and_iff_right hx]
  have same : D = S.graph.inputs S.ctx.root := by
    ext y
    rw [hD, Graph.inputs, Finset.mem_filter, Graph.isParameter_iff]
    constructor
    · rintro ⟨x, hx, rfl⟩
      obtain ⟨enters, live⟩ := mem_incoming w (hall ▸ hx)
      obtain ⟨i, hi, -⟩ := enters.index
      have node := enters.node w hi
      exact ⟨(reached (Graph.node?_lt node)).1 live, i, _, node⟩
    · rintro ⟨hy, i, ty, node⟩
      exact hall ▸ exists_incoming w (w.declared node) ((reached (Graph.node?_lt node)).2 hy)
  refine ⟨same, same ▸ Graph.closed_inputs, fun hx node => ?_, fun x => ?_,
    fun _ h => absurd h List.not_mem_nil, fun _ => Nat.zero_le _,
    fun _ h => absurd h (Finset.notMem_empty _)⟩
  · rw [same, Graph.inputs, Finset.mem_filter, Graph.isParameter_iff]
    exact ⟨hx, _, _, node⟩
  · rw [bound.reads.uses_eq, uses, List.count_nil, Nat.add_zero, same, Graph.pending_inputs]
    by_cases hx : x < S.graph.size
    · exact w.reachableUses_eq_pending hr hx
    · have ge := Nat.le_of_not_lt hx
      have none : ∑ y ∈ S.graph.below S.ctx.root \ ∅, S.graph.edges y x = 0 :=
        Finset.sum_eq_zero fun y hy => w.edges_eq_zero_of_le (Nat.le_trans (Nat.le_of_lt
          (Graph.lt_size_of_mem_below (Finset.mem_sdiff.1 hy).1)) ge)
      rw [Graph.pending, none, if_neg fun he : x = S.ctx.root => hx (he ▸ hr),
        Array.getD_eq_getD_getElem?, Array.getElem?_eq_none (Graph.size_reachableUses ▸ ge)]
      rfl

/-! ## The return -/

/-- What the body of a function leaves: the word of the root in the return register,
nothing to be read and nothing in use. -/
structure Finished (S : Setting) (E : Env) (σ₀ σ : State) : Prop where
  stage : ∃ D, Stage S E σ₀ (Pose.entry E) D σ (E.world.course S.graph S.ctx.root)
    (Pose.idle.learn (returnReg (S.graph.tyOf S.ctx.root).regClass) (Reading S.graph S.ctx.root))
  uses : ∀ x, σ.uses x = 0
  counted : Counted S.graph (S.graph.below S.ctx.root \ S.graph.inputs S.ctx.root) σ₀.tally σ.tally

theorem generates_lowerReturn
    (stage : Stage S E σ₀ p₀ D σ R .idle) (hD : S.ctx.root ∈ D)
    (uses : ∀ x, σ.uses x = if x = S.ctx.root then 1 else 0) :
    Generates S (lowerReturn S.ctx) σ fun _ σ' => Reads σ σ' [S.ctx.root] ∧
      Stage S E σ₀ p₀ D σ' R (Pose.idle.learn (returnReg (S.graph.tyOf S.ctx.root).regClass)
        (Reading S.graph S.ctx.root)) := by
  have live : 0 < σ.uses S.ctx.root := by
    rw [uses, if_pos rfl]
    exact Nat.one_pos
  obtain ⟨pl, placed⟩ := stage.inv.placed hD live
  refine .bind (.of_ok (stage.inv.typeOf_eq live) ?_)
  refine .seq placed.operand ?_
  rintro _ _ ⟨rfl, rfl⟩
  have writable : pl ≠ .register (returnReg (S.graph.tyOf S.ctx.root).regClass) →
      Writable σ (returnReg (S.graph.tyOf S.ctx.root).regClass) := fun ne => by
    refine ⟨?_, ?_, fun x hx hu => ?_, fun hs => ?_⟩
    · cases (S.graph.tyOf S.ctx.root).regClass <;> decide
    · cases (S.graph.tyOf S.ctx.root).regClass <;> decide
    · rw [uses] at hu
      split at hu
      · next he =>
        rw [he, placed.place] at hx
        exact ne (Option.some.inj hx)
      · exact absurd hu (Nat.lt_irrefl 0)
    · have unsaved (c : RegClass) : returnReg c ∉ calleeSaved := by cases c <;> decide
      exact absurd hs (unsaved _)
  have of : (returnReg (S.graph.tyOf S.ctx.root).regClass).Of
      (S.graph.tyOf S.ctx.root).regClass := by
    cases (S.graph.tyOf S.ctx.root).regClass <;> decide
  refine .seq (stage.copyTo placed of writable) ?_
  rintro _ σ₁ ⟨coded, stage₁⟩
  have reads := coded.reads
  refine (stage₁.consume (x := S.ctx.root) (reads.uses_eq _ ▸ live) (.of_unlocked rfl)).mono ?_
    fun _ _ he => he
  rintro _ σ₂ ⟨reads₂, stage₂⟩
  exact ⟨reads.trans reads₂, stage₂⟩

theorem generates_lowerBody {g : Graph} {root : NodeId} (w : g.WellFormed) (hr : root < g.size)
    (given : Given (.of g root o) E) :
    Generates (.of g root o) (lowerBody ⟨g, root, o.fuseCompares⟩) (.initial g root o) fun _ σ' =>
      Finished (.of g root o) E (.initial g root o) σ' := by
  have uses (x : NodeId) : (State.initial g root o).uses x = (g.reachableUses root).getD x 0 := by
    rw [State.uses, entry_initial]
  refine .seq (generates_bindParameters given w inv_initial fun r => RegisterFile.owner_new ..) ?_
  rintro _ σ₁ ⟨D, p, bound, hD⟩
  obtain ⟨rfl, ledger⟩ := bound.ledger w hr uses rfl hD
  have start := bound.stage.relax .idle bound.held.symm bound.locks.symm bound.lowered.symm
    (fun _ _ hk => by cases hk) fun _ _ _ => trivial
  have root_mem : root ∈ g.below root := w.self_mem_below hr
  have wanted : 0 < σ₁.uses root := by
    have all := ledger.uses root
    rw [List.count_nil, Nat.add_zero, show (Setting.of g root o).ctx.root = root from rfl,
      Graph.pending, if_pos rfl] at all
    omega
  refine .seq (makes_gen (S := .of g root o) w hr (root + 1) start ledger root_mem
    (Nat.lt_succ_self _) (fun _ h => absurd h (Finset.notMem_empty _)) wanted) ?_
  rintro _ σ₂ made
  have whole : g.inputs root ∪ g.below root = g.below root :=
    Finset.union_eq_right.2 (Finset.filter_subset _ _)
  have uses₂ (x : NodeId) : σ₂.uses x = if x = root then 1 else 0 := by
    have all := made.ledger.uses x
    rw [List.count_nil, Nat.add_zero, show (Setting.of g root o).ctx.root = root from rfl,
      show (Setting.of g root o).graph = g from rfl, whole, Graph.pending, Finset.sdiff_self,
      Finset.sum_empty, Nat.add_zero] at all
    exact all
  refine (generates_lowerReturn made.stage (Finset.mem_union_right _ root_mem) uses₂).mono ?_
    fun _ _ he => he
  rintro _ σ₃ ⟨reads₃, stage₃⟩
  refine ⟨⟨_, stage₃⟩, fun x => ?_, ?_⟩
  · have left : σ₃.uses x + [root].count x = σ₂.uses x := reads₃.uses x
    rw [uses₂, List.count_singleton] at left
    by_cases hx : x = root
    · rw [hx, if_pos rfl, beq_self_eq_true, if_pos rfl] at left
      rw [hx]
      exact Nat.succ.inj left
    · rw [if_neg hx, beq_false_of_ne (Ne.symm hx)] at left
      exact left
  · have counted : Counted g ((g.inputs root ∪ g.below root) \ g.inputs root) σ₁.tally σ₂.tally :=
      made.counted
    rw [whole] at counted
    rw [reads₃.tally, ← bound.reads.tally]
    exact counted

end Lowering

end NativeExpr
