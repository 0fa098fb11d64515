import NativeExpr.Proofs.Canonical

/-!
# Calls on record

The calls of a schedule are those of call nodes that have been found, and a call node that has
been found made its call. Each call passes the words of the arguments of its node, which stay as
they are, and what it gets back is the word of the node.
-/
namespace NativeExpr

open Lowering

namespace Moment

variable {g : Graph} {D D' : Finset NodeId} {m : Moment} {id : NodeId} {w : Word}

/-- What is known of the calls of a moment: each is the call of a node that has been found, with
the words of its arguments and with its result, and each call that has been found was made. -/
structure Recorded (g : Graph) (D : Finset NodeId) (m : Moment) : Prop where
  settled : m.Settled g D
  sent : ∀ e ∈ m.events, ∃ args w, g.node? e.node = some ⟨.call e.target args, e.ret⟩ ∧
    e = eventOf g m e.target args e.ret e.node w ∧ m.found e.node = some e.result
  made : ∀ x target args ret, m.found x ≠ none → g.node? x = some ⟨.call target args, ret⟩ →
    ∃ e ∈ m.events, e.node = x

theorem eventOf_find {target : Word} {args : List NodeId} {ret : ScalarType} {x : NodeId} {u : Word}
    (fresh : id ∉ args) :
    eventOf g (m.find id w) target args ret x u = eventOf g m target args ret x u := by
  have word (y : NodeId) (hy : y ∈ args) : (m.find id w).word y = m.word y := by
    have ne : y ≠ id := fun same => fresh (same ▸ hy)
    rw [Moment.word, Moment.word, show (m.find id w).found y = m.found y from if_neg ne]
  have values : args.map (fun y => ((m.find id w).value g y).unify) =
      args.map fun y => (m.value g y).unify :=
    List.map_congr_left fun y hy => by rw [Moment.value, Moment.value, word y hy]
  rw [eventOf, eventOf, World.callOf, World.callOf, List.map_congr_left word, values]

namespace Recorded

/-- A call that was made is on record still when another node is found. -/
theorem sent_find (h : m.Recorded g D) (closed : g.Closed D) (fresh : id ∉ D) (w : Word) :
    ∀ e ∈ m.events, ∃ args u, g.node? e.node = some ⟨.call e.target args, e.ret⟩ ∧
      e = eventOf g (m.find id w) e.target args e.ret e.node u ∧
      (m.find id w).found e.node = some e.result := by
  intro e he
  obtain ⟨args, u, hn, same, result⟩ := h.sent e he
  have inside : e.node ∈ D := h.settled.inside _ _ result
  have apart : id ∉ args := fun hm =>
    fresh (closed e.node inside id ((Graph.operandsOf_eq hn).symm ▸ hm))
  have ne : e.node ≠ id := fun same => fresh (same ▸ inside)
  refine ⟨args, u, hn, ?_, (if_neg ne).trans result⟩
  rwa [eventOf_find apart]

/-- Finding a node that makes no call leaves what is known of calls. -/
theorem find (h : m.Recorded g D) (closed : g.Closed D) (fresh : id ∉ D)
    (quiet : ∀ target args ret, g.node? id ≠ some ⟨.call target args, ret⟩)
    (settled : (m.find id w).Settled g D') : (m.find id w).Recorded g D' := by
  refine ⟨settled, h.sent_find closed fresh w, fun x target args ret found hn => ?_⟩
  have ne : x ≠ id := fun same => quiet target args ret (same ▸ hn)
  rw [show (m.find id w).found x = m.found x from if_neg ne] at found
  exact h.made x target args ret found hn

theorem call (h : m.Recorded g D) (wf : g.WellFormed) (closed : g.Closed D) (fresh : id ∉ D)
    {target : Word} {args : List NodeId} {ret : ScalarType}
    (hn : g.node? id = some ⟨.call target args, ret⟩)
    (settled : ((m.call (eventOf g m target args ret id w)).find id (ret.settle w)).Settled g D') :
    ((m.call (eventOf g m target args ret id w)).find id (ret.settle w)).Recorded g D' := by
  refine ⟨settled, fun e he => ?_, fun x target' args' ret' found hx => ?_⟩
  · rcases List.mem_cons.1 he with rfl | he
    · have apart : id ∉ args := fun hm => Nat.lt_irrefl _ (wf.operands_lt hn id hm)
      exact ⟨args, w, hn, (eventOf_find (m := m.call _) apart).symm, if_pos rfl⟩
    · exact h.sent_find closed fresh (ret.settle w) e he
  · by_cases same : x = id
    · exact ⟨_, List.mem_cons_self .., same.symm⟩
    · have before : m.found x ≠ none := fun none => found ((if_neg same).trans none)
      obtain ⟨e, he, node⟩ := h.made x target' args' ret' before hx
      exact ⟨e, List.mem_cons_of_mem _ he, node⟩

end Recorded

end Moment

namespace World

variable {ω : World} {g : Graph} {root : NodeId} {o : Except (List Event) Moment}

/-- Whether calls are those of some moment. -/
def Traced (g : Graph) (events : List Event) : Prop :=
  ∃ D, ∃ m : Moment, m.Recorded g D ∧ m.events = events

theorem maintains_recorded (w : g.WellFormed) :
    ω.Maintains g root (fun D m => m.Recorded g D) (Traced g) where
  visit := by
    intro D id n m o _ fresh closed hn _ h ho
    have settled := settled_visit w fresh hn h.settled ho
    rcases visit_cases ho with ⟨u, quiet, rfl⟩ | ⟨target, args, u, kind, -, rfl⟩ | rfl
    · refine h.find closed fresh (fun target args ret made => ?_) settled
      rw [hn] at made
      exact quiet target args (congrArg (fun n => n.kind) (Option.some.inj made))
    · exact h.call w closed fresh (hn.trans (congrArg some (by rw [← kind]))) settled
    · exact ⟨D, m, h, rfl⟩
  choose := by
    intro D s c a b n m m' fork hn kind before _ h
    have settled := (@maintains_settled ω g root w).choose fork hn kind before.settled ‹_› h.settled
    have arm_lt : arm m c a b < g.size :=
      Nat.lt_trans (fork.operand_lt w (Graph.Fork.arm_mem m)) fork.lt_size
    have later := fun hs => fork.notMem_arms w (Graph.Fork.arm_subset m hs)
    refine h.find ((fork.closed_ahead w).union (w.closed_below arm_lt)) later
      (fun target args ret made => ?_) settled
    rw [hn] at made
    cases Option.some.inj made
    cases kind

/-- What is known of the calls of a function, also if a division fails. -/
theorem recorded_course (w : g.WellFormed) (hr : root < g.size)
    (ho : ω.course g root ⟨fun _ => none, []⟩ o) :
    Meets (fun D m => m.Recorded g D) (Traced g) (g.below root) o := by
  refine (maintains_recorded w).course w hr ⟨settled_enter _, nofun, ?_⟩ ho
  intro x target args ret found hn
  obtain ⟨u, hu⟩ := Option.ne_none_iff_exists'.1 found
  obtain ⟨-, i, t, parameter, -⟩ := found_enter hu
  rw [hn] at parameter
  cases parameter

end World

end NativeExpr
