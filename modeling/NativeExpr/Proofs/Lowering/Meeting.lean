import NativeExpr.Proofs.Lowering.Passage

/-!
# What is noted of a conditional

The journal between two states has the nodes that got code in between and the reads that were
made. So the entries for a branch and for the place where the arms meet are sound.
-/
namespace NativeExpr.Lowering

open NativeExpr X64

variable {S : Setting} {E : Env} {σ₀ σ σ' τ : State} {p₀ p : Pose} {R C C' : Course}
variable {D D' D'' B : Finset NodeId} {o : Opened} {x s c a b : NodeId} {r : Reg} {depth : Nat}
variable {cond : Condition} {m m' start after : Mark} {n : Node} {t : Tally}

/-! ## From one state to another -/

theorem mem_loweredBetween {g : Graph} (suffix : σ.journal <:+ σ'.journal)
    (first : m.noted = σ.journal.length) (last : m'.noted = σ'.journal.length)
    (counted : Counted g B t σ'.tally) (generated : t.generatedNodes = σ.tally.generatedNodes)
    (fused : t.fusedNodes = σ.tally.fusedNodes) :
    x ∈ loweredBetween σ'.journal m m' ↔ x ∈ B := by
  obtain ⟨later, same⟩ := suffix
  obtain ⟨made, joined, tally, -, mem, -⟩ := counted.lists
  have made_eq : later.filterMap Note.generated? = made := by
    refine (List.append_left_inj σ.tally.generatedNodes).1 ?_
    have all : σ'.tally.generatedNodes = made ++ t.generatedNodes :=
      congrArg Tally.generatedNodes tally
    rw [← generated, ← all, generated]
    show _ = σ'.journal.filterMap Note.generated?
    rw [← same, List.filterMap_append]
    rfl
  have joined_eq : later.filterMap Note.fused? = joined := by
    refine (List.append_left_inj σ.tally.fusedNodes).1 ?_
    have all : σ'.tally.fusedNodes = joined ++ t.fusedNodes := congrArg Tally.fusedNodes tally
    rw [← fused, ← all, fused]
    show _ = σ'.journal.filterMap Note.fused?
    rw [← same, List.filterMap_append]
    rfl
  rw [loweredBetween, ← same, between_append first (same ▸ last), ← mem, ← made_eq, ← joined_eq]
  simp only [List.mem_filterMap, List.mem_reverse, List.mem_append]
  rw [← exists_or]
  refine exists_congr fun k => ?_
  rw [← and_or_left]
  refine and_congr_right fun _ => ?_
  cases k <;> simp [Note.lowered?, Note.generated?, Note.fused?]

theorem count_readBetween (suffix : σ.journal <:+ σ'.journal) (x : NodeId) :
    (readBetween σ'.journal σ.mark σ'.mark).count x + σ.readsOf x = σ'.readsOf x := by
  obtain ⟨later, same⟩ := suffix
  have last : σ'.mark.noted = (later ++ σ.journal).length := same ▸ rfl
  rw [State.readsOf, State.readsOf, readBetween, ← same, between_append rfl last,
    List.filterMap_append, List.count_append, List.filterMap_reverse, List.count_reverse]

/-! ## The place where the arms meet -/

namespace Legs

variable {σb τa σe τb σj σm : State}
variable (h : Legs S E D σ start o s c a b r depth cond σb τa σe τb σj σm)
include h

theorem suffixes : .forked s start σ.mark :: σ.journal <:+ τa.journal ∧
    τa.journal <:+ τb.journal ∧ τb.journal <:+ σm.journal := by
  obtain ⟨-, second, third, fourth, fifth⟩ := h.precedes
  obtain ⟨asm, rfl⟩ := h.starts
  exact ⟨second.journal, third.journal.trans fourth.journal, fifth.journal⟩

theorem rejoined (hn : S.graph.node? s = some n) (kind : n.kind = .select c a b)
    (fork : S.graph.Fork S.ctx.root D s c a b) (ledger : Ledger S D (o.enter s [c]) σ)
    (inv : Inv S D σ p) (closingA : Closing S D s c a b a) (closingB : Closing S D s c a b b)
    (apart : ∀ y ∈ S.graph.below a, y ∈ S.graph.below b → y ∈ D) :
    Rejoined S.graph S.ctx.root D s c a b ⟨r, σ.mark, τa.mark, τb.mark, after⟩ σm.journal := by
  obtain ⟨before, between, behind⟩ := h.suffixes
  have before' : σ.journal <:+ τa.journal := (List.suffix_cons ..).trans before
  have unread {x : NodeId} (hD : x ∉ D) : σ.uses x = S.graph.pending S.ctx.root D x := by
    have uses := ledger.uses x
    rwa [List.count_eq_zero_of_not_mem fun hm => hD (ledger.reads_done x hm)] at uses
  have readsA := h.first.stage.grows.reads
  have readsB := h.second.stage.grows.reads
  have countedA := h.first.counted
  have countedB := h.second.counted
  obtain ⟨asm₁, rfl⟩ := h.starts
  obtain ⟨asm₂, rfl⟩ := h.again
  refine ⟨⟨n, hn, kind⟩, fork, ⟨start, ?_⟩, ledger.remaining_eq inv, apart,
    ⟨before'.length_le, between.length_le, behind.length_le⟩, fun x => ?_, fun x => ?_,
    fun x hx => ?_, fun x hx => ?_⟩
  · exact ((before.trans between).trans behind).subset (List.mem_cons_self ..)
  · rw [loweredBetween, between_of_suffix (between.trans behind) (Nat.le_refl _),
      ← Finset.union_sdiff_left]
    exact mem_loweredBetween before' rfl rfl countedA rfl rfl
  · rw [loweredBetween, between_of_suffix behind (Nat.le_refl _), ← Finset.union_sdiff_left]
    exact mem_loweredBetween between rfl rfl countedB rfl rfl
  · obtain ⟨below, hD⟩ := Finset.mem_sdiff.1 hx
    rw [readBetween, between_of_suffix (between.trans behind) (Nat.le_refl _)]
    have count := count_readBetween before' x
    have dead := closingA.dead h.first.ledger below hD
    have reads : τa.uses x + τa.readsOf x = σ.uses x + σ.readsOf x := readsA x
    rw [← unread hD]
    exact (by omega : (readBetween τa.journal σ.mark τa.mark).count x = σ.uses x)
  · obtain ⟨below, hD⟩ := Finset.mem_sdiff.1 hx
    rw [readBetween, between_of_suffix behind (Nat.le_refl _)]
    have count := count_readBetween between x
    have dead := closingB.dead h.second.ledger below hD
    have reads : τb.uses x + τb.readsOf x = σ.uses x + τa.readsOf x := readsB x
    rw [← unread hD]
    exact (by omega : (readBetween τb.journal τa.mark τb.mark).count x = σ.uses x)

theorem agrees (closing : Closing S D s c a b a) (hr : r.Valid) :
    (meeting r σ τa τb σm).Agrees := by
  have inv := h.inv closing
  refine ⟨hr, ?_, fun {x} hx => ?_, fun {q} hq => ?_⟩
  · have owned {B : Finset NodeId} {σ : State} {P : Moment → Word → Prop}
        (inv : Inv S B σ ((Pose.idle.hand r (some .temp)).learn r P)) :
        σ.regs.owner r = some .temp := inv.held hr Pose.held_hand
    simp only [List.mem_cons, List.not_mem_nil, or_false]
    rintro _ (rfl | rfl | rfl)
    · exact owned h.first.stage.inv
    · exact owned h.second.stage.inv
    · exact owned inv
  · obtain ⟨-, liveB, first, joined⟩ := h.live hx
    have second : τb.place x = σ.place x := by
      refine (h.second.back x liveB).trans ?_
      obtain ⟨asm, rfl⟩ := h.again
      rfl
    simp only [List.mem_cons, List.not_mem_nil, or_false]
    rintro _ (rfl | rfl | rfl)
    · exact first
    · exact second
    · exact joined
  · refine (inv.regular.used_iff hq).trans ?_
    by_cases same : q = r
    · rw [same, inv.held hr Pose.held_hand]
      exact iff_of_true (Option.some_ne_none _) (.inl rfl)
    have unheld : ((Pose.idle.hand r (some .temp)).learn r (Picked S.graph c a b)).held q = none :=
      Pose.held_hand_of_ne same
    refine Iff.trans ?_ (or_iff_right same).symm
    constructor
    · intro used
      cases own : σm.regs.owner q with
      | none => exact absurd own used
      | some owner =>
        cases owner with
        | temp =>
          rw [inv.temp hq own] at unheld
          cases unheld
        | value x => exact ⟨x, (inv.owned hq unheld).1 own⟩
    · rintro ⟨x, placed⟩
      rw [(inv.owned hq unheld).2 placed]
      exact Option.some_ne_none _

end Legs

end NativeExpr.Lowering
