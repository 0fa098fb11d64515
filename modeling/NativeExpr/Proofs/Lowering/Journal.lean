import NativeExpr.Proofs.Graph.Construction
import NativeExpr.Proofs.Lowering.Body

/-!
# The journal of a generated function

Whether generation succeeds or fails, its journal tells of every node that was asked
for, every read and every pair of arms that was combined. The entries show that the
two tables of lowering always agree and that no count of reads is ever lowered below
zero, and after a success that every node that the root needs was lowered once.
-/
namespace NativeExpr

open Lowering X64

namespace Graph

/-- How the lowering of a root ends, if the graph has it. -/
def lowering (g : Graph) (root : NodeId) (o : Options) :
    Option (EStateM.Result CompileError Lowering.State Unit) :=
  match g.node root with
  | .ok _ => some (lowerBody ⟨g, root, o.fuseCompares⟩ (.initial g root o))
  | .error _ => none

/-- Everything that was noted while a root was lowered, the latest first. -/
def journal (g : Graph) (root : NodeId) (o : Options) : List Note :=
  match g.lowering root o with
  | some (.ok _ s) | some (.error _ s) => s.journal
  | none => []

/-- The nodes that got code of their own. -/
def generatedNodes (g : Graph) (root : NodeId) (o : Options) : List NodeId :=
  (g.journal root o).filterMap Note.generated?

/-- The comparisons that became part of a branch. -/
def fusedNodes (g : Graph) (root : NodeId) (o : Options) : List NodeId :=
  (g.journal root o).filterMap Note.fused?

end Graph

namespace Lowering

/-- The tables when a node was asked for or was done. -/
def Note.tables? : Note → Option Tables
  | .entered _ tables | .answered _ tables => some tables
  | _ => none

namespace Tables.Agree

variable {g : Graph} {t : Tables} {x y : NodeId} {r : Reg} (h : t.Agree g)
include h

theorem eq_of_register (hx : (t.values.entry x).storage = some (.register r))
    (ux : 0 < (t.values.entry x).usesLeft) (hy : (t.values.entry y).storage = some (.register r))
    (uy : 0 < (t.values.entry y).usesLeft) : x = y := by
  have := (h.owner_of_register hx ux).symm.trans (h.owner_of_register hy uy)
  cases this
  rfl

theorem isAllocated_of_register (hx : (t.values.entry x).storage = some (.register r))
    (ux : 0 < (t.values.entry x).usesLeft) : t.regs.isAllocated r = true := by
  rw [h.allocated_iff (h.register_of hx ux).1, h.owner_of_register hx ux]
  exact Option.some_ne_none _

end Tables.Agree

end Lowering

namespace Graph

variable {g : Graph} {root : NodeId} {o : Options} {c : Generated}

/-! ## How generation goes -/

theorem exists_given (S : Setting) : ∃ E : Env, Given S E := by
  let start : Machine.State :=
    ⟨Vector.replicate 16 0, Vector.replicate 16 0, .clear, fun _ => 0, 0⟩
  let bare : Env :=
    { site := ⟨⟨0, 0, fun _ => none⟩, #[], 0, .new 0, fun _ _ => True, fun _ => True⟩
      journal := []
      stack := ⟨0, 0, 0, [], fun _ => false, fun _ => False, 0⟩
      world := ⟨fun _ => 0, fun _ _ _ => False, fun _ _ => 0, fun _ => false⟩
      start
      pushed := fun _ => 0
      spared := fun _ => False
      noted := fun _ _ => True }
  refine ⟨{ bare with world.param := fun i => (S.locations[i]?.map bare.incoming).getD 0 },
    fun i l hl => ?_⟩
  show _ = (S.locations[i]?.map bare.incoming).getD 0
  rw [hl]
  cases l <;> rfl

theorem exists_lowering {result : EStateM.Result CompileError Lowering.State Unit}
    (h : g.lowering root o = some result) :
    root < g.size ∧ lowerBody ⟨g, root, o.fuseCompares⟩ (.initial g root o) = result := by
  unfold lowering at h
  cases hn : g.node root with
  | error e =>
    rw [hn] at h
    cases h
  | ok n =>
    rw [hn] at h
    exact ⟨node?_lt (node_eq_ok.1 hn), Option.some.inj h⟩

theorem generate_eq_ok (h : g.generate root o = .ok c) :
    ∃ s body image, g.lowering root o = some (.ok () s) ∧ s.asm.finalize = .ok body ∧
      s.finalFrame.assemble body o.codeCapacity = .ok image ∧ c = ⟨image, { s.stats with
        registers := s.regs.served
        instructions := s.asm.count
        patched := body.patched }⟩ := by
  unfold generate at h
  unfold lowering
  cases hn : g.node root with
  | error e =>
    rw [hn] at h
    cases h
  | ok n =>
    rw [hn] at h
    dsimp only [bind, Except.bind] at h ⊢
    cases hb : lowerBody ⟨g, root, o.fuseCompares⟩ (.initial g root o) with
    | error e s =>
      rw [hb] at h
      cases h
    | ok u s =>
      rw [hb] at h
      dsimp only at h
      cases hf : s.asm.finalize with
      | error e =>
        rw [hf] at h
        cases h
      | ok body =>
        rw [hf] at h
        dsimp only at h
        cases ha : s.finalFrame.assemble body o.codeCapacity with
        | error e =>
          rw [ha] at h
          cases h
        | ok image =>
          rw [ha] at h
          cases h
          exact ⟨s, body, image, rfl, hf, ha, rfl⟩

theorem Built.finished_of {s : Lowering.State} {E : Env} (built : g.Built)
    (h : g.lowering root o = some (.ok () s)) (given : Given (.of g root o) E) :
    Finished (.of g root o) E (.initial g root o) s := by
  obtain ⟨hr, run⟩ := exists_lowering h
  have body := generates_lowerBody built.wellFormed hr given
  rwa [Generates, Yields, run] at body

/-- What a successful lowering leaves, whatever the surroundings are. -/
theorem Built.finished {s : Lowering.State} (built : g.Built)
    (h : g.lowering root o = some (.ok () s)) :
    ∃ E, Finished (.of g root o) E (.initial g root o) s := by
  obtain ⟨E, given⟩ := exists_given (.of g root o)
  exact ⟨E, built.finished_of h given⟩

theorem Built.permitted {s : Lowering.State} {e : CompileError} (built : g.Built)
    (h : g.lowering root o = some (.error e s)) :
    Permitted (.of g root o) e ∧ Clean g root s.journal := by
  obtain ⟨hr, run⟩ := exists_lowering h
  obtain ⟨E, given⟩ := exists_given (.of g root o)
  have body := generates_lowerBody built.wellFormed hr given
  rw [Generates, Yields, run] at body
  exact body

theorem Built.clean (built : g.Built) : Clean g root (g.journal root o) := by
  rw [journal]
  split
  · next s hs =>
    obtain ⟨E, finished⟩ := built.finished hs
    obtain ⟨D, stage⟩ := finished.stage
    exact stage.inv.clean.sound
  · next e s hs => exact (built.permitted hs).2
  · trivial

/-- Whatever is in the journal is sound, given what was noted before. -/
theorem Built.sound (built : g.Built) {n : Note} (noted : n ∈ g.journal root o) :
    ∃ earlier, n :: earlier <:+ g.journal root o ∧ n.Sound g root earlier := by
  obtain ⟨earlier, suffix⟩ := exists_suffix_of_mem noted
  exact ⟨earlier, suffix, built.clean.of_suffix suffix⟩

/-! ## A small function -/

/-- The distance of two numbers: one of their differences, as a comparison decides. -/
def distance : Graph where
  nodes := #[⟨.parameter 0, .i64⟩, ⟨.parameter 1, .i64⟩, ⟨.compare .lt 0 1, .bool⟩,
    ⟨.arith .sub 1 0, .i64⟩, ⟨.arith .sub 0 1, .i64⟩, ⟨.select 2 3 4, .i64⟩]
  params := [0, 1]
  parents := #[3, 3, 1, 1, 1, 0]

theorem built_distance : distance.Built :=
  .of_built? [.i64, .i64]
    [.compare .lt 0 1, .arith .sub 1 0, .arith .sub 0 1, .select 2 3 4] (by decide +kernel)

theorem exists_generate_distance : ∃ c, distance.generate 5 .default = .ok c := by
  have made : (distance.generate 5 .default).isOk = true := by decide +kernel
  cases hc : distance.generate 5 .default with
  | error e =>
    rw [hc] at made
    cases made
  | ok c => exact ⟨c, rfl⟩

/-! ## The tables -/

/-- Whenever a node is asked for or is done, at any depth and in either arm, the registers and
the places of values agree. -/
theorem tables_agree (built : g.Built) {n : Note} (noted : n ∈ g.journal root o) {t : Tables}
    (asked : n.tables? = some t) :
    t.Agree g ∧
      (∀ {x y r}, (t.values.entry x).storage = some (.register r) →
        0 < (t.values.entry x).usesLeft → (t.values.entry y).storage = some (.register r) →
        0 < (t.values.entry y).usesLeft → x = y) ∧
      ∀ {x r}, (t.values.entry x).storage = some (.register r) →
        0 < (t.values.entry x).usesLeft → t.regs.isAllocated r = true := by
  have agree : t.Agree g := by
    obtain ⟨_, -, sound⟩ := built.sound noted
    cases n with
    | entered id tables | answered id tables =>
      cases asked
      exact sound
    | generated | fused | read | merged | forked | joined => cases asked
  exact ⟨agree, agree.eq_of_register, agree.isAllocated_of_register⟩

theorem tables_agree_distance :
    ∃ n ∈ distance.journal 5 .default, ∃ t, n.tables? = some t ∧ t.Agree distance := by
  have some : ((distance.journal 5 .default).findSome? Note.tables?).isSome = true := by
    decide +kernel
  obtain ⟨t, ht⟩ := Option.isSome_iff_exists.1 some
  obtain ⟨n, noted, asked⟩ := List.exists_of_findSome?_eq_some ht
  exact ⟨n, noted, t, asked, (tables_agree built_distance noted asked).1⟩

/-! ## Each node once -/

/-- A set of nodes without those that are not in a list, counted along the list. -/
theorem countP_eq_card {L : List NodeId} {B : Finset NodeId} (nodup : L.Nodup)
    (mem : ∀ x, x ∈ L ↔ x ∈ B) (p : NodeId → Bool) :
    L.countP p = (B.filter fun x => p x = true).card := by
  have same : B.filter (fun x => p x = true) = (L.filter p).toFinset := by
    ext x
    rw [Finset.mem_filter, List.mem_toFinset, List.mem_filter, mem]
  rw [same, List.toFinset_card_of_nodup (nodup.filter p), List.countP_eq_length_filter]

theorem not_isSelect_of_isCompare {x : NodeId} (h : g.isCompare x = true) :
    g.isSelect x = false := by
  unfold isCompare at h
  unfold isSelect
  split at h
  · next hk => rw [hk]
  · cases h

theorem not_isCall_of_isCompare {x : NodeId} (h : g.isCompare x = true) : g.isCall x = false := by
  unfold isCompare at h
  unfold isCall
  split at h
  · next hk => rw [hk]
  · cases h

theorem not_isParameter {x : NodeId} (h : g.isSelect x = true ∨ g.isCall x = true) :
    g.isParameter x = false := by
  unfold isSelect isCall at h
  unfold isParameter
  split
  · next hk =>
    rw [hk] at h
    rcases h with h | h <;> cases h
  · rfl

/-- Those nodes have code that the root needs and that are not parameters, each once, and they
are what was counted. -/
theorem Built.lists {s : Lowering.State} (built : g.Built)
    (lowered : g.lowering root o = some (.ok () s)) :
    s.tally = (State.initial g root o).tally.add g (g.generatedNodes root o) (g.fusedNodes root o) ∧
      (g.generatedNodes root o ++ g.fusedNodes root o).Nodup ∧
      (∀ x, x ∈ g.generatedNodes root o ++ g.fusedNodes root o ↔
        x ∈ g.below root ∧ g.isParameter x = false) ∧
      ∀ x ∈ g.fusedNodes root o, g.isCompare x = true := by
  obtain ⟨E, finished⟩ := built.finished lowered
  obtain ⟨made, fused, tally, nodup, mem, compare⟩ := finished.counted.lists
  have tally : s.tally = (State.initial g root o).tally.add g made fused := tally
  have noted : g.journal root o = s.journal := by rw [journal, lowered]
  have code : g.generatedNodes root o = made := by
    rw [generatedNodes, noted]
    exact (congrArg Tally.generatedNodes tally).trans (List.append_nil made)
  have branches : g.fusedNodes root o = fused := by
    rw [fusedNodes, noted]
    exact (congrArg Tally.fusedNodes tally).trans (List.append_nil fused)
  rw [code, branches]
  refine ⟨tally, nodup, fun x => ?_, compare⟩
  have all : x ∈ made ++ fused ↔ x ∈ g.below root \ g.inputs root := mem x
  rw [all, Finset.mem_sdiff]
  refine and_congr_right fun hx => ?_
  rw [inputs, Finset.mem_filter, and_iff_right hx, Bool.not_eq_true]

/-- In a generated function each node that the root needs has code of its own, once in both
arms of all conditionals together, or it is a comparison that became part of one branch. -/
theorem lowered_once (built : g.Built) (generated : g.generate root o = .ok c) :
    ∃ R : Finset NodeId, (∀ x, x ∈ R ↔ g.Reaches root x) ∧
      (g.generatedNodes root o ++ g.fusedNodes root o).Nodup ∧
      (∀ x, x ∈ g.generatedNodes root o ++ g.fusedNodes root o ↔
        x ∈ R ∧ g.isParameter x = false) ∧
      (∀ x ∈ g.fusedNodes root o, g.isCompare x = true) ∧
      c.stats.nodes = (g.generatedNodes root o).length ∧
      c.stats.fused = (g.fusedNodes root o).length ∧
      c.stats.nodes + c.stats.fused = (R.filter fun x => g.isParameter x = false).card ∧
      c.stats.conditionals = (R.filter fun x => g.isSelect x = true).card ∧
      c.stats.calls = (R.filter fun x => g.isCall x = true).card ∧
      c.stats.patched = 2 * c.stats.conditionals := by
  obtain ⟨s, body, image, lowered, finalized, -, rfl⟩ := generate_eq_ok generated
  have hr := (exists_lowering lowered).1
  obtain ⟨tally, nodup, mem, compare⟩ := built.lists lowered
  have nodes : s.stats.nodes = (g.generatedNodes root o).length :=
    (congrArg Tally.nodes tally).trans (Nat.zero_add _)
  have fuses : s.stats.fused = (g.fusedNodes root o).length :=
    (congrArg Tally.fused tally).trans (Nat.zero_add _)
  have selects : s.stats.conditionals = (g.generatedNodes root o).countP g.isSelect :=
    (congrArg Tally.conditionals tally).trans (Nat.zero_add _)
  have calls : s.stats.calls = (g.generatedNodes root o).countP g.isCall :=
    (congrArg Tally.calls tally).trans (Nat.zero_add _)
  have branches : s.asm.buffer.pending.size = 2 * (g.generatedNodes root o).countP g.isSelect :=
    (congrArg Tally.branches tally).trans (Nat.zero_add _)
  -- nodes of a kind that is never part of a branch are all in the list of those with code
  have kinds {p : NodeId → Bool} (apart : ∀ x, g.isCompare x = true → p x = false)
      (inner : ∀ x, p x = true → g.isParameter x = false) :
      (g.generatedNodes root o).countP p = ((g.below root).filter fun x => p x = true).card := by
    have all := countP_eq_card (B := (g.below root).filter fun x => g.isParameter x = false) nodup
      (fun x => by rw [mem, Finset.mem_filter]) p
    have none : (g.fusedNodes root o).countP p = 0 := List.countP_eq_zero.2 fun x hx => by
      rw [apart x (compare x hx)]
      exact Bool.false_ne_true
    rw [List.countP_append, none, Nat.add_zero, Finset.filter_filter] at all
    rw [all]
    congr 1
    exact Finset.filter_congr fun x _ => and_iff_right_of_imp (inner x)
  refine ⟨g.below root, fun x => built.wellFormed.mem_below hr, nodup, mem, compare, nodes, fuses,
    ?_, ?_, ?_, ?_⟩
  · show s.stats.nodes + s.stats.fused = _
    rw [nodes, fuses, ← List.length_append, ← List.toFinset_card_of_nodup nodup]
    congr 1
    ext x
    rw [List.mem_toFinset, mem, Finset.mem_filter]
  · show s.stats.conditionals = _
    rw [selects]
    exact kinds (fun x => not_isSelect_of_isCompare) fun x hx => not_isParameter (.inl hx)
  · show s.stats.calls = _
    rw [calls]
    exact kinds (fun x => not_isCall_of_isCompare) fun x hx => not_isParameter (.inr hx)
  · show body.patched = 2 * s.stats.conditionals
    rw [selects, ← branches]
    exact CodeBuffer.patched_of_finalize finalized

theorem lowered_once_distance : ∃ c, distance.generate 5 .default = .ok c ∧
    (distance.generatedNodes 5 .default ++ distance.fusedNodes 5 .default).Nodup ∧
    2 ∈ distance.fusedNodes 5 .default ∧ c.stats.patched = 2 * c.stats.conditionals := by
  obtain ⟨c, hc⟩ := exists_generate_distance
  obtain ⟨R, -, nodup, -, -, -, -, -, -, -, patched⟩ := lowered_once built_distance hc
  exact ⟨c, hc, nodup, by decide +kernel, patched⟩

/-- The arms of a conditional that a generated function needs have met. -/
theorem Built.exists_joined {s d a b : NodeId} {n : Node} (built : g.Built)
    (generated : g.generate root o = .ok c) (needed : g.Reaches root s) (hn : g.node? s = some n)
    (kind : n.kind = .select d a b) : ∃ m, .joined s m ∈ g.journal root o := by
  obtain ⟨σ, _, _, lowered, -⟩ := generate_eq_ok generated
  obtain ⟨-, -, mem, compare⟩ := built.lists lowered
  have select : g.isSelect s = true := by rw [isSelect, hn, Option.map_some, kind]
  have below := (built.wellFormed.mem_below (exists_lowering lowered).1).2 needed
  rcases List.mem_append.1 ((mem s).2 ⟨below, not_isParameter (.inl select)⟩) with made | fused
  · obtain ⟨entry, noted, same⟩ := List.mem_filterMap.1 made
    cases entry with
    | generated =>
      cases same
      obtain ⟨earlier, suffix, sound⟩ := built.sound noted
      obtain ⟨m, met⟩ := sound n d a b hn kind
      exact ⟨m, suffix.subset (List.mem_cons_of_mem _ met)⟩
    | _ => cases same
  · rw [not_isSelect_of_isCompare (compare s fused)] at select
    cases select

/-! ## The counts of reads -/

/-- No count of reads falls below zero, neither at a read nor where two arms meet, and in the
end no read is to come and no register is in use. -/
theorem reads_balance (built : g.Built) :
    (∀ {x left}, Note.read x left ∈ g.journal root o → 0 < left) ∧
      (∀ {x before thenLeft elseLeft}, Note.merged x before thenLeft elseLeft ∈ g.journal root o →
        before ≤ thenLeft + elseLeft) ∧
      ∀ {s}, g.lowering root o = some (.ok () s) →
        (∀ x, (s.values.entry x).usesLeft = 0) ∧
        ∀ r : Reg, r.Valid → s.regs.isAllocated r = false ∧ s.regs.isLocked r = false := by
  refine ⟨fun noted => ?_, fun noted => ?_, fun {s} lowered => ?_⟩
  · obtain ⟨_, -, sound⟩ := built.sound noted
    exact sound
  · obtain ⟨_, -, sound⟩ := built.sound noted
    exact sound
  obtain ⟨E, finished⟩ := built.finished lowered
  obtain ⟨D, stage⟩ := finished.stage
  refine ⟨finished.uses, fun r hr => ?_⟩
  have agree : Tables.Agree g ⟨s.regs, s.values⟩ := stage.inv.agree rfl rfl
  refine ⟨?_, (agree.unlocked hr).1⟩
  rw [← Bool.not_eq_true, agree.allocated_iff hr, not_not]
  cases ho : s.regs.owner r with
  | none => rfl
  | some owner =>
    cases owner with
    | temp => exact absurd ho (agree.noTemporary hr)
    | value x =>
      have live : 0 < s.uses x := (agree.register_of_owner hr ho).2
      rw [finished.uses] at live
      exact absurd live (Nat.lt_irrefl 0)

theorem reads_balance_distance :
    (∃ x left, Note.read x left ∈ distance.journal 5 .default ∧ 0 < left) ∧
      ∃ s, distance.lowering 5 .default = some (.ok () s) ∧
        ∀ x, (s.values.entry x).usesLeft = 0 := by
  obtain ⟨reads, -, all⟩ := @reads_balance distance 5 .default built_distance
  constructor
  · have some : ((distance.journal 5 .default).findSome? Note.read?).isSome = true := by
      decide +kernel
    obtain ⟨x, hx⟩ := Option.isSome_iff_exists.1 some
    obtain ⟨n, noted, hn⟩ := List.exists_of_findSome?_eq_some hx
    cases n <;> cases hn
    exact ⟨x, _, noted, reads noted⟩
  · obtain ⟨c, hc⟩ := exists_generate_distance
    obtain ⟨s, _, _, lowered, -⟩ := generate_eq_ok hc
    exact ⟨s, lowered, (all lowered).1⟩

end Graph

end NativeExpr
