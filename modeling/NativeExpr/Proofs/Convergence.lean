import NativeExpr.Proofs.Safety

/-!
# Where two arms meet

Each arm of a conditional may spill values, make calls and hold conditionals of its own. Where the
arms meet, the tables of both agree: what is still to be read is where it was at the branch, the
result is in one register, and no other register is in use. A function that was entered and comes
to the branch goes through the arm that the condition selects. At the end of the arm, and again
where the arms have met, the words in the machine are those that the tables tell of.
-/
namespace NativeExpr

open X64 Machine Lowering

namespace Graph

variable {g : Graph} {root s : NodeId} {o : Options} {ω : World} {h : Host}
variable {noted : Call → Machine.State → Prop} {s₀ : Machine.State} {k : Generated}
variable {start branch : Mark} {n : Nat} {c₁ : Config}

/-- Every conditional whose arms met came to its branch before. -/
theorem Built.forked_of_joined {m : Meeting} (built : g.Built)
    (noted : .joined s m ∈ g.journal root o) :
    ∃ start, .forked s start m.branch ∈ g.journal root o := by
  obtain ⟨earlier, suffix, -, D, c, a, b, joined⟩ := built.sound noted
  obtain ⟨start, before⟩ := joined.forked
  exact ⟨start, suffix.subset (List.mem_cons_of_mem _ before)⟩

/-- A run that comes to the branch of a conditional crosses the conditional. -/
theorem Built.crosses (built : g.Built) (generated : g.generate root o = .ok k)
    (compact : g.Compact root k.image) (entered : g.Entered ω h noted root k.image s₀)
    (forked : .forked s start branch ∈ g.journal root o)
    (steps : Steps h k.image.bytes n ⟨[], s₀⟩ c₁)
    (reached : branch.Reached h k.image.prologueSize c₁) :
    ∃ m, .joined s m ∈ g.journal root o ∧ m.branch = branch ∧
      m.Crosses g root ω noted h k.image.bytes k.image.prologueSize s c₁ := by
  obtain ⟨σ, _, _, lowered, -⟩ := generate_eq_ok generated
  obtain ⟨E, finished⟩ := built.finished lowered
  obtain ⟨D, stage⟩ := finished.stage
  have journal_eq : g.journal root o = σ.journal := by rw [journal, lowered]
  let watch (c : Config) : Prop := ∀ s start branch, .forked s start branch ∈ σ.journal →
    branch.Reached h k.image.prologueSize c → ∃ m, .joined s m ∈ σ.journal ∧ m.branch = branch ∧
      m.Crosses g root ω noted h k.image.bytes k.image.prologueSize s c
  let part (permits : Machine.State → Instruction → Prop) : Site :=
    ⟨h, k.image.bytes, k.image.prologueSize, σ.buffer, permits, watch⟩
  have inside permits : (part permits).Sound :=
    built.inside generated lowered entered.loaded permits watch
  have branches {s start branch} (forked : .forked s start branch ∈ σ.journal) :=
    stage.inv.clean.branches forked
  -- where a run crosses a conditional it is at the branch of no other one
  have watches (s : NodeId) (m : Meeting) (c : Config) (joined : .joined s m ∈ σ.journal)
      (reached : m.branch.Reached h k.image.prologueSize c)
      (crosses : m.Crosses g root ω noted h k.image.bytes k.image.prologueSize s c) : watch c := by
    intro s' start' branch' forked' reached'
    obtain ⟨start, forked⟩ := built.forked_of_joined (journal_eq ▸ joined)
    have forked : .forked s start m.branch ∈ σ.journal := journal_eq ▸ forked
    have offset := (inside fun _ _ => True).address_inj (branches forked).lt_size.le
      (branches forked').lt_size.le (reached.symm.trans reached')
    obtain ⟨rfl, rfl⟩ := stage.inv.clean.sound.forked_inj forked forked' offset
    exact ⟨m, joined, rfl, crosses⟩
  obtain ⟨L, rfl, code, -, watched, a, c', out, -, finishes, -⟩ :=
    built.runs_watched generated lowered compact entered watches
  have forked : .forked s start branch ∈ σ.journal := journal_eq ▸ forked
  have covers : (part L.permits).Covers σ.buffer := ⟨stage.inv.begun, [], .refl⟩
  obtain ⟨⟨i, length, decoded, jumps⟩, running, own⟩ :=
    covers.decodeAt_branch (inside L.permits) (branches forked) reached
  have minds := (finishes.reached (code ▸ steps)).1 running
  have watch : L.watch c₁ := (minds own i length (code ▸ decoded)).2 jumps
  rw [watched] at watch
  exact journal_eq ▸ watch s start branch forked reached

/-- Where the arms of a conditional meet their tables agree, also if generation fails later. All
conditionals that a generated function needs have met. A run of the function that comes to the
branch of one crosses it as the tables tell. -/
theorem arms_meet (built : g.Built) :
    (∀ {s m}, .joined s m ∈ g.journal root o →
      m.Agrees ∧ ∃ start, .forked s start m.branch ∈ g.journal root o) ∧
    ∀ {k}, g.generate root o = .ok k →
      (∀ {s n c a b}, g.Reaches root s → g.node? s = some n → n.kind = .select c a b →
        ∃ m, .joined s m ∈ g.journal root o) ∧
      ∀ {ω h noted s₀}, g.Compact root k.image → g.Entered ω h noted root k.image s₀ →
        ∀ {s start branch}, .forked s start branch ∈ g.journal root o →
          ∀ {n c₁}, Steps h k.image.bytes n ⟨[], s₀⟩ c₁ →
            branch.Reached h k.image.prologueSize c₁ →
              ∃ m, .joined s m ∈ g.journal root o ∧ m.branch = branch ∧
                m.Crosses g root ω noted h k.image.bytes k.image.prologueSize s c₁ := by
  refine ⟨fun joined => ⟨?_, built.forked_of_joined joined⟩, fun generated => ⟨?_, ?_⟩⟩
  · obtain ⟨earlier, suffix, agrees, -⟩ := built.sound joined
    exact agrees
  · intro s n c a b needed hn kind
    exact built.exists_joined generated needed hn kind
  · intro ω h noted s₀ compact entered s start branch forked n c₁ steps reached
    exact built.crosses generated compact entered forked steps reached

/-- The product of two numbers, which is found first, and the greater one or the square of the
lesser one. -/
def detour : Graph where
  nodes := #[⟨.parameter 0, .f64⟩, ⟨.parameter 1, .f64⟩, ⟨.compare .lt 0 1, .bool⟩,
    ⟨.call 0x100000200000 [0], .f64⟩, ⟨.select 2 3 1, .f64⟩, ⟨.arith .mul 0 1, .f64⟩,
    ⟨.arith .add 5 4, .f64⟩]
  params := [0, 1]
  parents := #[3, 3, 1, 1, 1, 1, 0]

theorem built_detour : detour.Built :=
  .of_built? [.f64, .f64]
    [.compare .lt 0 1, .call 0x100000200000 [0] .f64, .select 2 3 1, .arith .mul 0 1,
     .arith .add 5 4] (by decide +kernel)

/-- An entry with 1.0 and 2.0. -/
def detourEntry : Machine.State :=
  entryState .zero [.f64, .f64] [0x3ff0000000000000, 0x4000000000000000]

/-- Whether code comes to the branch of a conditional after so many steps. -/
def branchesAfter (g : Graph) (root : NodeId) (o : Options) (s : NodeId) (h : Host)
    (s₀ : Machine.State) (n : Nat) (k : Generated) : Bool :=
  (advance h k.image.bytes n ⟨[], s₀⟩).any fun c₁ => (g.journal root o).any fun
    | .forked s' _ branch => decide (s' = s ∧ branch.Reached h k.image.prologueSize c₁)
    | _ => false

theorem of_branchesAfter (branches : g.branchesAfter root o s h s₀ n k = true) :
    ∃ c₁, Steps h k.image.bytes n ⟨[], s₀⟩ c₁ ∧
      ∃ start branch, .forked s start branch ∈ g.journal root o ∧
        branch.Reached h k.image.prologueSize c₁ := by
  obtain ⟨c₁, far, any⟩ := (Option.any_eq_true ..).1 branches
  obtain ⟨entry, noted, holds⟩ := List.any_eq_true.1 any
  split at holds
  · obtain ⟨rfl, reached⟩ := of_decide_eq_true holds
    exact ⟨c₁, steps_of_advance far, _, _, noted, reached⟩
  · cases holds

/-- Whether a value that is still to be read after the arms is in one register at the branch and
at the ends of both arms, but in a slot once the first arm has made a call. -/
def isRestored (journal : List Note) (m : Meeting) (x called : NodeId) (r : Reg) (slot : Int) :
    Bool :=
  ([m.branch, m.thenEnd, m.elseEnd, m.after].all fun mark => decide
    ((mark.tables.values.entry x).storage = some (.register r) ∧
      0 < (mark.tables.values.entry x).usesLeft)) &&
  (between journal m.branch m.thenEnd).any fun
    | .answered id t => decide (id = called ∧ (t.values.entry x).storage = some (.stack slot))
    | _ => false

theorem isRestored_detour {m : Meeting} (joined : .joined 4 m ∈ detour.journal 6 .default) :
    isRestored (detour.journal 6 .default) m 5 3 (.xmm 2) (-24) = true := by
  have all : (detour.journal 6 .default).all (fun
      | .joined 4 m => isRestored (detour.journal 6 .default) m 5 3 (.xmm 2) (-24)
      | _ => true) = true := by decide +kernel
  exact List.all_eq_true.1 all _ joined

/-- The product is spilled for the call in the first arm and comes back at the end of it. -/
theorem arms_meet_detour : ∃ c, detour.generate 6 .default = .ok c ∧
    ∃ m, .joined 4 m ∈ detour.journal 6 .default ∧ m.Agrees ∧
      isRestored (detour.journal 6 .default) m 5 3 (.xmm 2) (-24) = true ∧
      ∃ n c₁, Steps square.alone c.image.bytes n ⟨[], detourEntry⟩ c₁ ∧
        m.Crosses detour 6 (detour.anything detourEntry) (fun _ _ => True) square.alone
          c.image.bytes c.image.prologueSize 4 c₁ := by
  obtain ⟨c, hc, frame, size⟩ :=
    exists_of_isSmall (show detour.isSmall 6 .default = true by decide +kernel)
  have calls : detour.callRoom 6 = 8 := by decide +kernel
  have params : detour.paramRoom = 0 := by decide +kernel
  have only : ∀ n ∈ detour.nodes, ∀ t a, n.kind = .call t a → t = 0x100000200000 := by
    simp [detour]
  have loaded : Loaded square.alone c.image.bytes detourEntry :=
    square.loaded_alone rfl (by decide) size
  have entered := built_detour.entered_anything (show 6 < detour.size by decide) loaded
    (attended_alone square fun node => only _ (Array.mem_of_getElem? node) _ _ rfl)
  obtain ⟨c₁, steps, start, branch, forked, reached⟩ := of_branchesAfter (of_generatesWith
    (detour.branchesAfter 6 .default 4 square.alone detourEntry 6) (by decide +kernel) hc)
  obtain ⟨meets, runs⟩ := @arms_meet detour 6 .default built_detour
  obtain ⟨m, joined, -, crosses⟩ :=
    (runs hc).2 ⟨frame, by omega, by omega⟩ entered forked steps reached
  exact ⟨c, hc, m, joined, (meets joined).1, isRestored_detour joined, 6, c₁, steps, crosses⟩

end Graph

end NativeExpr
