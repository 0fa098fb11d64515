import NativeExpr.Proofs.Lowering.Values

/-!
# The turn of a node

It is the turn of a node when its operands are done. Its own code then reads each
operand once for every entry that names it and leaves the value of the node, with
nothing held.
-/
namespace NativeExpr.Lowering

open NativeExpr X64 Convention

variable {S : Setting} {E : Env} {σ₀ σ σ' : State} {p₀ p : Pose}
variable {R R' : Course} {D : Finset NodeId} {x y id : NodeId} {n : Node}
variable {l l' : Option Reg} {c : RegClass} {r : Reg}

/-- The operands of a node are done, and the node is not. -/
structure Turn (S : Setting) (E : Env) (σ₀ : State) (p₀ : Pose) (D : Finset NodeId)
    (σ : State) (R : Course) (id : NodeId) (n : Node) : Prop where
  stage : Stage S E σ₀ p₀ D σ R .idle
  node : S.graph.node? id = some n
  below : id ∈ S.graph.below S.ctx.root
  typed : S.graph.NodeTyped n
  fresh : id ∉ D
  wanted : 0 < σ.uses id
  reads : ∀ x ∈ n.operands, x ∈ D
  uses : ∀ x, n.operands.count x ≤ σ.uses x

def Tally.turn (t : Tally) (n : Node) : Tally :=
  match n.kind with
  | .call .. => { t with calls := t.calls + 1, calling := true }
  | .select .. => { t with conditionals := t.conditionals + 1, branches := t.branches + 2 }
  | _ => t

/-- The code of a node read its operands and made its call, if it is one. -/
structure Spent (n : Node) (σ σ' : State) : Prop where
  grows : Grows σ σ'
  uses : ∀ x, σ'.uses x + n.operands.count x = σ.uses x
  tally : σ'.tally = σ.tally.turn n

/-- The code of a node took its turn. -/
structure Took (S : Setting) (E : Env) (σ₀ : State) (p₀ : Pose) (D : Finset NodeId)
    (σ : State) (R : Course) (id : NodeId) (n : Node) (σ' : State) : Prop where
  spent : Spent n σ σ'
  stage : Stage S E σ₀ p₀ (insert id D) σ' (R.andThen (E.world.visit S.graph id n)) .idle

theorem Spent.of_reads (h : Reads σ σ' n.operands) (plain : ∀ t : Tally, t.turn n = t) :
    Spent n σ σ' := ⟨h.grows, h.uses, h.tally.trans (plain _).symm⟩

theorem Spent.reads {σ'' : State} (h : Spent n σ σ') (h' : Reads σ' σ'' []) : Spent n σ σ'' :=
  ⟨h.grows.trans h'.grows, fun x => by rw [h'.uses_eq, h.uses], h'.tally.trans h.tally⟩

theorem Turn.tyOf_eq (h : Turn S E σ₀ p₀ D σ R id n) : S.graph.tyOf id = n.ty :=
  (Graph.hasType_of_node? h.node).tyOf_eq

theorem Turn.live (h : Turn S E σ₀ p₀ D σ R id n) (hx : x ∈ n.operands) : 0 < σ.uses x :=
  Nat.lt_of_lt_of_le (List.count_pos_iff.2 hx) (h.uses x)

/-- Generating operands one after the other leads to states of a kind. -/
def Operands (S : Setting) (gen : NodeId → Lower Unit) (T : State → Prop) :
    List NodeId → State → Prop
  | [], σ => T σ
  | x :: xs, σ => Generates S (gen x) σ fun _ σ' => Operands S gen T xs σ'

theorem Operands.forM {gen : NodeId → Lower Unit} {T : State → Prop} :
    ∀ {xs : List NodeId} {σ : State}, Operands S gen T xs σ →
      Generates S (xs.forM gen) σ fun _ σ' => T σ'
  | [], _, h => .of_pure h
  | _ :: _, _, h => .seq h fun _ _ h' => h'.forM

/-- Two operands are generated, and then it is the turn of their node. -/
theorem Operands.both {gen : NodeId → Lower Unit} {T : State → Prop}
    (gens : Operands S gen T [x, y] σ) (turn : ∀ τ, T τ → Turn S E σ₀ p₀ D τ R id n)
    (operands : n.operands = [x, y]) {k : Lower Unit}
    (next : ∀ τ, Turn S E σ₀ p₀ D τ R id n → x ∈ D → y ∈ D →
      (∀ z, [x, y].count z ≤ τ.uses z) →
        Generates S k τ fun _ σ' => Took S E σ₀ p₀ D τ R id n σ') :
    Generates S (do
      gen x
      gen y
      k) σ fun _ σ' => ∃ τ, T τ ∧ Took S E σ₀ p₀ D τ R id n σ' := by
  refine .seq gens fun _ σ₁ gens₁ => .seq gens₁ fun _ τ hτ => ?_
  have t := turn τ hτ
  refine (next τ t (t.reads x (by simp [operands])) (t.reads y (by simp [operands]))
    fun z => operands ▸ t.uses z).mono ?_ fun _ _ he => he
  exact fun _ σ' took => ⟨τ, hτ, took⟩

/-! ## Poses with locks only -/

theorem solid_locks : ((Pose.idle.lock l).lock l').Solid := fun _ _ hq => by cases hq

theorem solid_lock : (Pose.idle.lock l).Solid := fun _ _ hq => by cases hq

theorem locks_lock (p : Pose) (q : Reg) :
    (p.lock l).locks q = if l = some q then p.locks q + 1 else p.locks q := rfl

/-- Two locks leave room among general registers, and among those of another class. -/
theorem room_locks (h : c = .general ∨ ∀ r, l = some r ∨ l' = some r → r.regClass ≠ c) :
    Room S ((Pose.idle.lock l).lock l') c := by
  rcases h with rfl | h
  · refine room_of_few (l.toList ++ l'.toList) ?_ fun q _ hq => ?_
    · cases l <;> cases l' <;> simp
    · rw [List.mem_append, Option.mem_toList, Option.mem_toList]
      refine Classical.byContradiction fun hne => ?_
      rw [not_or] at hne
      refine hq.elim (fun held => held rfl) fun locked => locked ?_
      rw [locks_lock, if_neg hne.2, locks_lock, if_neg hne.1]
      rfl
  · refine room_of_few [] (by cases c <;> decide) fun q hq hbusy => ?_
    refine absurd hq.2 ?_
    refine hbusy.elim (fun held => absurd rfl held) fun locked => h q ?_
    refine Classical.byContradiction fun hne => ?_
    rw [not_or] at hne
    rw [locks_lock, if_neg hne.2, locks_lock, if_neg hne.1] at locked
    exact locked rfl

theorem room_idle : Room S .idle c :=
  room_of_few [] (by cases c <;> decide) fun _ _ hq =>
    hq.elim (fun held => absurd rfl held) fun locked => absurd rfl locked

theorem room_lock : Room S (Pose.idle.lock l) c := by
  refine room_of_few l.toList ?_ fun q _ hq => ?_
  · cases l <;> cases c <;> simp
  · rw [Option.mem_toList]
    refine Classical.byContradiction fun hne => ?_
    refine hq.elim (fun held => held rfl) fun locked => locked ?_
    rw [locks_lock, if_neg hne]
    rfl

theorem solid_temporary (held : p.held = (Pose.idle.hand r (some .temp)).held) : p.Solid := by
  intro q owner hq
  rw [held] at hq
  simp only [Pose.hand] at hq
  split at hq
  · exact (Option.some.inj hq).symm
  · cases hq

theorem room_temporary (held : p.held = (Pose.idle.hand r (some .temp)).held)
    (locks : p.locks = fun _ => 0) : Room S p c := by
  refine room_of_few [r] (by cases c <;> simp) fun q _ busy => ?_
  rw [List.mem_singleton]
  refine Classical.byContradiction fun hne => ?_
  rw [held, locks] at busy
  exact busy.elim (fun held => held (Pose.held_hand_of_ne hne)) fun locked => locked rfl

theorem Stage.allocBeside (h : Stage S E σ₀ p₀ D σ R .idle) (hx : 0 < σ.uses x) :
    Generates S (Lowering.withLocked x (Lowering.allocResult S.ctx id c)) σ fun r σ' =>
      r.Of c ∧ Reads σ σ' [] ∧ Stage S E σ₀ p₀ D σ' R (Pose.idle.hand r (some .temp)) := by
  refine (h.withLocked hx [] (fun r q => r.Of c ∧ q = Pose.idle.hand r (some .temp))
    fun l σ₁ reads locked stage => ?_).mono ?_ fun _ _ he => he
  · refine (stage.allocResult solid_lock room_lock).mono ?_ fun _ _ he => he
    rintro r σ₂ ⟨fresh, reads₂, stage₂⟩
    exact ⟨reads₂, _, ⟨fresh.of, rfl⟩, stage₂⟩
  · rintro r σ' ⟨reads, _, ⟨hr, rfl⟩, stage⟩
    exact ⟨hr, reads, stage⟩

theorem Stage.allocBesideTwo (h : Stage S E σ₀ p₀ D σ R .idle) (hx : 0 < σ.uses x)
    (hy : 0 < σ.uses y) (hc : c = .general ∨
      (S.graph.tyOf x).regClass ≠ c ∧ (S.graph.tyOf y).regClass ≠ c) :
    Generates S (Lowering.withLocked x (Lowering.withLocked y (Lowering.allocResult S.ctx id c))) σ
      fun r σ' =>
        r.Of c ∧ Reads σ σ' [] ∧ Stage S E σ₀ p₀ D σ' R (Pose.idle.hand r (some .temp)) := by
  refine (h.withLocked hx [] (fun r q => r.Of c ∧ q = Pose.idle.hand r (some .temp))
    fun l σ₁ reads locked stage => ?_).mono ?_ fun _ _ he => he
  · refine (stage.withLocked (reads.uses_eq y ▸ hy) []
      (fun r q => r.Of c ∧ q = (Pose.idle.hand r (some .temp)).lock l)
      fun l' σ₂ reads₂ locked₂ stage₂ => ?_).mono ?_ fun _ _ he => he
    · have room : Room S ((Pose.idle.lock l).lock l') c := by
        refine room_locks (hc.imp (fun he => he) fun hc r hr => ?_)
        rcases hr with rfl | rfl
        · have placed := locked.placed r rfl
          exact (stage.inv.register placed.place placed.live).2 ▸ hc.1
        · have placed := locked₂.placed r rfl
          exact (stage₂.inv.register placed.place placed.live).2 ▸ hc.2
      refine (stage₂.allocResult solid_locks room).mono ?_ fun _ _ he => he
      rintro r σ₃ ⟨fresh, reads₃, stage₃⟩
      exact ⟨reads₃, _, ⟨fresh.of, rfl⟩, stage₃⟩
    · rintro r σ' ⟨reads', _, ⟨hr, rfl⟩, stage'⟩
      exact ⟨reads', _, ⟨hr, rfl⟩, stage'⟩
  · rintro r σ' ⟨reads, _, ⟨hr, rfl⟩, stage⟩
    exact ⟨hr, reads, stage⟩

theorem Locked.releasable (h : Locked σ y l) (inv : Inv S D σ p)
    (unlocked : p.locks = fun q => if l = some q then 1 else 0)
    (uses : x = y → 1 < σ.uses x) (live : 0 < σ.uses x) : Releasable σ p x := by
  intro r hr
  by_cases hl : l = some r
  · exact .inr (uses (inv.placed_inj ⟨hr, live⟩ (h.placed r hl)))
  · rw [unlocked]
    exact .inl (if_neg hl)

theorem Releasable.of_unlocked (h : p.locks = fun _ => 0) : Releasable σ p x :=
  fun _ _ => .inl (by rw [h])

/-- Two values are read one after the other, with nothing locked. -/
theorem Stage.consumeBoth (h : Stage S E σ₀ p₀ D σ R p) (unlocked : p.locks = fun _ => 0)
    {τ : State} (reads : Reads τ σ []) (uses : ∀ z, [x, y].count z ≤ τ.uses z)
    {α : Type} {k : Lower α} {post : α → State → Prop}
    (next : ∀ σ', Reads τ σ' [x, y] → Stage S E σ₀ p₀ D σ' R p → Generates S k σ' post) :
    Generates S (do
      Lowering.consume x
      Lowering.consume y
      k) σ post := by
  refine .seq (h.consume (reads.live [x, y] uses (by simp)) (.of_unlocked unlocked)) ?_
  rintro _ σ₁ ⟨reads₁, stage₁⟩
  have reads : Reads τ σ₁ [x] := reads.trans reads₁
  refine .seq (stage₁.consume (reads.live [y] uses (by simp)) (.of_unlocked unlocked)) ?_
  rintro _ σ₂ ⟨reads₂, stage₂⟩
  exact next σ₂ (reads.trans reads₂) stage₂

/-! ## The end of a turn -/

theorem Turn.live_self (h : Turn S E σ₀ p₀ D σ R id n) (spent : Spent n σ σ') :
    0 < σ'.uses id := by
  have := spent.uses id
  rw [List.count_eq_zero_of_not_mem fun hm => h.fresh (h.reads id hm), Nat.add_zero] at this
  exact this ▸ h.wanted

theorem Turn.finish (h : Turn S E σ₀ p₀ D σ R id n) (spent : Spent n σ σ')
    (stage : Stage S E σ₀ p₀ D σ' R' p) {f : Course}
    (goes : ∀ m o, R'.andThen f m o → R.andThen (E.world.visit S.graph id n) m o)
    (hr : r.Of n.ty.regClass) {P : Moment → Word → Prop} (held : p.held r = some .temp)
    (known : p.known r = some P) (found : ∀ A w, P A w → f A (.ok (A.find id (n.ty.view w))))
    (pose : (p.hand r none).forget = .idle) :
    Generates S (define id r) σ' fun _ σ'' => Took S E σ₀ p₀ D σ R id n σ'' := by
  have ty := h.tyOf_eq
  refine (stage.define h.fresh (h.live_self spent) (ty ▸ hr) held known
    (f := f) fun A w hw => ?_).mono ?_ fun _ _ he => he
  · rw [ty]
    exact found A w hw
  · rintro _ σ'' ⟨reads', stage'⟩
    rw [pose] at stage'
    exact ⟨spent.reads reads', stage'.mono goes⟩

theorem forget_temporary (held : p.held = (Pose.idle.hand r (some .temp)).held)
    (locks : p.locks = fun _ => 0) (lowered : p.lowered = 0) :
    (p.hand r none).forget = .idle := by
  have back : ((Pose.idle.hand r (some .temp)).hand r none).held = Pose.idle.held := by
    rw [Pose.hand_hand, Pose.hand_none rfl]
  show (⟨fun q => if q = r then none else p.held q, fun _ => none, p.locks, p.lowered,
    fun _ _ => True⟩ : Pose) = _
  rw [held, locks, lowered]
  exact congrArg (fun h => (⟨h, fun _ => none, fun _ => 0, 0, fun _ _ => True⟩ : Pose)) back

end NativeExpr.Lowering
