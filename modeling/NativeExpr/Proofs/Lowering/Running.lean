import NativeExpr.Proofs.Lowering.Tables

/-!
# Running what was emitted

What a machine matches survives writes to registers that hold no live value and to
free memory. So an assembler operation takes a stage to the next one when its
effect takes machines that match to machines that match.
-/
namespace NativeExpr.Lowering

open NativeExpr X64

variable {S : Setting} {E : Env} {σ₀ σ σ' : State} {A A' : Moment} {p₀ p p' : Pose}
variable {R R' : Course} {D D' : Finset NodeId} {c c' : Machine.Config}
variable {x y id : NodeId} {r q : Reg}

/-! ## The state of the machine -/

theorem Matches.setFlags {g : Graph} {f : Machine.Flags} (h : Matches g E A σ p c)
    {flags : Moment → Machine.Flags → Prop} (hf : flags A f) :
    Matches g E A σ (p.setFlags flags) ⟨c.entered, c.state.setFlags f⟩ :=
  ⟨h.values, h.known, h.sp, h.bp, h.heap, h.kept, h.saved, h.log, hf⟩

theorem Matches.congr {g : Graph} (h : Matches g E A σ p c)
    (live : ∀ x pl, 0 < σ'.uses x → σ'.place x = some pl → 0 < σ.uses x ∧ σ.place x = some pl)
    (touched : ∀ r, σ.regs.touched.contains r = true → σ'.regs.touched.contains r = true)
    (known : ∀ r P, p'.known r = some P → p.known r = some P) (lowered : p'.lowered = p.lowered)
    (flags : ∀ f, p.flags A f → p'.flags A f) : Matches g E A σ' p' c := by
  refine ⟨fun hu hpl => ?_, fun hr => h.known (known _ _ hr), ?_, h.bp, h.heap, h.kept,
    fun r hr ht => h.saved r hr ?_, h.log, flags _ h.flags⟩
  · obtain ⟨hu, hpl⟩ := live _ _ hu hpl
    exact h.values hu hpl
  · rw [lowered]
    exact h.sp
  · cases ht' : σ.regs.touched.contains r with
    | false => rfl
    | true =>
      rw [touched r ht'] at ht
      cases ht

/-- Whether code may write a register: no live value is in it, and its caller does
not need it or it counts as used. -/
structure Writable (σ : State) (r : Reg) : Prop where
  valid : r.Valid
  special : r ≠ .rsp ∧ r ≠ .rbp
  dead : ∀ x, σ.place x = some (.register r) → ¬ 0 < σ.uses x
  saved : r ∈ Convention.calleeSaved → σ.regs.touched.contains r = true

theorem Matches.setNamed (inv : Inv S D σ p) (h : Matches S.graph E A σ p c)
    (hr : Writable σ r) {w : Word} {P : Moment → Word → Prop} (hP : P A w) :
    Matches S.graph E A σ (p.learn r P) ⟨c.entered, c.state.setNamed r w⟩ := by
  have other {q : Reg} (hq : q.Valid) (hne : q ≠ r) :
      (c.state.setNamed r w).named q = c.state.named q := by
    rw [Machine.State.named_setNamed hr.valid hq, if_neg hne]
  have memory : (c.state.setNamed r w).memory = c.state.memory := Machine.State.memory_setNamed
  constructor
  case values =>
    intro x pl hu hpl
    rw [h.values hu hpl]
    cases pl with
    | register q =>
      have hv := (inv.register hpl hu).1
      have hne : q ≠ r := by
        rintro rfl
        exact hr.dead x hpl hu
      rw [content, content, other hv hne]
    | stack o => rw [content, content, memory]
    | immediate v => rfl
  case known =>
    intro q P' hq
    simp only [Pose.learn] at hq
    split at hq
    · next he =>
      cases hq
      rw [he, Machine.State.named_setNamed hr.valid hr.valid, if_pos rfl]
      exact hP
    · next he =>
      rw [other (inv.knownValid hq) he]
      exact h.known hq
  case sp =>
    rw [other (by decide) hr.special.1.symm]
    exact h.sp
  case bp =>
    rw [other (by decide) hr.special.2.symm]
    exact h.bp
  case heap =>
    rw [memory]
    exact h.heap
  case kept =>
    rw [memory]
    exact h.kept
  case saved =>
    intro q hq ht
    have hne : q ≠ r := by
      rintro rfl
      rw [hr.saved hq] at ht
      cases ht
    rw [other ((by decide : ∀ q ∈ Convention.calleeSaved, q.Valid) q hq) hne]
    exact h.saved q hq ht
  case log => exact h.log
  case flags =>
    rw [Machine.State.flags_setNamed]
    exact h.flags

theorem Matches.write {g : Graph} (h : Matches g E A σ p c) {a w : Word} (free : E.stack.Free a)
    (apart : ∀ x o, 0 < σ.uses x → σ.place x = some (.stack o) → ∀ i < 8,
      8 ≤ (E.stack.cell o + BitVec.ofNat 64 i - a).toNat) :
    Matches g E A σ p ⟨c.entered, c.state.write a w⟩ := by
  refine ⟨fun {x pl} hu hpl => ?_, h.known, h.sp, h.bp, ?_, ?_, h.saved, h.log, h.flags⟩
  · rw [h.values hu hpl]
    cases pl with
    | register q => rfl
    | stack o =>
      have : (c.state.memory.store a w).load (E.stack.cell o) 8 =
          c.state.memory.load (E.stack.cell o) 8 :=
        Memory.load_congr fun i hi => Memory.store_of_le (apart x o hu hpl i hi)
      rw [content, content, Machine.State.write, this]
    | immediate v => rfl
  · intro b hb
    exact (free.store_heap hb).trans (h.heap b hb)
  · intro b hb
    exact (free.store_kept hb).trans (h.kept b hb)

/-! ## From stage to stage -/

theorem Grows.offset_le (h : Grows σ σ') : σ.offset ≤ σ'.offset := h.precedes.offset_le

theorem Ends.of_error {p'' : Pose} {events : List Event}
    (h : Ends S E σ₀ σ p'' c (.error events)) (grows : Grows σ σ') :
    Ends S E σ₀ σ' p' c (.error events) := h.le grows.offset_le

/-- What becomes of a machine that has come to a later point. -/
theorem Ends.after {o : Except (List Event) Moment}
    (h : E.site.Leads σ₀.offset σ.offset c (· = c')) (ends : Ends S E σ σ' p' c' o) :
    Ends S E σ₀ σ' p' c o := by
  cases o with
  | ok A => exact h.trans fun _ _ same => same ▸ ends
  | error events => exact h.traps fun _ _ same => same ▸ ends

theorem Stage.next (h : Stage S E σ₀ p₀ D σ R p) {f : Course}
    (inv : Inv S D' σ' p') (grows : Grows σ σ')
    (run : E.Sound → Within S E σ' → ∀ A c, E.site.At σ.offset c →
      Matches S.graph E A σ p c → ∃ o, f A o ∧ Ends S E σ σ' p' c o) :
    Stage S E σ₀ p₀ D' σ' (R.andThen f) p' where
  inv := inv
  grows := h.grows.trans grows
  run := fun sound within A c at_ hm => by
    obtain ⟨o, ho, first⟩ := h.run sound (within.of_grows h.inv.begun grows) A c at_ hm
    cases o with
    | error events => exact ⟨_, Course.andThen_error ho, first.of_error grows⟩
    | ok A' =>
      obtain ⟨n, c', walk, bound, at', hm'⟩ := first
      obtain ⟨o', ho', rest⟩ := run sound within A' c' at' hm'
      exact ⟨o', Course.andThen_ok ho ho', .after ⟨n, c', walk, bound, at', rfl⟩ rest⟩

theorem Stage.more (h : Stage S E σ₀ p₀ D σ R p) (inv : Inv S D' σ' p') (grows : Grows σ σ')
    (run : E.Sound → Within S E σ' → ∀ A c, E.site.At σ.offset c →
      Matches S.graph E A σ p c →
        E.site.Leads σ.offset σ'.offset c fun c' => Matches S.graph E A σ' p' c') :
    Stage S E σ₀ p₀ D' σ' R p' := by
  have := h.next (f := .stay) inv grows fun sound within A c at_ hm =>
    ⟨.ok A, rfl, run sound within A c at_ hm⟩
  rwa [Course.andThen_stay] at this

theorem Stage.tables (h : Stage S E σ₀ p₀ D σ R p) (inv : Inv S D' σ' p') (grows : Grows σ σ')
    (asm : σ'.asm = σ.asm)
    (run : E.Sound → Within S E σ' → ∀ A c, Matches S.graph E A σ p c →
      Matches S.graph E A σ' p' c) :
    Stage S E σ₀ p₀ D' σ' R p' :=
  h.more inv grows fun sound within A c at_ hm => by
    have : σ'.offset = σ.offset := by rw [State.offset, asm]; rfl
    rw [this]
    exact .refl at_ (run sound within A c hm)

/-- What the machine does between two offsets, if it is an effect on its state. -/
structure Acts (L : Machine.Site) (b b' : CodeBuffer)
    (f : Machine.State → Option Machine.State) (c : Machine.Config) : Prop where
  leads : ∀ s, f c.state = some s → L.Leads b.size b'.size c fun c' =>
    c'.entered = c.entered ∧ ∃ pc, c'.state = s.setPc pc
  traps : f c.state = none → ∀ Q : Machine.Config → Prop, Q c → L.Traps b.size b'.size c Q

theorem grows_setAsm {asm : Assembler} {its : List Item} (w : σ.buffer.Written asm.buffer its)
    (balanced : σ.buffer.Balanced asm.buffer) : Grows σ { σ with asm } :=
  ⟨⟨its, w⟩, balanced, Nat.le_refl _, id, id, fun _ => id, fun _ => Nat.le_refl _,
    fun _ _ _ => .inl rfl, List.suffix_rfl, fun _ => rfl⟩

/-- The tables do not mention what is known of registers and flags. -/
theorem Inv.congr (h : Inv S D σ p) (held : p'.held = p.held) (locks : p'.locks = p.locks)
    (knownValid : ∀ {r P}, p'.known r = some P → r.Valid) : Inv S D σ p' := by
  refine { h with locks := ?_, held := ?_, temp := ?_, owned := ?_, notHeld := ?_,
                  knownValid := knownValid }
  · rw [locks]
    exact h.locks
  · rw [held]
    exact h.held
  · rw [held]
    exact h.temp
  · rw [held]
    exact h.owned
  · rw [held]
    exact h.notHeld

/-- Counters and entries of the journal that tell of no reads. -/
theorem grows_record (stats : CodeStats) (notes : List Note)
    (quiet : notes.filterMap Note.read? = []) :
    Grows σ { σ with stats, journal := notes ++ σ.journal } := by
  refine ⟨⟨[], .refl⟩, .refl, Nat.le_refl _, (·), (·), fun _ => (·), fun _ => Nat.le_refl _,
    fun _ _ _ => .inl rfl, List.suffix_append .., fun x => ?_⟩
  rw [State.readsOf, List.filterMap_append, quiet]
  rfl

theorem Stage.count (h : Stage S E σ₀ p₀ D σ R p) (stats : CodeStats) :
    Stage S E σ₀ p₀ D { σ with stats } R p :=
  h.tables { h.inv with } (grows_record stats [] rfl) rfl fun _ _ _ _ hm =>
    hm.congr (fun _ _ hu hpl => ⟨hu, hpl⟩) (fun _ => (·)) (fun _ _ hk => hk) rfl fun _ hf => hf

theorem Stage.relax (h : Stage S E σ₀ p₀ D σ R p) (p' : Pose) (held : p'.held = p.held)
    (locks : p'.locks = p.locks) (lowered : p'.lowered = p.lowered)
    (known : ∀ r P, p'.known r = some P → p.known r = some P)
    (flags : ∀ A f, p.flags A f → p'.flags A f) : Stage S E σ₀ p₀ D σ R p' :=
  h.tables (h.inv.congr held locks fun hk => h.inv.knownValid (known _ _ hk)) .refl rfl
    fun _ _ _ _ hm => hm.congr (fun _ _ hu hpl => ⟨hu, hpl⟩) (fun _ => id) known lowered
      fun f => flags _ f

theorem State.Clean.cons {g : Graph} {root : NodeId} {n : Note} (h : σ.Clean g root)
    (sound : n.Sound g root σ.journal) (journal : σ'.journal = n :: σ.journal)
    (asm : σ'.asm = σ.asm)
    (branch : ∀ {s start branch}, n = .forked s start branch → σ.buffer.BranchesAt branch.offset) :
    σ'.Clean g root := by
  rw [State.Clean, State.buffer, journal, asm]
  refine ⟨⟨sound, h.sound⟩, fun forked => ?_⟩
  rcases List.mem_cons.1 forked with here | earlier
  · exact branch here.symm
  · exact h.branches earlier

theorem Stage.note (h : Stage S E σ₀ p₀ D σ R p) {n : Note} (quiet : [n].filterMap Note.read? = [])
    (sound : n.Sound S.graph S.ctx.root σ.journal)
    (branch : ∀ {s start branch}, n = .forked s start branch → σ.buffer.BranchesAt branch.offset) :
    Stage S E σ₀ p₀ D { σ with journal := n :: σ.journal } R p :=
  h.tables { h.inv with clean := h.inv.clean.cons sound rfl rfl branch }
    (grows_record _ [n] quiet) rfl
    fun _ _ _ _ hm =>
      hm.congr (fun _ _ hu hpl => ⟨hu, hpl⟩) (fun _ => (·)) (fun _ _ hk => hk) rfl fun _ hf => hf

/-- Nothing but code was added. -/
structure Coded (σ σ' : State) : Prop where
  same : ∃ asm, σ' = { σ with asm }
  grows : Grows σ σ'
  branches : σ'.buffer.pending.size = σ.buffer.pending.size

theorem coded_setAsm {asm : Assembler} (is : List Instruction)
    (w : σ.buffer.Written asm.buffer (is.map .instr)) (balanced : σ.buffer.Balanced asm.buffer) :
    Coded σ { σ with asm } := by
  refine ⟨⟨asm, rfl⟩, grows_setAsm w balanced, ?_⟩
  show asm.buffer.pending.size = σ.buffer.pending.size
  rw [← Array.length_toList, w.pending, patchesFrom_instrs, List.append_nil, Array.length_toList]

theorem yields_perform (residue : σ.asm.residue = []) (clean : Clean S.graph S.ctx.root σ.journal)
    {m : Asm Unit}
    {address : Machine.State → Option Word} {f : Machine.State → Option Machine.State}
    (hm : Machine.PerformsAt m address f) :
    Generates S (emit m) σ fun _ σ' => ∃ asm, σ' = { σ with asm } ∧ asm.residue = [] ∧
      Coded σ { σ with asm } ∧ (∃ its, σ.buffer.Written asm.buffer its) ∧
      ∀ L : Machine.Site, L.Sound → L.Covers σ.buffer → L.Covers asm.buffer → ∀ c,
        L.At σ.offset c →
        (∀ i, Machine.isStraight i = true → Machine.storeAddress? c.state i = address c.state →
          L.permits c.state i) → Acts L σ.buffer asm.buffer f c := by
  refine (yields_emit (hm σ.asm residue)).mono ?_ fun _ _ he =>
    ⟨permitted_of_overflow he.1, he.2 ▸ clean⟩
  rintro _ σ' ⟨asm, rfl, residue, balanced, is, length, w, straight, effects⟩
  have w : σ.buffer.Written asm.buffer (is.map .instr) := w
  refine ⟨asm, rfl, residue, coded_setAsm is w balanced, ⟨_, w⟩, ?_⟩
  intro L sound before after c at_ permits
  have permits (i) (hi : i ∈ is) : L.permits c.state i :=
    permits i (straight i hi).1 ((straight i hi).2 c.state)
  have straight (i) (hi : i ∈ is) := (straight i hi).1
  constructor
  · intro s hs
    exact before.leads_written sound w after length straight at_ permits
      ((effects c.state).trans hs)
  · intro hs Q hQ
    exact before.traps_written sound w after length straight at_ permits
      ((effects c.state).trans hs) hQ

theorem Matches.setState {g : Graph} {s : Machine.State} (h : Matches g E A σ p ⟨c.entered, s⟩)
    (next : c'.entered = c.entered ∧ ∃ pc, c'.state = s.setPc pc) : Matches g E A σ p c' := by
  obtain ⟨entered, state⟩ := c'
  obtain ⟨rfl, pc, rfl⟩ := next
  exact ⟨h.values, h.known, h.sp, h.bp, h.heap, h.kept, h.saved, h.log, h.flags⟩

theorem Coded.tally_eq (h : Coded σ σ') : σ'.tally = σ.tally := by
  obtain ⟨⟨asm, rfl⟩, -, branches⟩ := h
  exact congrArg (fun n => { σ.tally with branches := n }) branches

theorem Coded.reads (h : Coded σ σ') : Reads σ σ' [] := by
  have tally := h.tally_eq
  obtain ⟨asm, rfl⟩ := h.same
  exact .of_eq h.grows (fun _ => rfl) tally

theorem Coded.trans {σ'' : State} (h : Coded σ σ') (h' : Coded σ' σ'') : Coded σ σ'' := by
  obtain ⟨⟨asm, rfl⟩, grows, branches⟩ := h
  obtain ⟨⟨asm', rfl⟩, grows', branches'⟩ := h'
  exact ⟨⟨asm', rfl⟩, grows.trans grows', branches'.trans branches⟩

theorem Coded.place_eq (h : Coded σ σ') (x : NodeId) : σ'.place x = σ.place x := by
  obtain ⟨asm, rfl⟩ := h.same
  rfl

/-- The code of an operation from stage to stage, if its instruction is permitted. -/
theorem Stage.performAt (h : Stage S E σ₀ p₀ D σ R p) {m : Asm Unit}
    {address : Machine.State → Option Word} {f : Machine.State → Option Machine.State}
    (hm : Machine.PerformsAt m address f)
    (held : p'.held = p.held) (locks : p'.locks = p.locks)
    (knownValid : ∀ {r P}, p'.known r = some P → r.Valid)
    (permits : E.Sound → Within S E σ → ∀ A c, Matches S.graph E A σ p c → ∀ i,
      Machine.isStraight i = true → Machine.storeAddress? c.state i = address c.state →
        E.site.permits c.state i)
    (effect : E.Sound → Within S E σ → ∀ A c, Matches S.graph E A σ p c →
      ∃ s, f c.state = some s ∧ Matches S.graph E A σ p' ⟨c.entered, s⟩) :
    Generates S (emit m) σ fun _ σ' =>
      Coded σ σ' ∧ Stage S E σ₀ p₀ D σ' R p' := by
  refine (yields_perform h.inv.residue h.inv.clean.sound hm).mono ?_ fun _ _ he => he
  rintro _ σ' ⟨asm, rfl, residue, coded, ⟨its, w⟩, acts⟩
  refine ⟨coded, h.more ((h.inv.setAsm residue w).congr held locks knownValid) coded.grows ?_⟩
  intro sound within A c at_ hmatch
  have before := within.of_grows h.inv.begun coded.grows
  obtain ⟨s, hs, hmatch'⟩ := effect sound before A c hmatch
  refine ((acts E.site sound.site before.code within.code c at_
    (permits sound before A c hmatch)).leads s hs).mono fun c' next => ?_
  have := hmatch'.setState next
  exact ⟨this.values, this.known, this.sp, this.bp, this.heap, this.kept, this.saved, this.log,
    this.flags⟩

theorem Stage.perform (h : Stage S E σ₀ p₀ D σ R p) {m : Asm Unit}
    {f : Machine.State → Option Machine.State} (hm : Machine.Performs m f)
    (held : p'.held = p.held) (locks : p'.locks = p.locks)
    (knownValid : ∀ {r P}, p'.known r = some P → r.Valid)
    (effect : E.Sound → Within S E σ → ∀ A c, Matches S.graph E A σ p c →
      ∃ s, f c.state = some s ∧ Matches S.graph E A σ p' ⟨c.entered, s⟩) :
    Generates S (emit m) σ fun _ σ' =>
      Coded σ σ' ∧ Stage S E σ₀ p₀ D σ' R p' :=
  h.performAt hm held locks knownValid
    (fun sound within _ _ hmatch _ _ => sound.permits.quiet (hmatch.keeps within)) effect

end NativeExpr.Lowering
