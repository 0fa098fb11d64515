import NativeExpr.Proofs.Lowering.Reading

/-!
# Registers that change hands

A value that loses its register is stored in its slot, which is apart from all
other cells, so every live value can still be read. A request for a register can
fail only if all registers of the class are held or locked.
-/
namespace NativeExpr.Lowering

open NativeExpr X64 Convention

variable {S : Setting} {E : Env} {σ₀ σ σ' σ'' : State} {A : Moment} {p₀ p p' : Pose}
variable {R : Course} {D : Finset NodeId} {c : Machine.Config}
variable {x v id : NodeId} {r q : Reg} {pl : Storage} {owner : Owner}

/-! ## Registers that may be written -/

theorem Inv.mem_budgeted (h : Inv S D σ p) (hr : r.Valid) (held : p.held r = some owner) :
    r ∈ budgeted S.budget r.regClass := by
  refine h.regular.owned_mem hr ?_
  rw [h.held hr held]
  exact Option.some_ne_none _

theorem Inv.dead_of_free (h : Inv S D σ p) (free : σ.regs.owner r = none) :
    ∀ x, σ.place x = some (.register r) → ¬ 0 < σ.uses x := by
  intro x hpl hu
  have := (h.owned (h.register hpl hu).1 (h.notHeld hpl hu)).2 ⟨hpl, hu⟩
  rw [free] at this
  cases this

theorem Inv.writable (h : Inv S D σ p) (hr : r.Valid) (held : p.held r = some owner) :
    Writable σ r where
  valid := hr
  special := by
    have hm := h.mem_budgeted hr held
    constructor
    · rintro rfl
      exact notMem_budgeted (by decide) (by decide) hm
    · rintro rfl
      exact notMem_budgeted (by decide) (by decide) hm
  dead := by
    intro x hpl hu
    rw [h.notHeld hpl hu] at held
    cases held
  saved := by
    intro _
    refine h.regular.touched_of_used ((h.regular.used_iff hr).2 ?_)
    rw [h.held hr held]
    exact Option.some_ne_none _

theorem Inv.writable_scratch (h : Inv S D σ p) (hr : r = .scratch ∨ r = .floatScratch) :
    Writable σ r := by
  have valid : r.Valid := by rcases hr with rfl | rfl <;> decide
  have free : σ.regs.owner r = none := by
    refine Classical.byContradiction fun hne => ?_
    have := h.regular.owned_mem valid hne
    rcases hr with rfl | rfl
    · exact notMem_budgeted (by decide) (by decide) this
    · exact notMem_budgeted (by decide) (by decide) this
  have notSaved : r ∉ calleeSaved := by rcases hr with rfl | rfl <;> decide
  refine ⟨valid, ?_, h.dead_of_free free, fun hs => absurd hs notSaved⟩
  rcases hr with rfl | rfl <;> decide

theorem Inv.notHeld_scratch (h : Inv S D σ p) (hr : r = .scratch ∨ r = .floatScratch) :
    p.held r = none := by
  cases held : p.held r with
  | none => rfl
  | some owner =>
    rcases hr with rfl | rfl
    · exact absurd (h.mem_budgeted (by decide) held) (notMem_budgeted (by decide) (by decide))
    · exact absurd (h.mem_budgeted (by decide) held) (notMem_budgeted (by decide) (by decide))

/-! ## Owners and locks -/

theorem grows_setRegs {regs : RegisterFile}
    (touched : ∀ q, σ.regs.touched.contains q = true → regs.touched.contains q = true) :
    Grows σ { σ with regs } :=
  ⟨⟨[], .refl⟩, .refl, Nat.le_refl _, id, id, touched, fun _ => Nat.le_refl _,
    fun _ _ _ => .inl rfl, List.suffix_rfl, fun _ => rfl⟩

theorem Stage.setRegs (h : Stage S E σ₀ p₀ D σ R p) {regs : RegisterFile}
    (inv : Inv S D { σ with regs } p')
    (touched : ∀ q, σ.regs.touched.contains q = true → regs.touched.contains q = true)
    (known : p'.known = p.known) (lowered : p'.lowered = p.lowered) (flags : p'.flags = p.flags) :
    Stage S E σ₀ p₀ D { σ with regs } R p' :=
  h.tables inv (grows_setRegs touched) rfl fun _ _ _ _ hm =>
    hm.congr (fun _ _ hu hpl => ⟨hu, hpl⟩) touched (fun _ _ hk => known ▸ hk) lowered
      fun _ hf => flags ▸ hf

theorem Stage.hand (h : Stage S E σ₀ p₀ D σ R p) {regs : RegisterFile} {owner : Option Owner}
    (handed : Handed S.budget σ.regs regs r owner)
    (dead : ∀ x, σ.place x = some (.register r) → ¬ 0 < σ.uses x) :
    Stage S E σ₀ p₀ D { σ with regs } R (p.hand r owner) :=
  h.setRegs (h.inv.hand handed dead) handed.touched rfl rfl rfl

/-- What is left of the owners after one register changed hands. -/
def Owners (σ σ' : State) (r : Reg) (owner : Option Owner) : Prop :=
  ∀ {q}, q.Valid → σ'.regs.owner q = if q = r then owner else σ.regs.owner q

theorem Stage.take (h : Stage S E σ₀ p₀ D σ R p) (hr : r.Valid)
    (free : σ.regs.owner r = none) (ample : S.Ample → r ∈ budgeted S.budget r.regClass)
    (owner : Owner) :
    Generates S (onRegs (RegisterFile.take r owner)) σ fun _ σ' =>
      Reads σ σ' [] ∧ Owners σ σ' r (some owner) ∧ σ'.values = σ.values ∧
        Stage S E σ₀ p₀ D σ' R (p.hand r (some owner)) := by
  refine (yields_onRegs (h.inv.regular.yields_take hr owner)).mono ?_ ?_
  · rintro _ _ ⟨regs, rfl, -, -, becomes⟩
    have touched (q : Reg) (hq : σ.regs.touched.contains q = true) :
        regs.touched.contains q = true := by
      rw [becomes.touched_eq, hq]
      rfl
    exact ⟨.of_eq (grows_setRegs touched) (fun _ => rfl) rfl, becomes.owner_eq, rfl,
      h.hand ⟨becomes.regular, becomes.owner_eq, becomes.lockCount_eq, touched⟩
        (h.inv.dead_of_free free)⟩
  · rintro _ _ ⟨⟨cause, rfl⟩, ⟨_, _, hbad⟩, same⟩
    exact ⟨fun hample => hbad.elim (fun hm => hm (ample hample)) fun hn => hn free,
      same ▸ h.inv.clean.sound⟩

theorem Stage.free (h : Stage S E σ₀ p₀ D σ R p) (hr : r.Valid)
    (held : p.held r = some owner) (unlocked : p.locks r = 0) :
    Generates S (onRegs (RegisterFile.free r)) σ fun _ σ' =>
      Reads σ σ' [] ∧ Owners σ σ' r none ∧ Stage S E σ₀ p₀ D σ' R (p.hand r none) := by
  have own : σ.regs.owner r ≠ none := by
    rw [h.inv.held hr held]
    exact Option.some_ne_none _
  refine (yields_onRegs_total (h.inv.regular.yields_free hr own)).mono ?_ fun _ _ he => he
  rintro _ _ ⟨regs, rfl, becomes⟩
  have touched (q : Reg) (hq : σ.regs.touched.contains q = true) :
      regs.touched.contains q = true := by rw [becomes.touched_eq, hq]
  refine ⟨.of_eq (grows_setRegs touched) (fun _ => rfl) rfl, becomes.owner_eq,
    h.hand ⟨becomes.regular, becomes.owner_eq, fun {q} hq => ?_, touched⟩
      (h.inv.writable hr held).dead⟩
  rw [becomes.lockCount_eq hq]
  split
  · next he => rw [he, h.inv.locks hr, unlocked]
  · rfl

theorem mem_budgeted_of_ample (hr : r ∈ generalOrder.take 4 ∨ r ∈ floatOrder.take 2)
    (ample : S.Ample) : r ∈ budgeted S.budget r.regClass := by
  rcases hr with hr | hr
  · have hc : r.regClass = .general :=
      (by decide : ∀ q ∈ generalOrder.take 4, q.regClass = .general) r hr
    rw [hc]
    exact List.take_subset_take_left generalOrder ample.1 hr
  · have hc : r.regClass = .float :=
      (by decide : ∀ q ∈ floatOrder.take 2, q.regClass = .float) r hr
    rw [hc]
    exact List.take_subset_take_left floatOrder ample.2 hr

/-- A register within the budget that nothing is in. -/
structure Vacant (S : Setting) (σ : State) (r : Reg) : Prop where
  mem : r ∈ budgeted S.budget r.regClass
  free : σ.regs.owner r = none
  touched : σ.regs.touched.contains r = true

theorem Vacant.valid (h : Vacant S σ r) : r.Valid := (valid_of_mem_budgeted h.mem).1

theorem Vacant.writable (h : Vacant S σ r) (inv : Inv S D σ p) : Writable σ r where
  valid := h.valid
  special := by
    rcases mem_order_of_mem_budgeted h.mem with ⟨hm, -⟩ | ⟨hm, -⟩
    · exact (by decide : ∀ q ∈ generalOrder, q ≠ .rsp ∧ q ≠ .rbp) r hm
    · exact (by decide : ∀ q ∈ floatOrder, q ≠ .rsp ∧ q ≠ .rbp) r hm
  dead := inv.dead_of_free h.free
  saved := fun _ => h.touched

/-- A value that comes to a register without an owner is that of a further node. -/
theorem Inv.notMem_of_free (h : Inv S D σ p) (free : σ.regs.owner r = none) (grows : Grows σ σ')
    (hx : Placed σ' x (.register r)) : x ∉ D := by
  intro done
  have before : 0 < σ.uses x := Nat.lt_of_lt_of_le hx.live (grows.uses_le x)
  rcases grows.moved x hx.live (h.done done before) with same | ⟨q, offset, -, moved⟩
  · exact h.dead_of_free free x (same ▸ hx.place) before
  · rw [hx.place] at moved
    cases moved

/-- A register without an owner stays so if no further node has a value to be read. -/
theorem Inv.owner_none_of_grows (h : Inv S D σ p) {D' : Finset NodeId} (h' : Inv S D' σ' p')
    (grows : Grows σ σ') (hr : r.Valid) (free : σ.regs.owner r = none) (held : p'.held r = none)
    (dead : ∀ x ∈ D', x ∉ D → σ'.uses x = 0) : σ'.regs.owner r = none := by
  cases own : σ'.regs.owner r with
  | none => rfl
  | some owner =>
    cases owner with
    | temp =>
      rw [h'.temp hr own] at held
      cases held
    | value x =>
      obtain ⟨place, live⟩ := (h'.owned hr held).1 own
      have further : x ∉ D := h.notMem_of_free free grows ⟨place, live⟩
      by_cases done : x ∈ D'
      · exact absurd (dead x done further) (Nat.ne_of_gt live)
      · rw [h'.notDone done] at place
        cases place

theorem Vacant.after (h : Vacant S σ r) (inv : Inv S D σ p) {D' : Finset NodeId}
    (inv' : Inv S D' σ' p') (held : p'.held r = none) (grows : Grows σ σ')
    (dead : ∀ x ∈ D', x ∉ D → σ'.uses x = 0) : Vacant S σ' r :=
  ⟨h.mem, inv.owner_none_of_grows inv' grows h.valid h.free held dead,
    grows.touched r h.touched⟩

/-! ## Spilling -/

/-- What a new slot or that of an earlier time is like. -/
structure Slotted (σ σ' : State) (v : NodeId) (offset : Int) : Prop where
  asm : σ'.asm = σ.asm
  stats : σ'.stats = σ.stats
  journal : σ'.journal = σ.journal
  regs : σ'.regs = σ.regs
  updated : Updated σ σ' v (σ.place v) (some offset) (σ.uses v)
  room : ∃ j < σ'.frame.spillSlots, offset = -8 * (j + 1 : Nat)
  spills : σ.frame.spillSlots ≤ σ'.frame.spillSlots
  frame : σ'.frame = { σ.frame with spillSlots := σ'.frame.spillSlots }
  fresh : ∀ x, σ.slot x = some offset → x = v

theorem Slotted.updated_place {τ : State} {offset : Int} (h : Slotted σ τ v offset)
    (hv : v < σ.values.size)
    (values : σ'.values = τ.values.setStorage v (some (.stack offset))) :
    Updated σ σ' v (some (.stack offset)) (some offset) (σ.uses v) := by
  obtain ⟨size₁, place₁, slot₁, uses₁⟩ := h.updated
  obtain ⟨size₂, place₂, slot₂, uses₂⟩ := updated_setStorage (size₁ ▸ hv) _ values
  refine ⟨size₂.trans size₁, fun y => ?_, fun y => ?_, fun y => ?_⟩
  · rw [place₂]
    split
    · rfl
    · next hy => exact (place₁ y).trans (if_neg hy)
  · rw [slot₂]
    split
    · exact (slot₁ v).trans (if_pos rfl)
    · next hy => exact (slot₁ y).trans (if_neg hy)
  · rw [uses₂]
    split
    · exact (uses₁ v).trans (if_pos rfl)
    · next hy => exact (uses₁ y).trans (if_neg hy)

theorem yields_spillSlot (σ : State) (hv : v < σ.values.size)
    (slot_eq : ∀ {x offset}, σ.slot x = some offset →
      ∃ j < σ.frame.spillSlots, offset = -8 * (j + 1 : Nat))
    (slot_inj : ∀ {x y offset}, σ.slot x = some offset → σ.slot y = some offset → x = y) :
    Generates S (spillSlot v) σ fun offset σ' => Slotted σ σ' v offset := by
  refine .bind (yields_assignment ?_)
  cases hs : (σ.values.entry v).spillSlot with
  | some offset =>
    have hs : σ.slot v = some offset := hs
    refine .of_pure ⟨rfl, rfl, rfl, rfl, ⟨rfl, fun y => ?_, fun y => ?_, fun y => ?_⟩, slot_eq hs,
      Nat.le_refl _, rfl, fun x hx => slot_inj hx hs⟩
    · split
      · next hy => rw [hy]
      · rfl
    · split
      · next hy => rw [hy, hs]
      · rfl
    · split
      · next hy => rw [hy]
      · rfl
  | none =>
    refine .bind (.of_get (.bind (.of_modify (.bind (.of_modify (.of_pure ?_))))))
    have updated : Updated σ { σ with
        frame := σ.frame.addSlot
        values := σ.values.setSpillSlot v (some σ.frame.newSlotOffset) } v (σ.place v)
        (some σ.frame.newSlotOffset) (σ.uses v) := updated_setSpillSlot hv _ rfl
    refine ⟨rfl, rfl, rfl, rfl, updated, ⟨_, Nat.lt_succ_self _, rfl⟩, Nat.le_succ _, rfl,
      fun x hx => ?_⟩
    obtain ⟨j, hj, ho⟩ := slot_eq hx
    rw [Frame.newSlotOffset] at ho
    omega

theorem Matches.spill (h : Matches S.graph E A σ p c) (inv : Inv S D σ p) (sound : E.Sound)
    (within : Within S E σ) {offset : Int} (slot : E.stack.IsSlot offset)
    (own : σ.place v = some (.register r)) (fresh : ∀ x, σ.slot x = some offset → x = v)
    (notIncoming : offset ∉ S.incomingOffsets)
    (updated : Updated σ σ' v (some (.stack offset)) (some offset) (σ.uses v))
    (touched : ∀ q, σ.regs.touched.contains q = true → σ'.regs.touched.contains q = true) :
    Matches S.graph E A σ' p
      ⟨c.entered, c.state.write (E.stack.cell offset) (c.state.named r)⟩ := by
  have other {x : NodeId} {offset' : Int} (hx : x ≠ v) (hu : 0 < σ.uses x)
      (hpl : σ.place x = some (.stack offset')) : offset' ≠ offset := by
    rintro rfl
    rcases inv.stack hpl with hs | hs
    · exact hx (fresh x hs)
    · exact notIncoming hs.1
  have written : Matches S.graph E A σ p
      ⟨c.entered, c.state.write (E.stack.cell offset) (c.state.named r)⟩ := by
    refine h.write (sound.stack.slot_free offset slot) fun x offset' hu hpl i hi => ?_
    have hne : offset' ≠ offset := by
      refine other ?_ hu hpl
      rintro rfl
      rw [own] at hpl
      cases hpl
    rcases inv.cell within ⟨hpl, hu⟩ with hs | hs
    · exact sound.stack.slots_apart offset offset' slot hs hne.symm i hi
    · refine Nat.le_of_not_lt fun hlt => ?_
      exact (sound.stack.slot_free offset slot).kept _ hlt
        (sound.stack.incoming_kept offset' hs i hi)
  have live := updated.uses_same
  refine ⟨fun {x pl} hu hpl => ?_, written.known, written.sp, written.bp, written.heap,
    written.kept, fun q hq ht => ?_, written.log, written.flags⟩
  · rw [live] at hu
    rw [updated.place_eq] at hpl
    split at hpl
    · next hx =>
      cases hpl
      subst hx
      rw [h.values hu own]
      exact congrArg (fun w => some ((S.graph.tyOf x).view w))
        (Stack.load_cell_store c.state.memory offset (c.state.named r)).symm
    · exact written.values hu hpl
  · refine written.saved q hq ?_
    cases ht' : σ.regs.touched.contains q with
    | false => rfl
    | true =>
      rw [touched q ht'] at ht
      cases ht

theorem Stage.stored (h : Stage S E σ₀ p₀ D σ R p) (hr : r.Valid) (free : p.held r = none)
    (own : σ.regs.owner r = some (.value v)) {τ : State} {regs : RegisterFile} {offset : Int}
    (slotted : Slotted { σ with regs } τ v offset) {owner : Option Owner}
    (handed : Handed S.budget σ.regs σ'.regs r owner)
    (values : σ'.values = τ.values.setStorage v (some (.stack offset)))
    (frame : σ'.frame = τ.frame) (residue : σ'.asm.residue = [])
    (grows : Grows τ { τ with asm := σ'.asm }) (journal : σ'.journal = σ.journal)
    (tally : σ'.tally = σ.tally)
    (acts : ∀ L : Machine.Site, L.Sound → L.Covers σ.buffer → L.Covers σ'.buffer → ∀ c,
      L.At σ.offset c → (∀ i, Machine.isStraight i = true →
        Machine.storeAddress? c.state i = some (c.state.memAddress (.frame offset)) →
          L.permits c.state i) → Acts L σ.buffer σ'.buffer
        (fun s => some (s.write (s.memAddress (.frame offset)) (s.named r))) c) :
    Reads σ σ' [] ∧ Stage S E σ₀ p₀ D σ' R (p.hand r owner) := by
  obtain ⟨hpl, hu⟩ := (h.inv.owned hr free).1 own
  obtain ⟨j, hj, ho⟩ := slotted.room
  have asm : τ.asm = σ.asm := slotted.asm
  have updated : Updated σ σ' v (some (.stack offset)) (some offset) (σ.uses v) :=
    have u := slotted.updated_place (place_lt_size hpl) values
    ⟨u.size, u.place_eq, u.slot_eq, u.uses_eq⟩
  have live := updated.uses_same
  have notIncoming : offset ∉ S.incomingOffsets := by
    rw [ho]
    exact slot_notMem_incoming
  obtain ⟨its, w⟩ : ∃ its, σ.buffer.Written σ'.buffer its := by
    have := grows.written
    rwa [State.buffer, asm] at this
  have balanced : σ.buffer.Balanced σ'.buffer := by
    have := grows.balanced
    rwa [State.buffer, asm] at this
  have frame' : σ'.frame = { σ.frame with spillSlots := σ'.frame.spillSlots } := by
    rw [frame]
    exact slotted.frame
  have spills : σ.frame.spillSlots ≤ σ'.frame.spillSlots := frame ▸ slotted.spills
  have grows : Grows σ σ' := by
    refine ⟨⟨its, w⟩, balanced, spills, fun hs => ?_, fun hc => ?_, handed.touched, fun x => ?_,
      fun x _ _ => ?_, journal ▸ List.suffix_rfl, reads_of_eq live journal⟩
    · rw [frame']
      exact hs
    · rw [frame']
      exact hc
    · exact Nat.le_of_eq (live x)
    · rw [Moved, updated.place_eq]
      split
      · next hx => exact .inr ⟨r, offset, hx ▸ hpl, rfl⟩
      · exact .inl rfl
  have inv : Inv S D σ' (p.hand r owner) := by
    obtain ⟨capacity, pre, hpre⟩ := h.inv.begun
    exact h.inv.vacate hr free own handed updated ho (frame ▸ hj) slotted.fresh
      ⟨spills, by rw [frame'], by rw [frame']⟩ residue ⟨capacity, _, hpre.trans w⟩
      ⟨journal.symm ▸ h.inv.clean.sound, fun forked =>
        (h.inv.clean.branches (journal ▸ forked)).later ⟨its, w⟩⟩
  refine ⟨.of_eq grows live tally, h.more inv grows fun sound within A c at_ hm => ?_⟩
  have before := within.of_grows h.inv.begun grows
  have slot : E.stack.IsSlot offset :=
    ⟨j, Nat.lt_of_lt_of_le (frame ▸ hj) within.spills, ho⟩
  have address := hm.memAddress_frame (sound.stack.near offset (.inl slot))
  have leads := (acts E.site sound.site before.code within.code c at_ fun i straight target =>
    sound.permits.slot (hm.keeps before) straight slot (target.trans (congrArg some address))).leads
      _ rfl
  refine leads.mono fun c' next => ?_
  rw [address] at next
  have hm' := (hm.spill h.inv sound before slot hpl slotted.fresh notIncoming updated
    handed.touched).setState next
  exact ⟨hm'.values, hm'.known, hm'.sp, hm'.bp, hm'.heap, hm'.kept, hm'.saved, hm'.log, hm'.flags⟩

/-- Storing the register that a value owns and passing it on. -/
theorem Stage.spill (h : Stage S E σ₀ p₀ D σ R p) (hr : r.Valid) (free : p.held r = none)
    (own : σ.regs.owner r = some (.value v)) {regs : RegisterFile} :
    Generates S (spill v r) { σ with regs } fun _ σ' =>
      σ'.regs = regs ∧ ∀ regs' owner, Handed S.budget σ.regs regs' r owner →
        Reads σ { σ' with regs := regs' } [] ∧
          Stage S E σ₀ p₀ D { σ' with regs := regs' } R (p.hand r owner) := by
  obtain ⟨hpl, hu⟩ := (h.inv.owned hr free).1 own
  have hv := place_lt_size hpl
  unfold Lowering.spill
  refine .seq (yields_spillSlot { σ with regs } hv h.inv.slot_eq h.inv.slot_inj) ?_
  rintro offset τ slotted
  have asm : τ.asm = σ.asm := slotted.asm
  have residue : τ.asm.residue = [] := asm ▸ h.inv.residue
  have clean : Clean S.graph S.ctx.root τ.journal := slotted.journal.symm ▸ h.inv.clean.sound
  -- The store does the same for both classes.
  have finish {m : Asm Unit}
      (hm : Machine.Stores m (·.memAddress (.frame offset)) (·.named r)) :
      Generates S (do
        emit m
        setStorage v (.stack offset)
        modifyStats fun s => { s with spills := s.spills + 1 }) τ fun _ σ' =>
      σ'.regs = regs ∧ ∀ regs' owner, Handed S.budget σ.regs regs' r owner →
        Reads σ { σ' with regs := regs' } [] ∧
          Stage S E σ₀ p₀ D { σ' with regs := regs' } R (p.hand r owner) := by
    refine .seq (yields_perform residue clean hm) ?_
    rintro _ _ ⟨asm', rfl, residue', coded, -, acts⟩
    rw [State.buffer, State.offset, asm] at acts
    have tally : State.tally { τ with asm := asm' } = σ.tally := coded.tally_eq.trans (by
      rw [State.tally, State.tally, slotted.stats, slotted.journal, asm, slotted.frame])
    exact .bind (yields_modifyValues (.of_modify ⟨slotted.regs, fun regs' owner handed =>
      h.stored hr free own slotted handed rfl rfl residue' coded.grows slotted.journal tally acts⟩))
  have ready : (Mem.frame offset).Ready := Mem.ready_baseDisp (by decide) offset
  cases hc : r.regClass with
  | general => exact finish (Machine.performs_store ready ⟨hr, hc⟩)
  | float => exact finish (Machine.performs_storeFloat ready ⟨hr, hc⟩)

/-! ## Requests for registers -/

/-- A register that a request gives. -/
structure Fresh (S : Setting) (p : Pose) (c : RegClass) (r : Reg) : Prop where
  mem : r ∈ budgeted S.budget c
  free : p.held r = none
  unlocked : p.locks r = 0

def Room (S : Setting) (p : Pose) (c : RegClass) : Prop := S.Ample → ∃ r, Fresh S p c r

theorem Fresh.of {c : RegClass} (h : Fresh S p c r) : r.Of c := valid_of_mem_budgeted h.mem

theorem Stage.alloc (h : Stage S E σ₀ p₀ D σ R p) {c : RegClass} (solid : p.Solid)
    (room : Room S p c) (owner : Owner) (preferred : Option Reg) :
    Generates S (alloc c owner preferred) σ fun r σ' =>
      Fresh S p c r ∧ Reads σ σ' [] ∧ Stage S E σ₀ p₀ D σ' R (p.hand r (some owner)) := by
  refine .seq (R := fun a σ' => ∃ regs, σ' = { σ with regs } ∧
    RegisterFile.Allocated S.budget σ.regs c owner a regs) ?_ ?_
  · refine (yields_onRegs (h.inv.regular.yields_allocate c owner preferred)).mono
      (fun _ _ ha => ha) ?_
    rintro _ _ ⟨⟨cause, rfl⟩, ⟨_, _, full⟩, same⟩
    refine ⟨fun ample => ?_, same ▸ h.inv.clean.sound⟩
    obtain ⟨q, fresh⟩ := room ample
    rcases full q fresh.mem with ht | hl
    · have := h.inv.temp fresh.of.1 ht
      rw [fresh.free] at this
      cases this
    · rw [h.inv.locks fresh.of.1, fresh.unlocked] at hl
      exact Nat.lt_irrefl 0 hl
  rintro ⟨r, evicted⟩ _ ⟨regs, rfl, allocated⟩
  obtain ⟨hr, hc⟩ := valid_of_mem_budgeted allocated.mem
  have free : p.held r = none := by
    cases held : p.held r with
    | none => rfl
    | some w =>
      have own := h.inv.held hr held
      rw [allocated.was, solid r w held] at own
      cases evicted <;> cases own
  have fresh : Fresh S p c r :=
    ⟨allocated.mem, free, (h.inv.locks hr).symm.trans allocated.unlocked⟩
  have handed : Handed S.budget σ.regs regs r (some owner) :=
    ⟨allocated.regular, allocated.owner_eq, allocated.lockCount_eq, fun q hq => by
      rw [allocated.touched_eq, hq]
      rfl⟩
  cases evicted with
  | none =>
    exact .bind (.of_pure (.of_pure ⟨fresh,
      .of_eq (grows_setRegs handed.touched) (fun _ => rfl) rfl,
      h.hand handed (h.inv.dead_of_free allocated.was)⟩))
  | some victim =>
    refine .seq (h.spill hr free allocated.was) ?_
    rintro _ σ' ⟨rfl, next⟩
    exact .of_pure ⟨fresh, next σ'.regs (some owner) handed⟩

theorem Stage.evict (h : Stage S E σ₀ p₀ D σ R p) (hr : r.Valid) (free : p.held r = none)
    (unlocked : p.locks r = 0) :
    Generates S (evict r) σ fun _ σ' =>
      Reads σ σ' [] ∧ Owners σ σ' r none ∧ Stage S E σ₀ p₀ D σ' R p := by
  refine .bind (yields_owner ?_)
  cases own : σ.regs.owner r with
  | none =>
    refine .of_pure ⟨.refl, fun {q} hq => ?_, h⟩
    split
    · next he => rw [he, own]
    · rfl
  | some owner =>
    cases owner with
    | temp =>
      have := h.inv.temp hr own
      rw [free] at this
      cases this
    | value victim =>
      have locked : ¬ σ.regs.isLocked r = true := by
        rw [RegisterFile.isLocked, h.inv.regular.fixed_iff hr, h.inv.locks hr, unlocked]
        exact Nat.lt_irrefl 0
      refine .bind (.of_get ?_)
      rw [if_neg locked]
      refine .seq (h.spill hr free own) ?_
      rintro _ σ' ⟨regs, next⟩
      have regular : σ'.regs.Regular S.budget := regs ▸ h.inv.regular
      have used : σ'.regs.owner r ≠ none := by
        rw [regs, own]
        exact Option.some_ne_none _
      refine (yields_onRegs_total (regular.yields_free hr used)).mono ?_ fun _ _ he => he
      rintro _ _ ⟨regs', rfl, becomes⟩
      rw [regs] at becomes
      have := next regs' none ⟨becomes.regular, becomes.owner_eq, fun {q} hq => ?_, fun q hq => ?_⟩
      · refine ⟨this.1, becomes.owner_eq, ?_⟩
        rw [← Pose.hand_none free]
        exact this.2
      · rw [becomes.lockCount_eq hq]
        split
        · next he => rw [he, h.inv.locks hr, unlocked]
        · rfl
      · rw [becomes.touched_eq, hq]

/-! ## Locks -/

theorem Inv.placed_inj (h : Inv S D σ p) (hx : Placed σ x (.register r))
    (hv : Placed σ v (.register r)) : x = v := by
  have hr := (h.register hx.place hx.live).1
  have free := h.notHeld hx.place hx.live
  have first := (h.owned hr free).2 ⟨hx.place, hx.live⟩
  have second := (h.owned hr free).2 ⟨hv.place, hv.live⟩
  rw [first] at second
  cases second
  rfl

theorem Inv.owner_of_placed (h : Inv S D σ p) (hx : Placed σ x (.register r)) :
    σ.regs.owner r = some (.value x) :=
  (h.owned (h.register hx.place hx.live).1 (h.notHeld hx.place hx.live)).2 ⟨hx.place, hx.live⟩

theorem Inv.placed_ne_rsp (h : Inv S D σ p) (placed : Placed σ x (.register r)) : r ≠ .rsp := by
  rintro rfl
  have := h.regular.owned_mem (r := .rsp) (by decide) (by
    rw [h.owner_of_placed placed]
    exact Option.some_ne_none _)
  exact notMem_budgeted (by decide) (by decide) this

theorem register?_eq (σ : State) (x : NodeId) : (σ.values.entry x).register? =
    match σ.place x with
    | some (.register r) => some r
    | _ => none := rfl

theorem Inv.setLocks (h : Inv S D σ p) {regs : RegisterFile}
    (regular : regs.Regular S.budget) (owners : ∀ {q}, q.Valid → regs.owner q = σ.regs.owner q)
    (same : p' = { p with locks := p'.locks })
    (locks : ∀ {q}, q.Valid → regs.lockCount q = p'.locks q) : Inv S D { σ with regs } p' := by
  have held : p'.held = p.held := by rw [same]
  refine { h with regular := regular, locks := locks, held := ?_, temp := ?_, owned := ?_,
                  notHeld := ?_, knownValid := ?_ }
  · intro q owner hq hheld
    rw [held] at hheld
    exact (owners hq).trans (h.held hq hheld)
  · intro q hq temp
    rw [held]
    exact h.temp hq ((owners hq).symm.trans temp)
  · intro q y hq hheld
    rw [held] at hheld
    show regs.owner q = _ ↔ _
    rw [owners hq]
    exact h.owned hq hheld
  · rw [held]
    exact h.notHeld
  · rw [same]
    exact h.knownValid

/-- What is locked while a value is to stay where it is. -/
structure Locked (σ : State) (x : NodeId) (l : Option Reg) : Prop where
  placed : ∀ r, l = some r → Placed σ x (.register r)

theorem Stage.lockValue (h : Stage S E σ₀ p₀ D σ R p) (hu : 0 < σ.uses x) :
    Generates S (lockValue x) σ fun l σ' =>
      Reads σ σ' [] ∧ Locked σ' x l ∧ Stage S E σ₀ p₀ D σ' R (p.lock l) := by
  have nothing : Reads σ σ [] ∧ Locked σ x none ∧ Stage S E σ₀ p₀ D σ R (p.lock none) :=
    ⟨.refl, ⟨fun _ hl => by cases hl⟩, by simpa [Pose.lock] using h⟩
  refine .bind (yields_assignment ?_)
  rw [register?_eq]
  cases hpl : σ.place x with
  | none => exact .of_pure nothing
  | some pl =>
    cases pl with
    | stack offset => exact .of_pure nothing
    | immediate value => exact .of_pure nothing
    | register r =>
      have placed : Placed σ x (.register r) := ⟨hpl, hu⟩
      have hr := (h.inv.register hpl hu).1
      have own := h.inv.owner_of_placed placed
      refine .bind (yields_owner ?_)
      rw [if_pos own]
      have used : σ.regs.owner r ≠ none := by
        rw [own]
        exact Option.some_ne_none _
      refine .seq (yields_onRegs_total (h.inv.regular.yields_lock hr used)) ?_
      rintro _ _ ⟨regs, rfl, becomes⟩
      have touched (q : Reg) (hq : σ.regs.touched.contains q = true) :
          regs.touched.contains q = true := by rw [becomes.touched_eq, hq]
      refine .of_pure ⟨.of_eq (grows_setRegs touched) (fun _ => rfl) rfl,
        ⟨fun q hq => Option.some.inj hq ▸ ⟨hpl, hu⟩⟩, h.setRegs
          (h.inv.setLocks becomes.regular becomes.owner_eq rfl fun {q} hq => ?_)
          touched rfl rfl rfl⟩
      rw [becomes.lockCount_eq hq, h.inv.locks hr, h.inv.locks hq]
      simp only [Pose.lock, Option.some.injEq]
      by_cases he : q = r
      · rw [if_pos he, if_pos he.symm, he]
      · rw [if_neg he, if_neg (Ne.symm he)]

theorem Stage.unlock {l : Option Reg} (hl : ∀ r, l = some r → r.Valid)
    (h : Stage S E σ₀ p₀ D σ R (p.lock l)) :
    Generates S (unlock l) σ fun _ σ' => Reads σ σ' [] ∧ Stage S E σ₀ p₀ D σ' R p := by
  cases l with
  | none => exact .of_pure ⟨.refl, by simpa [Pose.lock] using h⟩
  | some r =>
    have hr := hl r rfl
    have count : σ.regs.lockCount r = p.locks r + 1 := by
      rw [h.inv.locks hr]
      exact if_pos rfl
    refine (yields_onRegs_total (h.inv.regular.yields_unlock hr (by omega))).mono ?_
      fun _ _ he => he
    rintro _ _ ⟨regs, rfl, becomes⟩
    have touched (q : Reg) (hq : σ.regs.touched.contains q = true) :
        regs.touched.contains q = true := by rw [becomes.touched_eq, hq]
    refine ⟨.of_eq (grows_setRegs touched) (fun _ => rfl) rfl, h.setRegs
      (h.inv.setLocks becomes.regular becomes.owner_eq rfl fun {q} hq => ?_) touched rfl rfl rfl⟩
    rw [becomes.lockCount_eq hq, count, h.inv.locks hq]
    simp only [Pose.lock, Option.some.injEq]
    by_cases he : q = r
    · rw [if_pos he, he, Nat.add_sub_cancel]
    · rw [if_neg he, if_neg (Ne.symm he)]

theorem Stage.withLocked (h : Stage S E σ₀ p₀ D σ R p) (hu : 0 < σ.uses x) {α : Type}
    {m : Lower α} (xs : List NodeId) (mid : α → Pose → Prop)
    (hm : ∀ l σ', Reads σ σ' [] → Locked σ' x l → Stage S E σ₀ p₀ D σ' R (p.lock l) →
      Generates S m σ' fun a σ'' =>
        Reads σ' σ'' xs ∧ ∃ q, mid a q ∧ Stage S E σ₀ p₀ D σ'' R (q.lock l)) :
    Generates S (withLocked x m) σ fun a σ' =>
      Reads σ σ' xs ∧ ∃ q, mid a q ∧ Stage S E σ₀ p₀ D σ' R q := by
  refine .seq (h.lockValue hu) ?_
  rintro l σ₁ ⟨reads, locked, stage⟩
  have valid (r : Reg) (hl : l = some r) : r.Valid :=
    have placed := locked.placed r hl
    (stage.inv.register placed.place placed.live).1
  refine .seq (hm l σ₁ reads locked stage) ?_
  rintro a σ₂ ⟨reads', q, hq, stage'⟩
  refine .seq (stage'.unlock valid) ?_
  rintro _ σ₃ ⟨reads'', stage''⟩
  exact .of_pure ⟨by simpa using (reads.trans reads').trans reads'', q, hq, stage''⟩

/-- There is room if few registers of the class are held or locked. -/
theorem room_of_few {c : RegClass} (busy : List Reg)
    (few : busy.length < match c with | .general => 4 | .float => 2)
    (h : ∀ q, q.Of c → (p.held q ≠ none ∨ p.locks q ≠ 0) → q ∈ busy) : Room S p c := by
  intro ample
  have nodup : (budgeted S.budget c).Nodup := by
    cases c with
    | general => exact (show generalOrder.Nodup by decide).sublist (List.take_sublist ..)
    | float => exact (show floatOrder.Nodup by decide).sublist (List.take_sublist ..)
  have length : busy.length < (budgeted S.budget c).length := by
    have hg : generalOrder.length = 13 := rfl
    have hf : floatOrder.length = 15 := rfl
    obtain ⟨ag, af⟩ := ample
    cases c with
    | general =>
      rw [budgeted, List.length_take, hg]
      dsimp only at few
      omega
    | float =>
      rw [budgeted, List.length_take, hf]
      dsimp only at few
      omega
  obtain ⟨q, hq, hne⟩ : ∃ q ∈ budgeted S.budget c, q ∉ busy := by
    refine Classical.byContradiction fun hall => ?_
    have sub : budgeted S.budget c ⊆ busy := fun q hq =>
      Classical.byContradiction fun hne => hall ⟨q, hq, hne⟩
    exact Nat.not_le_of_lt length (nodup.subperm sub).length_le
  have hc := valid_of_mem_budgeted hq
  refine ⟨q, hq, ?_, ?_⟩
  · exact Classical.byContradiction fun hh => hne (h q hc (.inl hh))
  · exact Classical.byContradiction fun hh => hne (h q hc (.inr hh))

end NativeExpr.Lowering
