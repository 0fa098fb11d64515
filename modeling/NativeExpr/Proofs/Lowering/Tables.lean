import NativeExpr.Proofs.Lowering.Invariant

/-!
# Changes of the tables

Every change that lowering makes to its tables keeps the invariant: a register
that changes hands, a value that gets a place, moves to its slot, or is read.
-/
namespace NativeExpr

open X64

namespace ValueTable

theorem entry_update (t : ValueTable) {i : Nat} (hi : i < t.size) (f : Assignment → Assignment)
    (j : Nat) : (t.update i f).entry j = if j = i then f (t.entry i) else t.entry j := by
  simp only [entry, update, Array.getD_eq_getD_getElem?, Array.getElem?_modify]
  by_cases h : j = i
  · rw [if_pos h.symm, if_pos h, h, Array.getElem?_eq_getElem hi]
    rfl
  · rw [if_neg (Ne.symm h), if_neg h]

theorem size_update (t : ValueTable) (i : Nat) (f : Assignment → Assignment) :
    (t.update i f).size = t.size := Array.size_modify

theorem entry_of_le {t : ValueTable} {i : Nat} (h : t.size ≤ i) : t.entry i = .unused := by
  rw [entry, Array.getD_eq_getD_getElem?, Array.getElem?_eq_none h]
  rfl

theorem update_self {t : ValueTable} {i : Nat} {f : Assignment → Assignment}
    (h : f (t.entry i) = t.entry i) : t.update i f = t := by
  apply Array.ext
  · exact Array.size_modify
  · intro j hj hj'
    simp only [update, Array.getElem_modify]
    split
    · next he =>
      have entry : t.entry i = t[j] := by
        rw [entry, Array.getD_eq_getD_getElem?, he, Array.getElem?_eq_getElem hj']
        rfl
      rw [← entry, h]
    · rfl

theorem getD_useCounts (t : ValueTable) (i : Nat) :
    t.useCounts.getD i 0 = (t.entry i).usesLeft := by
  simp only [useCounts, entry, Array.getD_eq_getD_getElem?, Array.getElem?_map]
  cases t[i]? <;> rfl

end ValueTable

namespace Lowering

variable {S : Setting} {σ σ' : State} {p p' : Pose} {D : Finset NodeId}
variable {α : Type} {x y id : NodeId} {r q : Reg}

/-! ## Running parts of the state -/

theorem yields_emit {m : Asm α} {post : α → Assembler → Prop} {fails : CompileError → Prop}
    (h : Yields m σ.asm post fun e _ => fails e) :
    Yields (emit m) σ (fun a σ' => ∃ asm, σ' = { σ with asm } ∧ post a asm)
      (fun e σ' => fails e ∧ σ'.journal = σ.journal) := by
  obtain ⟨asm, regs, values, frame, stats, journal⟩ := σ
  unfold Yields emit at *
  dsimp only at h ⊢
  cases hm : m asm with
  | ok a asm' =>
    rw [hm] at h
    exact ⟨asm', rfl, h⟩
  | error e asm' =>
    rw [hm] at h
    exact ⟨h, rfl⟩

theorem yields_onRegs {m : EStateM RegisterError RegisterFile α} {post : α → RegisterFile → Prop}
    {fails : RegisterError → RegisterFile → Prop} (h : Yields m σ.regs post fails) :
    Yields (onRegs m) σ (fun a σ' => ∃ regs, σ' = { σ with regs } ∧ post a regs)
      (fun e σ' => (∃ cause, e = .registerAllocation cause) ∧ (∃ cause regs, fails cause regs) ∧
        σ'.journal = σ.journal) := by
  obtain ⟨asm, regs, values, frame, stats, journal⟩ := σ
  unfold Yields onRegs at *
  dsimp only at h ⊢
  cases hm : m regs with
  | ok a regs' =>
    rw [hm] at h
    exact ⟨regs', rfl, h⟩
  | error e regs' =>
    rw [hm] at h
    exact ⟨⟨_, rfl⟩, ⟨e, regs', h⟩, rfl⟩

theorem yields_onRegs_total {m : EStateM RegisterError RegisterFile α}
    {post : α → RegisterFile → Prop} {fails : CompileError → State → Prop}
    (h : Yields m σ.regs post fun _ _ => False) :
    Yields (onRegs m) σ (fun a σ' => ∃ regs, σ' = { σ with regs } ∧ post a regs) fails :=
  (yields_onRegs h).mono (fun _ _ h => h)
    fun _ _ h => h.2.1.elim fun _ h => h.elim fun _ h => h.elim

theorem yields_modifyValues {f : ValueTable → ValueTable} {post : Unit → State → Prop}
    {fails : CompileError → State → Prop} (h : post () { σ with values := f σ.values }) :
    Yields (modifyValues f) σ post fails := .of_modify h

theorem uses_lt_size (h : 0 < σ.uses x) : x < σ.values.size := by
  refine Nat.lt_of_not_le fun hle => ?_
  rw [State.uses, ValueTable.entry_of_le hle] at h
  exact Nat.lt_irrefl 0 h

theorem place_lt_size {pl : Storage} (h : σ.place x = some pl) : x < σ.values.size := by
  refine Nat.lt_of_not_le fun hle => ?_
  rw [State.place, ValueTable.entry_of_le hle] at h
  cases h

/-! ## Tables that change in one place -/

/-- The tables of a state after an update of one entry. -/
structure Updated (σ σ' : State) (x : NodeId) (place : Option Storage) (slot : Option Int)
    (uses : Nat) : Prop where
  size : σ'.values.size = σ.values.size
  place_eq : ∀ y, σ'.place y = if y = x then place else σ.place y
  slot_eq : ∀ y, σ'.slot y = if y = x then slot else σ.slot y
  uses_eq : ∀ y, σ'.uses y = if y = x then uses else σ.uses y

namespace Updated

variable {place : Option Storage} {slot : Option Int} {uses : Nat}

theorem place_same (h : Updated σ σ' x (σ.place x) slot uses) (y : NodeId) :
    σ'.place y = σ.place y := by
  rw [h.place_eq]
  split
  · next he => rw [he]
  · rfl

theorem slot_same (h : Updated σ σ' x place (σ.slot x) uses) (y : NodeId) :
    σ'.slot y = σ.slot y := by
  rw [h.slot_eq]
  split
  · next he => rw [he]
  · rfl

theorem uses_same (h : Updated σ σ' x place slot (σ.uses x)) (y : NodeId) :
    σ'.uses y = σ.uses y := by
  rw [h.uses_eq]
  split
  · next he => rw [he]
  · rfl

end Updated

theorem updated_update (hx : x < σ.values.size) (f : Assignment → Assignment)
    (hv : σ'.values = σ.values.update x f) :
    Updated σ σ' x (f (σ.values.entry x)).storage (f (σ.values.entry x)).spillSlot
      (f (σ.values.entry x)).usesLeft := by
  constructor
  case size => rw [hv, ValueTable.size_update]
  case place_eq =>
    intro y
    rw [State.place, hv, ValueTable.entry_update _ hx]
    split <;> rfl
  case slot_eq =>
    intro y
    rw [State.slot, hv, ValueTable.entry_update _ hx]
    split <;> rfl
  case uses_eq =>
    intro y
    rw [State.uses, hv, ValueTable.entry_update _ hx]
    split <;> rfl

theorem updated_setStorage (hx : x < σ.values.size) (pl : Storage)
    (hv : σ'.values = σ.values.setStorage x (some pl)) :
    Updated σ σ' x (some pl) (σ.slot x) (σ.uses x) :=
  updated_update hx (fun a => { a with storage := some pl }) hv

theorem updated_setSpillSlot (hx : x < σ.values.size) (o : Int)
    (hv : σ'.values = σ.values.setSpillSlot x (some o)) :
    Updated σ σ' x (σ.place x) (some o) (σ.uses x) :=
  updated_update hx (fun a => { a with spillSlot := some o }) hv

theorem updated_removeUse (hx : x < σ.values.size)
    (hv : σ'.values = σ.values.update x .removeUse) :
    Updated σ σ' x (σ.place x) (σ.slot x) (σ.uses x - 1) :=
  updated_update hx .removeUse hv

/-! ## Changes of the invariant -/

theorem incomingOffset_nonneg {o : Int} (h : o ∈ S.incomingOffsets) : 0 ≤ o := by
  simp only [Setting.incomingOffsets, List.mem_filterMap] at h
  obtain ⟨location, -, h⟩ := h
  cases location with
  | register r => cases h
  | stack offset =>
    have h : stackArgOffset offset = o := Option.some.inj h
    unfold stackArgOffset at h
    omega

/-- Slots of values and offsets of stack arguments are different. -/
theorem slot_notMem_incoming {j : Nat} : (-8 * (j + 1 : Nat) : Int) ∉ S.incomingOffsets := by
  intro h
  have := incomingOffset_nonneg h
  omega

theorem Inv.setAsm (h : Inv S D σ p) {asm : Assembler} (residue : asm.residue = [])
    {its : List Item} (hw : σ.buffer.Written asm.buffer its) : Inv S D { σ with asm } p := by
  obtain ⟨capacity, pre, hpre⟩ := h.begun
  exact { h with
    residue
    begun := ⟨capacity, _, hpre.trans hw⟩
    clean := ⟨h.clean.sound, fun forked => (h.clean.branches forked).later ⟨_, hw⟩⟩ }

/-- A register gets another owner or none, and no lock changes. -/
structure Handed (budget : ByClass Nat) (f f' : RegisterFile) (r : Reg) (owner : Option Owner) :
    Prop where
  regular : f'.Regular budget
  owner_eq : ∀ {q}, q.Valid → f'.owner q = if q = r then owner else f.owner q
  lockCount_eq : ∀ {q}, q.Valid → f'.lockCount q = f.lockCount q
  touched : ∀ q, f.touched.contains q = true → f'.touched.contains q = true

/-- Registers that are held have their owners, and temporaries are held, also when some registers
have got another owner. They are held for it, or for nothing any more if it is a value. -/
theorem Inv.rehold (h : Inv S D σ p) {regs : RegisterFile} {owner kept : Option Owner}
    {P : Reg → Prop} [DecidablePred P]
    (owners : ∀ {q}, q.Valid → regs.owner q = if P q then owner else σ.regs.owner q)
    (held : ∀ q, p'.held q = if P q then kept else p.held q)
    (suits : kept = owner ∨ kept = none ∧ owner ≠ some .temp) :
    (∀ {q o}, q.Valid → p'.held q = some o → regs.owner q = some o) ∧
      ∀ {q}, q.Valid → regs.owner q = some .temp → p'.held q = some .temp := by
  constructor
  · intro q o hq hheld
    rw [held] at hheld
    rw [owners hq]
    split at hheld
    · next given =>
      rw [if_pos given]
      rcases suits with same | ⟨free, -⟩
      · rw [← same, hheld]
      · rw [free] at hheld
        cases hheld
    · next other =>
      rw [if_neg other]
      exact h.held hq hheld
  · intro q hq temp
    rw [owners hq] at temp
    rw [held]
    split at temp
    · next given =>
      rw [if_pos given]
      rcases suits with same | ⟨-, solid⟩
      · rw [same, temp]
      · exact absurd temp solid
    · next other =>
      rw [if_neg other]
      exact h.temp hq temp

/-- Slots that stay as they are stay in the frame, and apart. -/
theorem Inv.slots (h : Inv S D σ p) (slot : ∀ y, σ'.slot y = σ.slot y)
    (frame : σ'.frame = σ.frame) :
    (∀ {y o}, σ'.slot y = some o → ∃ j < σ'.frame.spillSlots, o = -8 * (j + 1 : Nat)) ∧
      ∀ {y z o}, σ'.slot y = some o → σ'.slot z = some o → y = z := by
  constructor
  · intro y o hy
    rw [slot] at hy
    rw [frame]
    exact h.slot_eq hy
  · intro y z o hy hz
    rw [slot] at hy hz
    exact h.slot_inj hy hz

theorem Inv.handed_self (h : Inv S D σ p) (hr : r.Valid) {owner : Owner}
    (held : p.held r = some owner) : Handed S.budget σ.regs σ.regs r (some owner) := by
  refine ⟨h.regular, fun {q} hq => ?_, fun _ => rfl, fun _ hq => hq⟩
  split
  · next he => rw [he, h.held hr held]
  · rfl

/-- A register that holds no value with reads to come gets another owner. -/
theorem Inv.hand (h : Inv S D σ p) {regs : RegisterFile} {owner : Option Owner}
    (handed : Handed S.budget σ.regs regs r owner)
    (dead : ∀ x, σ.place x = some (.register r) → ¬ 0 < σ.uses x) :
    Inv S D { σ with regs } (p.hand r owner) := by
  have given (q : Reg) : (p.hand r owner).held q = if q = r then owner else p.held q := rfl
  obtain ⟨held, temp⟩ := h.rehold handed.owner_eq given (.inl rfl)
  refine { h with regular := handed.regular, locks := ?_, held, temp, owned := ?_, notHeld := ?_ }
  · intro q hq
    exact (handed.lockCount_eq hq).trans (h.locks hq)
  · intro q x hq held
    simp only [Pose.hand] at held
    show regs.owner q = _ ↔ _
    rw [handed.owner_eq hq]
    split at held
    · next he =>
      rw [if_pos he, held]
      refine iff_of_false (fun hn => by cases hn) fun hn => ?_
      exact dead x (he ▸ hn.1) hn.2
    · next he =>
      rw [if_neg he]
      exact h.owned hq held
  · intro x q hpl hu
    simp only [Pose.hand]
    rw [if_neg]
    · exact h.notHeld hpl hu
    · rintro rfl
      exact dead x hpl hu

/-- The register of a value is given away, and the value gets a slot for its place. -/
theorem Inv.vacate (h : Inv S D σ p) {v : NodeId} (hr : r.Valid) (hp : p.held r = none)
    (own : σ.regs.owner r = some (.value v)) {offset : Int} {j : Nat} {owner : Option Owner}
    (handed : Handed S.budget σ.regs σ'.regs r owner)
    (updated : Updated σ σ' v (some (.stack offset)) (some offset) (σ.uses v))
    (slot : offset = -8 * (j + 1 : Nat)) (room : j < σ'.frame.spillSlots)
    (fresh : ∀ x, σ.slot x = some offset → x = v)
    (frame : σ.frame.spillSlots ≤ σ'.frame.spillSlots ∧
      σ'.frame.usesStackParams = σ.frame.usesStackParams ∧ σ'.frame.saved = σ.frame.saved)
    (residue : σ'.asm.residue = [])
    (begun : ∃ capacity its, CodeBuffer.Written (.new capacity) σ'.buffer its)
    (clean : σ'.Clean S.graph S.ctx.root) : Inv S D σ' (p.hand r owner) := by
  have live := updated.uses_same
  obtain ⟨size, place_eq, slot_eq, -⟩ := updated
  obtain ⟨hplace, huses⟩ := (h.owned hr hp).1 own
  have owners {q : Reg} (hq : q.Valid) := handed.owner_eq hq
  have held (q : Reg) : (p.hand r owner).held q = if q = r then owner else p.held q := rfl
  obtain ⟨holds, temp⟩ := h.rehold handed.owner_eq held (.inl rfl)
  have heldOther {q : Reg} (hq : q ≠ r) : (p.hand r owner).held q = p.held q := if_neg hq
  have placeRegister {x : NodeId} {q : Reg} (hpl : σ'.place x = some (.register q)) :
      x ≠ v ∧ σ.place x = some (.register q) := by
    rw [place_eq] at hpl
    split at hpl
    · cases hpl
    · next hx => exact ⟨hx, hpl⟩
  have otherRegister {x : NodeId} {q : Reg} (hx : x ≠ v) (hpl : σ.place x = some (.register q))
      (hu : 0 < σ.uses x) : q ≠ r := by
    rintro rfl
    have := (h.owned hr hp).2 ⟨hpl, hu⟩
    rw [own] at this
    cases this
    exact hx rfl
  constructor
  case size => rw [size, h.size]
  case regular => exact handed.regular
  case locks =>
    intro q hq
    exact (handed.lockCount_eq hq).trans (h.locks hq)
  case held => exact holds
  case temp => exact temp
  case owned =>
    intro q x hq hheld
    rw [owners hq, live]
    by_cases he : q = r
    · rw [if_pos he]
      rw [held, if_pos he] at hheld
      rw [hheld]
      refine iff_of_false (fun hn => by cases hn) fun ⟨hpl, hu⟩ => ?_
      obtain ⟨hx, hpl⟩ := placeRegister hpl
      exact otherRegister hx hpl hu he
    · rw [if_neg he, h.owned hq (heldOther he ▸ hheld), place_eq]
      refine and_congr_left fun hu => ?_
      by_cases hx : x = v
      · rw [if_pos hx, hx, hplace]
        refine iff_of_false (fun hn => ?_) fun hn => by cases hn
        exact he (Storage.register.inj (Option.some.inj hn)).symm
      · rw [if_neg hx]
  case notHeld =>
    intro x q hpl hu
    rw [live] at hu
    obtain ⟨hx, hpl⟩ := placeRegister hpl
    rw [heldOther (otherRegister hx hpl hu)]
    exact h.notHeld hpl hu
  case register =>
    intro x q hpl hu
    rw [live] at hu
    exact h.register (placeRegister hpl).2 hu
  case done =>
    intro x hx hu
    rw [live] at hu
    rw [place_eq]
    split
    · exact Option.some_ne_none _
    · exact h.done hx hu
  case notDone =>
    intro x hx
    rw [place_eq]
    split
    · next hv =>
      rw [hv] at hx
      rw [h.notDone hx] at hplace
      cases hplace
    · exact h.notDone hx
  case stack =>
    intro x o' hpl
    rw [place_eq] at hpl
    rw [slot_eq, frame.2.1]
    split at hpl
    · next hv =>
      rw [if_pos hv]
      cases hpl
      exact .inl rfl
    · next hv =>
      rw [if_neg hv]
      exact h.stack hpl
  case constant =>
    intro x c hpl hu
    rw [live] at hu
    rw [place_eq] at hpl
    split at hpl
    · cases hpl
    · exact h.constant hpl hu
  case slot_eq =>
    intro x o' hs
    rw [slot_eq] at hs
    split at hs
    · cases hs
      exact ⟨j, room, slot⟩
    · obtain ⟨k, hk, ho⟩ := h.slot_eq hs
      exact ⟨k, Nat.lt_of_lt_of_le hk frame.1, ho⟩
  case slot_inj =>
    intro x y o' hx hy
    rw [slot_eq] at hx hy
    split at hx <;> split at hy
    · next hxv hyv => rw [hxv, hyv]
    · next hxv hyv =>
      cases hx
      exact absurd (fresh y hy) hyv
    · next hxv hyv =>
      cases hy
      exact absurd (fresh x hx) hxv
    · exact h.slot_inj hx hy
  case knownValid => exact h.knownValid
  case saved => rw [frame.2.2, h.saved]
  case residue => exact residue
  case begun => exact begun
  case clean => exact clean

/-- The registers after a read of a value that leaves `left` reads to come. Without one the
register of the value has got another owner, for which it is held, or none. -/
structure Released (S : Setting) (σ : State) (p : Pose) (x : NodeId) (left : Nat)
    (owner : Option Owner) (regs : RegisterFile) (p' : Pose) : Prop where
  regular : regs.Regular S.budget
  owner_eq : ∀ {q}, q.Valid → regs.owner q =
    if left = 0 ∧ σ.place x = some (.register q) then owner else σ.regs.owner q
  held_eq : ∀ q, p'.held q =
    if left = 0 ∧ σ.place x = some (.register q) then owner else p.held q
  lockCount_eq : ∀ {q}, q.Valid → regs.lockCount q = p'.locks q
  touched : ∀ q, σ.regs.touched.contains q = true → regs.touched.contains q = true

/-- With another read to come, or without a register, all registers stay as they are. -/
theorem Inv.released_self (h : Inv S D σ p) {left : Nat} {owner : Option Owner}
    (still : ∀ q, ¬(left = 0 ∧ σ.place x = some (.register q))) :
    Released S σ p x left owner σ.regs p where
  regular := h.regular
  owner_eq _ := (if_neg (still _)).symm
  held_eq q := (if_neg (still q)).symm
  lockCount_eq := h.locks
  touched _ hq := hq

theorem Inv.read (h : Inv S D σ p) (hu : 0 < σ.uses x) {uses : Nat} {owner : Option Owner}
    (updated : Updated σ σ' x (σ.place x) (σ.slot x) uses) (asm : σ'.asm = σ.asm)
    (frame : σ'.frame = σ.frame) (released : Released S σ p x uses owner σ'.regs p')
    (knownValid : ∀ {q P}, p'.known q = some P → q.Valid) (clean : σ'.Clean S.graph S.ctx.root) :
    Inv S D σ' p' := by
  have place := updated.place_same
  have slot := updated.slot_same
  obtain ⟨holds, temp⟩ := h.rehold released.owner_eq released.held_eq (.inl rfl)
  obtain ⟨slotEq, slotInj⟩ := h.slots slot frame
  have live {y : NodeId} (hy : 0 < σ'.uses y) : 0 < σ.uses y := by
    rw [updated.uses_eq] at hy
    split at hy
    · next he =>
      rw [he]
      exact hu
    · exact hy
  -- A value with reads to come is not in the register that is given back.
  have apart {y : NodeId} {q : Reg} (hpl : σ.place y = some (.register q)) (hy : 0 < σ'.uses y) :
      ¬(uses = 0 ∧ σ.place x = some (.register q)) := by
    intro back
    have hq := (h.register back.2 hu).1
    have free := h.notHeld back.2 hu
    have first := (h.owned hq free).2 ⟨back.2, hu⟩
    have second := (h.owned hq free).2 ⟨hpl, live hy⟩
    rw [first] at second
    cases second
    rw [updated.uses_eq, if_pos rfl, back.1] at hy
    exact Nat.lt_irrefl 0 hy
  constructor
  case size => rw [updated.size, h.size]
  case regular => exact released.regular
  case locks => exact released.lockCount_eq
  case held => exact holds
  case temp => exact temp
  case owned =>
    intro q y hq hheld
    rw [released.held_eq] at hheld
    rw [released.owner_eq hq, place]
    split at hheld
    · next back =>
      rw [if_pos back, hheld]
      exact iff_of_false (fun hn => by cases hn) fun hn => apart hn.1 hn.2 back
    · next back =>
      rw [if_neg back, h.owned hq hheld]
      refine and_congr_right fun hpl => ⟨fun hy => ?_, live⟩
      rw [updated.uses_eq]
      split
      · next he =>
        rw [he] at hpl
        exact Nat.pos_of_ne_zero fun hz => back ⟨hz, hpl⟩
      · exact hy
  case notHeld =>
    intro y q hpl hy
    rw [place] at hpl
    rw [released.held_eq, if_neg (apart hpl hy)]
    exact h.notHeld hpl (live hy)
  case register =>
    intro y q hpl hy
    rw [place] at hpl
    exact h.register hpl (live hy)
  case done =>
    intro y hy hy'
    rw [place]
    exact h.done hy (live hy')
  case notDone =>
    intro y hy
    rw [place]
    exact h.notDone hy
  case stack =>
    intro y offset hpl
    rw [place] at hpl
    rw [slot, frame]
    exact h.stack hpl
  case constant =>
    intro y v hpl hy
    rw [place] at hpl
    exact h.constant hpl (live hy)
  case slot_eq => exact slotEq
  case slot_inj => exact slotInj
  case knownValid => exact knownValid
  case saved => rw [frame, h.saved]
  case residue => rw [asm, h.residue]
  case begun =>
    rw [State.buffer, asm]
    exact h.begun
  case clean => exact clean

theorem Inv.aside (h : Inv S D σ p) (hid : id ∉ D) (q : Reg) : σ.place id ≠ some (.register q) := by
  rw [h.notDone hid]
  exact fun hn => by cases hn

/-- The state in which a node has its place, with what became of the registers. -/
def State.withPlace (σ : State) (id : NodeId) (pl : Storage) (regs : RegisterFile) : State :=
  { σ with
    regs
    values := σ.values.setStorage id (some pl) }

theorem yields_setStorage {pl : Storage} {post : Unit → State → Prop}
    {fails : CompileError → State → Prop} (h : post () (σ.withPlace id pl σ.regs)) :
    Yields (setStorage id pl) σ post fails := .of_modify h

theorem updated_withPlace (hu : 0 < σ.uses id) (pl : Storage) (regs : RegisterFile) :
    Updated σ (σ.withPlace id pl regs) id (some pl) (σ.slot id) (σ.uses id) :=
  updated_setStorage (uses_lt_size hu) pl rfl

/-- A place for a node: a register that is held until the node owns it, an argument on the stack,
or a constant that instructions can carry. -/
structure Housed (S : Setting) (σ : State) (p : Pose) (id : NodeId) (pl : Storage)
    (regs : RegisterFile) (p' : Pose) : Prop where
  regular : regs.Regular S.budget
  owner_eq : ∀ {q}, q.Valid → regs.owner q =
    if pl = .register q then some (.value id) else σ.regs.owner q
  held_eq : ∀ q, p'.held q = if pl = .register q then none else p.held q
  lockCount_eq : ∀ {q}, q.Valid → regs.lockCount q = p'.locks q
  touched : ∀ q, σ.regs.touched.contains q = true → regs.touched.contains q = true
  register : ∀ q, pl = .register q → p.held q ≠ none ∧ q.Of (S.graph.tyOf id).regClass
  stack : ∀ offset, pl = .stack offset →
    offset ∈ S.incomingOffsets ∧ σ.frame.usesStackParams = true
  constant : ∀ v, pl = .immediate v →
    (S.graph.tyOf id).isFloat = false ∧ (v.setWidth 32).signExtend 64 = v

theorem Inv.housed_register (h : Inv S D σ p) (hr : r.Of (S.graph.tyOf id).regClass)
    {owner : Owner} (held : p.held r = some owner) {regs : RegisterFile}
    (handed : Handed S.budget σ.regs regs r (some (.value id)))
    (held' : p'.held = (p.hand r none).held) (locks' : p'.locks = p.locks) :
    Housed S σ p id (.register r) regs p' := by
  have here (q : Reg) : Storage.register r = .register q ↔ q = r := by
    rw [Storage.register.injEq]
    exact eq_comm
  refine ⟨handed.regular, fun {q} hq => ?_, fun q => ?_, fun {q} hq => ?_, handed.touched,
    fun q he => ?_, nofun, nofun⟩
  · rw [if_congr (here q) rfl rfl]
    exact handed.owner_eq hq
  · rw [held', if_congr (here q) rfl rfl]
    rfl
  · rw [handed.lockCount_eq hq, locks', h.locks hq]
  · cases he
    exact ⟨by rw [held]; exact Option.some_ne_none _, hr⟩

theorem Inv.housed_aside (h : Inv S D σ p) {pl : Storage} (notRegister : ∀ q, pl ≠ .register q)
    (stack : ∀ offset, pl = .stack offset →
      offset ∈ S.incomingOffsets ∧ σ.frame.usesStackParams = true)
    (constant : ∀ v, pl = .immediate v →
      (S.graph.tyOf id).isFloat = false ∧ (v.setWidth 32).signExtend 64 = v)
    (held' : p'.held = p.held) (locks' : p'.locks = p.locks) :
    Housed S σ p id pl σ.regs p' where
  regular := h.regular
  owner_eq _ := (if_neg (notRegister _)).symm
  held_eq q := by rw [if_neg (notRegister q), held']
  lockCount_eq hq := by rw [locks', h.locks hq]
  touched _ hq := hq
  register q he := absurd he (notRegister q)
  stack := stack
  constant := constant

theorem Inv.settle (h : Inv S D σ p) (aside : ∀ q, σ.place id ≠ some (.register q))
    (hu : 0 < σ.uses id) {pl : Storage} {regs : RegisterFile}
    (housed : Housed S σ p id pl regs p')
    (knownValid : ∀ {q P}, p'.known q = some P → q.Valid) :
    Inv S (insert id D) (σ.withPlace id pl regs) p' := by
  have updated := updated_withPlace hu pl regs
  have uses := updated.uses_same
  have slot := updated.slot_same
  obtain ⟨holds, temp⟩ := h.rehold housed.owner_eq housed.held_eq (.inr ⟨rfl, nofun⟩)
  obtain ⟨slotEq, slotInj⟩ := h.slots slot rfl
  have other {y : NodeId} {pl' : Storage} (hy : y ≠ id)
      (hpl : (σ.withPlace id pl regs).place y = some pl') : σ.place y = some pl' := by
    rwa [updated.place_eq, if_neg hy] at hpl
  have self : (σ.withPlace id pl regs).place id = some pl := by rw [updated.place_eq, if_pos rfl]
  have apart {y : NodeId} {q : Reg} (hpl : σ.place y = some (.register q)) (hy : 0 < σ.uses y) :
      pl ≠ .register q := fun he => (housed.register q he).1 (h.notHeld hpl hy)
  constructor
  case size => rw [updated.size, h.size]
  case regular => exact housed.regular
  case locks => exact housed.lockCount_eq
  case held => exact holds
  case temp => exact temp
  case owned =>
    intro q y hq hheld
    show regs.owner q = some (.value y) ↔ _
    rw [housed.owner_eq hq, uses]
    rw [housed.held_eq] at hheld
    by_cases hy : y = id
    · rw [hy, self]
      split at hheld
      · next he =>
        rw [if_pos he, he]
        exact iff_of_true rfl ⟨rfl, hu⟩
      · next he =>
        rw [if_neg he, h.owned hq hheld]
        exact iff_of_false (fun hn => aside q hn.1) fun hn => he (Option.some.inj hn.1)
    · rw [updated.place_eq, if_neg hy]
      split at hheld
      · next he =>
        rw [if_pos he]
        refine iff_of_false (fun hn => hy ?_) fun hn => apart hn.1 hn.2 he
        cases hn
        rfl
      · next he =>
        rw [if_neg he]
        exact h.owned hq hheld
  case notHeld =>
    intro y q hpl hy
    rw [uses] at hy
    rw [housed.held_eq]
    by_cases he : y = id
    · rw [he, self] at hpl
      rw [if_pos (Option.some.inj hpl)]
    · have hpl := other he hpl
      rw [if_neg (apart hpl hy)]
      exact h.notHeld hpl hy
  case register =>
    intro y q hpl hy
    rw [uses] at hy
    by_cases he : y = id
    · rw [he, self] at hpl
      rw [he]
      exact (housed.register q (Option.some.inj hpl)).2
    · exact h.register (other he hpl) hy
  case done =>
    intro y hy hy'
    rw [uses] at hy'
    by_cases he : y = id
    · rw [he, self]
      exact Option.some_ne_none _
    · rw [updated.place_eq, if_neg he]
      exact h.done (Finset.mem_of_mem_insert_of_ne hy he) hy'
  case notDone =>
    intro y hy
    rw [Finset.mem_insert, not_or] at hy
    rw [updated.place_eq, if_neg hy.1]
    exact h.notDone hy.2
  case stack =>
    intro y offset hpl
    rw [slot]
    by_cases he : y = id
    · rw [he, self] at hpl
      exact .inr (housed.stack offset (Option.some.inj hpl))
    · exact h.stack (other he hpl)
  case constant =>
    intro y v hpl hy
    rw [uses] at hy
    by_cases he : y = id
    · rw [he, self] at hpl
      rw [he]
      exact housed.constant v (Option.some.inj hpl)
    · exact h.constant (other he hpl) hy
  case slot_eq => exact slotEq
  case slot_inj => exact slotInj
  case knownValid => exact knownValid
  case saved => exact h.saved
  case residue => exact h.residue
  case begun => exact h.begun
  case clean => exact h.clean

theorem Inv.widen (h : Inv S D σ p) (D' : Finset NodeId) (le : D ⊆ D')
    (dead : ∀ x ∈ D', x ∉ D → σ.uses x = 0) : Inv S D' σ p :=
  { h with
    done := fun {x} hx hu => h.done (Classical.byContradiction fun hD =>
      Nat.ne_of_gt hu (dead x hx hD)) hu
    notDone := fun hx => h.notDone fun hD => hx (le hD) }

/-! ## Between the nodes -/

theorem Inv.agree (h : Inv S D σ p) (held : p.held = fun _ => none) (locks : p.locks = fun _ => 0) :
    Tables.Agree S.graph ⟨σ.regs, σ.values⟩ where
  owner_of_register hpl hu := (h.owned (h.register hpl hu).1 (by rw [held])).2 ⟨hpl, hu⟩
  register_of_owner hr own := (h.owned hr (by rw [held])).1 own
  noTemporary hr temp := by
    have := h.temp hr temp
    rw [held] at this
    cases this
  unlocked {r} hr := by
    have count : σ.regs.lockCount r = 0 := by rw [h.locks hr, locks]
    refine ⟨Bool.eq_false_iff.2 fun fixed => ?_, count⟩
    exact Nat.lt_irrefl 0 (count ▸ (h.regular.fixed_iff hr).1 fixed)
  allocated_iff hr := h.regular.used_iff hr
  slot_of_stack hpl negative := by
    rcases h.stack hpl with slot | ⟨incoming, -⟩
    · exact slot
    · exact absurd (incomingOffset_nonneg incoming) (by omega)
  slot_inj hx hy := h.slot_inj hx hy
  register_of hpl hu := h.register hpl hu

end Lowering
end NativeExpr
