import NativeExpr.Proofs.Assembling
import NativeExpr.Proofs.Lowering.Reading

/-!
# Entering and leaving a function

A function that needs a frame saves the frame pointer, makes room below it and saves
the registers it has to keep; at the end it takes them back. Between the two stands
the body as it was finished.
-/
namespace NativeExpr

open X64

namespace Machine

variable {a a' a'' : Assembler} {s s' t : State} {r q : Reg} {w : Word} {m : Memory}

/-- Straight code between two points of assembly: from states of one kind it leads to
related states. -/
structure Straight (a a' : Assembler) (pre : Site → State → Prop) (post : State → State → Prop) :
    Prop where
  residue : a'.residue = []
  balanced : a.buffer.Balanced a'.buffer
  written : ∃ is : List Instruction, a.buffer.Written a'.buffer (is.map .instr)
  leads : ∀ L : Site, L.Sound → L.Covers a.buffer → L.Covers a'.buffer → ∀ c,
    L.At a.buffer.size c → pre L c.state →
      L.Leads a.buffer.size a'.buffer.size c fun c' =>
        c'.entered = c.entered ∧ post c.state c'.state

namespace Straight

variable {pre pre' : Site → State → Prop} {post post' : State → State → Prop}

theorem refl (residue : a.residue = []) (h : ∀ s, post s s) : Straight a a pre post :=
  ⟨residue, .refl, ⟨[], .refl⟩, fun _ _ _ _ c at_ _ => .refl at_ ⟨rfl, h c.state⟩⟩

theorem trans (h : Straight a a' pre post) (h' : Straight a' a'' pre' post')
    (link : ∀ L s s', pre L s → post s s' → pre' L s') :
    Straight a a'' pre fun s s'' => ∃ s', post s s' ∧ post' s' s'' := by
  obtain ⟨is, w⟩ := h.written
  obtain ⟨is', w'⟩ := h'.written
  refine ⟨h'.residue, h.balanced.trans h'.balanced w.labels w'.labels, ⟨is ++ is', ?_⟩,
    fun L sound before after c at_ hp => ?_⟩
  · rw [List.map_append]
    exact w.trans w'
  · obtain ⟨capacity, its, begun⟩ := before.1
    have between : L.Covers a'.buffer := after.before ⟨capacity, _, begun.trans w⟩ w'
    refine (h.leads L sound before between c at_ hp).trans fun c₁ at₁ ⟨same, h₁⟩ => ?_
    refine (h'.leads L sound between after c₁ at₁ (link L _ _ hp h₁)).mono fun c₂ ⟨same', h₂⟩ => ?_
    exact ⟨same'.trans same, _, h₁, h₂⟩

theorem imp (h : Straight a a' pre post) (hpre : ∀ L s, pre' L s → pre L s)
    (hpost : ∀ L s s', pre' L s → post s s' → post' s s') : Straight a a' pre' post' :=
  ⟨h.residue, h.balanced, h.written, fun L sound before after c at_ hp =>
    (h.leads L sound before after c at_ (hpre L _ hp)).mono fun _ ⟨same, hq⟩ =>
      ⟨same, hpost L _ _ hp hq⟩⟩

end Straight

/-- A state is like another one but for a register and memory. Flags are left open. -/
structure Becomes (s : State) (r : Reg) (w : Word) (m : Memory) (s' : State) : Prop where
  named : ∀ q, q.Valid → s'.named q = if q = r then w else s.named q
  memory : s'.memory = m

/-- Whether a straight instruction is permitted that writes at an address, or nowhere. -/
def Site.Lets (L : Site) (s : State) (address : Option Word) : Prop :=
  ∀ i, isStraight i = true → storeAddress? s i = address → L.permits s i

theorem straight_of_effect {op : Asm Unit} {address : State → Option Word}
    {f : State → Option State} (ok : Prop) (hop : PerformsAt op address f) (ha : a.residue = [])
    {post : State → State → Prop} (setPc : ∀ s t pc, post s t → post s (t.setPc pc))
    (effect : ok → ∀ s, ∃ t, f s = some t ∧ post s t) :
    Yields op a (fun _ a' => Straight a a' (fun L s => ok ∧ L.Lets s (address s)) post)
      fun e _ => e.IsOverflow := by
  refine (hop a ha).mono ?_ fun _ _ he => he
  rintro _ a' ⟨residue, balanced, is, length, w, straight, effects⟩
  refine ⟨residue, balanced, ⟨is, w⟩, fun L sound before after c at_ ⟨hok, lets⟩ => ?_⟩
  obtain ⟨t, ht, related⟩ := effect hok c.state
  refine (before.leads_written sound w after length (fun i hi => (straight i hi).1) at_
    (fun i hi => lets i (straight i hi).1 ((straight i hi).2 _))
    ((effects c.state).trans ht)).mono fun c' ⟨same, pc, hc'⟩ => ⟨same, ?_⟩
  rw [hc']
  exact setPc _ _ _ related

theorem straight_of {op : Asm Unit} {address : State → Option Word} {f : State → Option State}
    (ok : Prop) (hop : PerformsAt op address f) (ha : a.residue = []) {word : State → Word}
    {memory : State → Memory}
    (becomes : ok → ∀ s, ∃ t, f s = some t ∧ Becomes s r (word s) (memory s) t) :
    Yields op a (fun _ a' => Straight a a' (fun L s => ok ∧ L.Lets s (address s))
      fun s s' => Becomes s r (word s) (memory s) s') fun e _ => e.IsOverflow :=
  straight_of_effect ok hop ha (fun _ _ _ h => ⟨h.named, h.memory⟩) becomes

theorem becomes_setNamed (hr : r.Valid) : Becomes s r w s.memory (s.setNamed r w) :=
  ⟨fun _ hq => State.named_setNamed hr hq, State.memory_setNamed⟩

/-! ## Saved registers -/

/-- Memory after registers were stored at offsets from an address. -/
def saving (base : Word) (content : Reg → Word) (m : Memory) (xs : List (Reg × Int)) : Memory :=
  xs.foldl (fun m x => m.store (base + BitVec.ofInt 64 x.2) (content x.1)) m

theorem memAddress_frame (s : State) {slot : Int} (fits : fitsSigned 32 slot = true) :
    s.memAddress (.frame slot) = s.named .rbp + BitVec.ofInt 64 slot :=
  memAddress_baseDisp s .rbp slot fits

theorem saving_congr {base : Word} {content content' : Reg → Word} {m : Memory}
    {xs : List (Reg × Int)} (h : ∀ x ∈ xs, content' x.1 = content x.1) :
    saving base content' m xs = saving base content m xs := by
  induction xs generalizing m with
  | nil => rfl
  | cons x xs ih =>
    rw [saving, List.foldl_cons, h x (List.mem_cons_self ..)]
    exact ih fun y hy => h y (List.mem_cons_of_mem _ hy)

theorem yields_saves (xs : List (Reg × Int)) (hx : ∀ x ∈ xs, x.1.Of .general)
    (ha : a.residue = []) :
    Yields (xs.forM fun (r, slot) => Assembler.store (.frame slot) r) a
      (fun _ a' => Straight a a' (fun L s => (∀ x ∈ xs, fitsSigned 32 x.2 = true) ∧
          ∀ t, ∀ x ∈ xs, L.Lets t (some (s.named .rbp + BitVec.ofInt 64 x.2)))
        fun s s' => (∀ q, q.Valid → s'.named q = s.named q) ∧
          s'.memory = saving (s.named .rbp) s.named s.memory xs)
      fun e _ => e.IsOverflow := by
  induction xs generalizing a with
  | nil => exact .of_pure (.refl ha fun s => ⟨fun _ _ => rfl, rfl⟩)
  | cons x xs ih =>
    obtain ⟨r, slot⟩ := x
    have ready : (Mem.frame slot).Ready := Mem.ready_baseDisp (by decide) slot
    have one := straight_of (r := .rsp) True (performs_store ready (hx _ (List.mem_cons_self ..)))
      ha fun _ s => ⟨_, rfl, fun q _ => (ite_eq_right_iff.2 fun h => by rw [h]).symm, rfl⟩
    refine .seq one fun _ a₁ first => ?_
    refine (ih (fun x hx' => hx x (List.mem_cons_of_mem _ hx')) first.residue).mono
      (fun _ a₂ rest => ?_) fun _ _ he => he
    have same {s s' : State} {w : Word} {m : Memory} (hw : w = s.named .rsp)
        (h : Becomes s .rsp w m s') (q : Reg) (hq : q.Valid) : s'.named q = s.named q := by
      rw [h.named q hq]
      exact ite_eq_right_iff.2 fun he => hw.trans (congrArg s.named he.symm)
    refine ((first.imp (fun L s hp => ⟨trivial, ?_⟩) fun _ _ _ _ h => h).trans rest
      fun L s s' hp h => ?_).imp (fun _ _ hp => hp) fun L s s' hp ⟨s₁, h, kept, memory⟩ => ?_
    · show L.Lets s (some (s.memAddress (.frame slot)))
      rw [memAddress_frame s (hp.1 _ (List.mem_cons_self ..))]
      exact hp.2 s _ (List.mem_cons_self ..)
    · rw [same rfl h .rbp (by decide)]
      exact ⟨fun x hx' => hp.1 x (List.mem_cons_of_mem _ hx'),
        fun t x hx' => hp.2 t x (List.mem_cons_of_mem _ hx')⟩
    · refine ⟨fun q hq => (kept q hq).trans (same rfl h q hq), ?_⟩
      rw [memory, h.memory, same rfl h .rbp (by decide),
        saving_congr fun x hx' => same rfl h _ (hx x (List.mem_cons_of_mem _ hx')).1]
      show saving _ _ (s.memory.store (s.memAddress (.frame slot)) (s.named r)) xs = _
      rw [memAddress_frame s (hp.1 _ (List.mem_cons_self ..))]
      rfl

/-- Registers are as they were saved. -/
structure Restored (xs : List (Reg × Int)) (s s' : State) : Prop where
  memory : s'.memory = s.memory
  same : ∀ q, q.Valid → q ∉ xs.map Prod.fst → s'.named q = s.named q
  back : ∀ x ∈ xs, s'.named x.1 = s.memory.load (s.named .rbp + BitVec.ofInt 64 x.2) 8

theorem yields_restores (xs : List (Reg × Int)) (hx : ∀ x ∈ xs, x.1.Of .general ∧ x.1 ≠ .rbp)
    (nodup : (xs.map Prod.fst).Nodup) (ha : a.residue = []) :
    Yields (xs.forM fun (r, slot) => Assembler.load none r (.frame slot)) a
      (fun _ a' => Straight a a'
        (fun L _ => (∀ x ∈ xs, fitsSigned 32 x.2 = true) ∧ ∀ t, L.Lets t none) (Restored xs))
      fun e _ => e.IsOverflow := by
  induction xs generalizing a with
  | nil => exact .of_pure (.refl ha fun s => ⟨rfl, fun _ _ _ => rfl, fun _ hx => by cases hx⟩)
  | cons x xs ih =>
    obtain ⟨r, slot⟩ := x
    obtain ⟨hr, ne⟩ := hx _ (List.mem_cons_self ..)
    obtain ⟨fresh, rest⟩ := List.nodup_cons.1 nodup
    have ready : (Mem.frame slot).Ready := Mem.ready_baseDisp (by decide) slot
    have one := straight_of True (performs_load hr ready) ha fun _ s =>
      ⟨_, rfl, becomes_setNamed hr.1⟩
    refine .seq one fun _ a₁ first => ?_
    refine (ih (fun x hx' => hx x (List.mem_cons_of_mem _ hx')) rest first.residue).mono
      (fun _ a₂ rest => ?_) fun _ _ he => he
    refine ((first.imp (fun L s hp => ⟨trivial, hp.2 s⟩) fun _ _ _ _ h => h).trans rest
      fun L s s' hp h => ⟨fun x hx' => hp.1 x (List.mem_cons_of_mem _ hx'), hp.2⟩).imp
      (fun _ _ hp => hp) fun L s s' hp ⟨s₁, h, h'⟩ => ?_
    have bp : s₁.named .rbp = s.named .rbp := by
      rw [h.named .rbp (by decide), if_neg (Ne.symm ne)]
    refine ⟨h'.memory.trans h.memory, fun q hq hn => ?_, fun x hx' => ?_⟩
    · rw [List.map_cons, List.mem_cons, not_or] at hn
      rw [h'.same q hq hn.2, h.named q hq, if_neg hn.1]
    · rcases List.mem_cons.1 hx' with rfl | hx'
      · rw [h'.same r hr.1 fresh, h.named r hr.1, if_pos rfl]
        show s.memory.load (s.memAddress (.frame slot)) 8 = _
        rw [memAddress_frame s (hp.1 _ (List.mem_cons_self ..))]
      · rw [h'.back x hx', h.memory, bp]

end Machine

open Machine

namespace Frame

variable {f : Frame} {a a' : Assembler} {s s' : State} {q : Reg}

/-! ## The prologue -/

theorem map_fst_saves (f : Frame) : f.saves.map Prod.fst = f.saved := by
  refine List.ext_getElem? fun i => ?_
  rw [saves, List.getElem?_map, List.getElem?_mapIdx]
  cases f.saved[i]? <;> rfl

/-- A frame saves registers that a function has to keep, each once. -/
structure Keeps (f : Frame) : Prop where
  saved : ∀ r ∈ f.saved, r ∈ Convention.calleeSaved
  nodup : f.saved.Nodup

theorem Keeps.mem (h : f.Keeps) {x : Reg × Int} (hx : x ∈ f.saves) :
    x.1.Of .general ∧ x.1 ≠ .rsp ∧ x.1 ≠ .rbp := by
  have mem := h.saved x.1 (f.map_fst_saves ▸ List.mem_map_of_mem hx)
  revert mem
  generalize x.1 = r
  have all : ∀ r ∈ Convention.calleeSaved, r.Of .general ∧ r ≠ .rsp ∧ r ≠ .rbp := by decide
  exact all r

theorem Keeps.notMem_rbp (h : f.Keeps) : Reg.rbp ∉ f.saved := fun hm =>
  absurd (h.saved _ hm) (by decide)

/-- What the prologue of a frame needs. -/
structure Opens (f : Frame) (L : Site) (s : State) : Prop where
  small : f.size < 2147483648
  quiet : ∀ t, L.Lets t none
  link : L.Lets s (some (s.named .rsp - 8))
  saves : ∀ t, ∀ x ∈ f.saves, L.Lets t (some (s.named .rsp - 8 + BitVec.ofInt 64 x.2))

/-- What the prologue of a frame does. -/
structure Opened (f : Frame) (s s' : State) : Prop where
  sp : s'.named .rsp = s.named .rsp - 8 - BitVec.ofNat 64 f.size
  bp : s'.named .rbp = s.named .rsp - 8
  named : ∀ q, q.Valid → q ≠ .rsp → q ≠ .rbp → s'.named q = s.named q
  memory : s'.memory = saving (s.named .rsp - 8) s.named
    (s.memory.store (s.named .rsp - 8) (s.named .rbp)) f.saves

theorem size_mod (f : Frame) : f.size % 16 = 0 := Convention.alignStack_mod _

theorem le_size (f : Frame) : 8 * (f.spillSlots + f.saved.length) ≤ f.size :=
  Convention.le_alignStack _

theorem fits_saveSlot (small : f.size < 2147483648) {x : Reg × Int} (hx : x ∈ f.saves) :
    fitsSigned 32 x.2 = true := by
  obtain ⟨i, hi, rfl⟩ := List.mem_mapIdx.1 hx
  simp only [saveSlot]
  have le := f.le_size
  exact fitsSigned_of_bounds (by omega) (by omega)

/-- The prologue makes room below the frame pointer, if any is needed, and goes on. -/
theorem yields_lower (f : Frame) (ha : a.residue = []) {k : PUnit → Asm Unit}
    {post : Unit → Assembler → Prop}
    (next : ∀ a', Straight a a' (fun L s => f.size < 2147483648 ∧ L.Lets s none)
      (fun s s' => Becomes s .rsp (s.named .rsp - BitVec.ofNat 64 f.size) s.memory s') →
        Yields (k ⟨⟩) a' post fun e _ => e.IsOverflow) :
    Yields (if 0 < f.size then
        Assembler.alu .sub .rsp (.imm (BitVec.ofNat 32 f.size)) >>= k else k ⟨⟩)
      a post fun e _ => e.IsOverflow := by
  split
  · refine .seq (straight_of (r := .rsp) _ (performs_alu .sub (by decide) (by rfl)) ha
      fun small s => ?_) fun _ a' lowered => next a' lowered
    obtain ⟨flags, hf⟩ := execAlu_eq (show Reg.rsp.Of .general by decide) .sub s
      (BitVec.ofNat 64 f.size)
    have word : s.operand (.imm (BitVec.ofNat 32 f.size)) = BitVec.ofNat 64 f.size :=
      signExtend_ofNat small
    rw [word, hf]
    exact ⟨_, rfl, (becomes_setNamed (show Reg.rsp.Valid by decide)).named, State.memory_setNamed⟩
  · next none =>
    refine next a (.refl ha fun s => ⟨fun q _ => ?_, rfl⟩)
    rw [Nat.eq_zero_of_not_pos none]
    exact (ite_eq_right_iff.2 fun h => by rw [h]; exact BitVec.sub_zero _).symm

theorem yields_emitPrologue (keeps : f.Keeps) (ha : a.residue = []) :
    Yields f.emitPrologue a (fun _ a' => Straight a a' f.Opens f.Opened)
      fun e _ => e.IsOverflow := by
  have pushes (s : State) : Becomes s .rsp (s.named .rsp - 8)
      (s.memory.store (s.named .rsp - 8) (s.named .rbp))
      ((s.setNamed .rsp (s.named .rsp - 8)).write (s.named .rsp - 8) (s.named .rbp)) :=
    ⟨fun q hq => by
      rw [State.named_write, State.named_setNamed (show Reg.rsp.Valid by decide) hq], by
      rw [State.write, State.memory_setNamed]⟩
  have push := straight_of True (performs_push (show Reg.Of .general .rbp by decide)) ha
    fun _ s => ⟨_, rfl, pushes s⟩
  unfold emitPrologue
  refine .seq push fun _ a₁ pushed => ?_
  have mov := straight_of True (performs_mov (o := .reg .rsp)
    (show Reg.Of .general .rbp by decide) (show Reg.Of .general .rsp by decide)) pushed.residue
      fun _ s => ⟨_, rfl, becomes_setNamed (by decide)⟩
  refine .seq mov fun _ a₂ moved => ?_
  refine yields_lower f moved.residue fun a₃ lowered => ?_
  refine (yields_saves f.saves (fun x hx => (keeps.mem hx).1) lowered.residue).mono
    (fun _ a₄ saved => ?_) fun _ _ he => he
  have opens := pushed.imp (fun L s (hp : f.Opens L s) => ⟨trivial, hp.link⟩) fun _ _ _ _ h => h
  -- the frame pointer when the registers are saved
  have base {s s₁ s₂ s₃ : State} {w : Word} {m m' m'' : Memory}
      (h₁ : Becomes s .rsp (s.named .rsp - 8) m s₁) (h₂ : Becomes s₁ .rbp (s₁.named .rsp) m' s₂)
      (h₃ : Becomes s₂ .rsp w m'' s₃) : s₃.named .rbp = s.named .rsp - 8 := by
    rw [h₃.named .rbp (by decide), if_neg (by decide), h₂.named .rbp (by decide), if_pos rfl,
      h₁.named .rsp (by decide), if_pos rfl]
  refine (((opens.trans moved fun L s _ hp _ => ⟨trivial, hp.quiet _⟩).trans lowered
    fun L s _ hp _ => ⟨hp.small, hp.quiet _⟩).trans saved ?_).imp (fun _ _ hp => hp) ?_
  · rintro L s s₃ hp ⟨s₂, ⟨s₁, h₁, h₂⟩, h₃⟩
    rw [base h₁ h₂ h₃]
    exact ⟨fun x hx => fits_saveSlot hp.small hx, hp.saves⟩
  · rintro L s s₄ hp ⟨s₃, ⟨s₂, ⟨s₁, h₁, h₂⟩, h₃⟩, kept, memory⟩
    have other (q : Reg) (hq : q.Valid) (ne : q ≠ .rsp) (ne' : q ≠ .rbp) :
        s₃.named q = s.named q := by
      rw [h₃.named q hq, if_neg ne, h₂.named q hq, if_neg ne', h₁.named q hq, if_neg ne]
    refine ⟨?_, ?_, fun q hq ne ne' => ?_, ?_⟩
    · rw [kept _ (by decide), h₃.named .rsp (by decide), if_pos rfl, h₂.named .rsp (by decide),
        if_neg (by decide), h₁.named .rsp (by decide), if_pos rfl]
    · rw [kept _ (by decide), base h₁ h₂ h₃]
    · rw [kept q hq, other q hq ne ne']
    · rw [memory, base h₁ h₂ h₃, h₃.memory, h₂.memory, h₁.memory]
      refine saving_congr fun x hx => ?_
      obtain ⟨hr, ne, ne'⟩ := keeps.mem hx
      exact other x.1 hr.1 ne ne'

/-! ## The epilogue -/

/-- What the epilogue of a frame does before the return. -/
structure Closed (f : Frame) (s s' : State) : Prop where
  sp : s'.named .rsp = s.named .rbp + 8
  bp : s'.named .rbp = s.memory.load (s.named .rbp) 8
  named : ∀ q, q.Valid → q ≠ .rsp → q ≠ .rbp → q ∉ f.saved → s'.named q = s.named q
  back : ∀ x ∈ f.saves, s'.named x.1 = s.memory.load (s.named .rbp + BitVec.ofInt 64 x.2) 8
  memory : s'.memory = s.memory

/-- A word was taken from the stack into the frame pointer. -/
structure Popped (s s' : State) : Prop where
  sp : s'.named .rsp = s.named .rsp + 8
  bp : s'.named .rbp = s.memory.load (s.named .rsp) 8
  named : ∀ q, q.Valid → q ≠ .rsp → q ≠ .rbp → s'.named q = s.named q
  memory : s'.memory = s.memory

theorem popped_pop (s : State) : Popped s ((s.setNamed .rsp (s.named .rsp + 8)).setNamed .rbp
    (s.memory.load (s.named .rsp) 8)) := by
  have rsp : Reg.rsp.Valid := by decide
  have rbp : Reg.rbp.Valid := by decide
  refine ⟨?_, ?_, fun q hq ne ne' => ?_, ?_⟩
  · rw [State.named_setNamed rbp rsp, if_neg (by decide), State.named_setNamed rsp rsp, if_pos rfl]
  · rw [State.named_setNamed rbp rbp, if_pos rfl]
  · rw [State.named_setNamed rbp hq, if_neg ne', State.named_setNamed rsp hq, if_neg ne]
  · rw [State.memory_setNamed, State.memory_setNamed]

theorem yields_emitClose (keeps : f.Keeps) (ha : a.residue = []) :
    Yields f.emitClose a (fun _ a' => Straight a a'
      (fun L _ => f.size < 2147483648 ∧ ∀ t, L.Lets t none) f.Closed)
      fun e _ => e.IsOverflow := by
  have nodup : (f.saves.map Prod.fst).Nodup := f.map_fst_saves ▸ keeps.nodup
  refine .seq
    (yields_restores f.saves (fun x hx => ⟨(keeps.mem hx).1, (keeps.mem hx).2.2⟩) nodup ha)
    fun _ a₁ restored => ?_
  have mov := straight_of True (performs_mov (o := .reg .rbp)
    (show Reg.Of .general .rsp by decide) (show Reg.Of .general .rbp by decide)) restored.residue
      fun _ s => ⟨_, rfl, becomes_setNamed (by decide)⟩
  refine .seq mov fun _ a₂ moved => ?_
  refine (straight_of_effect True (performs_pop (show Reg.Of .general .rbp by decide)) moved.residue
    (fun _ _ _ h => ⟨h.sp, h.bp, h.named, h.memory⟩) fun _ s => ⟨_, rfl, popped_pop s⟩).mono
      (fun _ a₃ popped => ?_) fun _ _ he => he
  refine (((restored.imp (fun L s hp => ⟨fun x hx => fits_saveSlot hp.1 hx, hp.2⟩)
    fun _ _ _ _ h => h).trans moved fun L s _ hp _ => ⟨trivial, hp.2 _⟩).trans popped
      fun L s _ hp _ => ⟨trivial, hp.2 _⟩).imp (fun _ _ hp => hp) ?_
  rintro L s s₃ hp ⟨s₂, ⟨s₁, h₁, h₂⟩, h₃⟩
  have base : s₁.named .rbp = s.named .rbp :=
    h₁.same _ (by decide) (f.map_fst_saves ▸ keeps.notMem_rbp)
  have sp : s₂.named .rsp = s.named .rbp := by
    rw [h₂.named .rsp (by decide), if_pos rfl]
    exact base
  have other (q : Reg) (hq : q.Valid) (ne : q ≠ .rsp) (ne' : q ≠ .rbp) :
      s₃.named q = s₁.named q := by
    rw [h₃.named q hq ne ne', h₂.named q hq, if_neg ne]
  refine ⟨by rw [h₃.sp, sp], by rw [h₃.bp, sp, h₂.memory, h₁.memory], fun q hq ne ne' hn => ?_,
    fun x hx => ?_, by rw [h₃.memory, h₂.memory, h₁.memory]⟩
  · rw [other q hq ne ne', h₁.same q hq (f.map_fst_saves ▸ hn)]
  · obtain ⟨hr, ne, ne'⟩ := keeps.mem hx
    rw [other x.1 hr.1 ne ne', h₁.back x hx]

/-! ## Whole functions -/

def Enters (f : Frame) (s s' : State) : Prop := if f.isNeeded then f.Opened s s' else s' = s

def Leaves (f : Frame) (s s' : State) : Prop := if f.isNeeded then f.Closed s s' else s' = s

/-- The code of a function around the instructions of its body. -/
structure Wraps (f : Frame) (is : List Instruction) (a : Assembler) (prologue : Nat)
    (last : Assembler) : Prop where
  parts : ∃ a₁ a₂ a₃ : Assembler, prologue = a₁.buffer.size ∧
    Straight a a₁ (fun L s => f.isNeeded = true → f.Opens L s) f.Enters ∧
    a₁.buffer.Written a₂.buffer (is.map .instr) ∧
    Straight a₂ a₃ (fun L _ => f.isNeeded = true →
      f.size < 2147483648 ∧ ∀ t, L.Lets t none) f.Leaves ∧
    a₃.buffer.Written last.buffer [.instr .ret]

theorem yields_emitRaw {is : List Instruction} {bytes : List Byte}
    (valid : ∀ i ∈ is, i.refused? = none) (hb : bytes = blanks (is.map .instr)) :
    Yields (Assembler.emitRaw bytes) a
      (fun _ a' => a.buffer.Written a'.buffer (is.map .instr) ∧ a'.residue = a.residue)
      fun e _ => e.IsOverflow := by
  have emitted : Yields (CodeBuffer.emit bytes) a.buffer
      (fun _ b => a.buffer.Written b (is.map .instr)) fun e _ => e.IsOverflow := by
    unfold Yields CodeBuffer.emit
    by_cases h : a.buffer.capacity < a.buffer.size + bytes.length
    · simp only [if_pos h]
      trivial
    · simp only [if_neg h]
      refine ⟨?_, ?_, rfl, fun it hit => ?_, Nat.le_refl _, fun _ _ ht => ht⟩
      · simp [hb]
      · rw [patchesFrom_instrs, List.append_nil]
      · obtain ⟨i, hi, rfl⟩ := List.mem_map.1 hit
        exact valid i hi
  exact yields_onBuffer emitted

theorem yields_ret (ha : a.residue = []) :
    Yields Assembler.ret a (fun _ a' => a.buffer.Written a'.buffer [.instr .ret])
      fun e _ => e.IsOverflow :=
  (yields_emit rfl ha).mono (fun _ _ h => h.2.1) fun _ _ h => h

theorem yields_emitFunction (keeps : f.Keeps) (ha : a.residue = []) (empty : a.buffer.size = 0)
    {is : List Instruction} {body : Array Byte} (valid : ∀ i ∈ is, i.refused? = none)
    (hb : body.toList = blanks (is.map .instr)) :
    Yields (f.emitFunction body) a (f.Wraps is a) fun e _ => e.IsOverflow := by
  unfold emitFunction
  split
  · next needed =>
    refine .seq (yields_emitPrologue keeps ha) fun _ a₁ opened => ?_
    refine .bind (.of_get (.seq (yields_emitRaw valid hb) ?_))
    rintro _ a₂ ⟨written, residue⟩
    rw [emitEpilogue_eq, bind_assoc]
    refine .seq (yields_emitClose keeps (residue.trans opened.residue)) fun _ a₃ closed => ?_
    refine .seq (yields_ret closed.residue) fun _ last w => ?_
    refine .of_pure ⟨a₁, a₂, a₃, rfl, opened.imp (fun L _ hp => hp needed) fun _ _ _ _ h => ?_,
      written, closed.imp (fun L _ hp => hp needed) fun _ _ _ _ h => ?_, w⟩
    · rwa [Enters, if_pos needed]
    · rwa [Leaves, if_pos needed]
  · next bare =>
    refine .seq (yields_emitRaw valid hb) ?_
    rintro _ a₂ ⟨written, residue⟩
    refine .seq (yields_ret (residue.trans ha)) fun _ last w => ?_
    refine .of_pure ⟨a, a₂, a₂, empty.symm, .refl ha fun s => ?_, written,
      .refl (residue.trans ha) fun s => ?_, w⟩
    · rw [Enters, if_neg bare]
    · rw [Leaves, if_neg bare]

end Frame

end NativeExpr
