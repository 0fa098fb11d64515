import NativeExpr.Proofs.Encoding
import NativeExpr.Proofs.Outcome
import NativeExpr.X64.Assembler

/-!
# Code in a buffer

What a buffer holds is a sequence of instructions and of branches to labels.
Finishing the buffer resolves every branch in place, so that the finished code
is the sequence of encoded instructions at the offsets they were appended at.
-/
namespace NativeExpr.X64

open NativeExpr

/-- What is appended to a buffer at a time. -/
inductive Item
  | instr (i : Instruction)
  | jump (label : Nat)
  | jumpIf (c : Condition) (label : Nat)

namespace Item

/-- The bytes that are appended, the displacement of a branch still blank. -/
def blank : Item → List Byte
  | instr i => i.encode
  | jump _ => [0xE9] ++ List.replicate 4 0
  | jumpIf c _ => [0x0F, 0x80 ||| c.code.setWidth 8] ++ List.replicate 4 0

def size (it : Item) : Nat := it.blank.length

def Valid : Item → Prop
  | instr i => i.refused? = none
  | jump _ | jumpIf .. => True

/-- The branch to be resolved of an item at an offset. -/
def patches (offset : Nat) : Item → List Patch
  | instr _ => []
  | jump label => [⟨label, offset + 1⟩]
  | jumpIf _ label => [⟨label, offset + 2⟩]

/-- The displacement from the end of a branch to its target. -/
def distance (target : Nat → Nat) (label after : Nat) : Int := (target label : Int) - (after : Nat)

/-- The instruction an item becomes at an offset, for the offsets of the labels. -/
def resolve (target : Nat → Nat) (offset : Nat) : Item → Instruction
  | instr i => i
  | jump label => .jump (BitVec.ofInt 32 (distance target label (offset + 1 + 4)))
  | jumpIf c label => .jumpIf c (BitVec.ofInt 32 (distance target label (offset + 2 + 4)))

variable {target : Nat → Nat} {offset : Nat}

theorem length_resolve (it : Item) : (it.resolve target offset).encode.length = it.size := by
  cases it <;> simp [resolve, size, blank, Instruction.encode]

theorem size_pos (it : Item) : 0 < it.size := by
  rw [← @length_resolve (fun _ => 0) 0]
  exact (length_encode _).1

theorem Valid.resolve {it : Item} (h : it.Valid) : (it.resolve target offset).refused? = none := by
  cases it with
  | instr i => exact h
  | jump label => rfl
  | jumpIf c label => rfl

end Item

def blanks (its : List Item) : List Byte := its.flatMap Item.blank

/-- The branches of a sequence of items that starts at an offset. -/
def patchesFrom (offset : Nat) : List Item → List Patch
  | [] => []
  | it :: its => it.patches offset ++ patchesFrom (offset + it.size) its

/-- The code of a sequence of items that starts at an offset. -/
def resolved (target : Nat → Nat) (offset : Nat) : List Item → List Byte
  | [] => []
  | it :: its => (it.resolve target offset).encode ++ resolved target (offset + it.size) its

variable {target : Nat → Nat} {offset : Nat} {its its' : List Item}

@[simp] theorem blanks_cons (it : Item) : blanks (it :: its) = it.blank ++ blanks its := rfl

@[simp] theorem blanks_append : blanks (its ++ its') = blanks its ++ blanks its' :=
  List.flatMap_append

theorem length_resolved : (resolved target offset its).length = (blanks its).length := by
  induction its generalizing offset with
  | nil => rfl
  | cons it its ih =>
    rw [resolved, List.length_append, ih, Item.length_resolve, blanks_cons, List.length_append,
      Item.size]

theorem resolved_append : resolved target offset (its ++ its') =
    resolved target offset its ++ resolved target (offset + (blanks its).length) its' := by
  induction its generalizing offset with
  | nil => rfl
  | cons it its ih =>
    rw [List.cons_append, resolved, resolved, ih, List.append_assoc, blanks_cons,
      List.length_append, Nat.add_assoc, Item.size]

theorem patchesFrom_append : patchesFrom offset (its ++ its') =
    patchesFrom offset its ++ patchesFrom (offset + (blanks its).length) its' := by
  induction its generalizing offset with
  | nil => rfl
  | cons it its ih =>
    rw [List.cons_append, patchesFrom, patchesFrom, ih, List.append_assoc, blanks_cons,
      List.length_append, Nat.add_assoc, Item.size]

theorem patchesFrom_instrs (offset : Nat) (is : List Instruction) :
    patchesFrom offset (is.map .instr) = [] := by
  induction is generalizing offset with
  | nil => rfl
  | cons i is ih => exact ih _

/-- The instructions that a sequence of items becomes at an offset. -/
def resolveAll (target : Nat → Nat) (offset : Nat) : List Item → List Instruction
  | [] => []
  | it :: its => it.resolve target offset :: resolveAll target (offset + it.size) its

theorem resolved_eq (target : Nat → Nat) (offset : Nat) (its : List Item) :
    resolved target offset its = blanks ((resolveAll target offset its).map .instr) := by
  induction its generalizing offset with
  | nil => rfl
  | cons it its ih =>
    rw [resolved, ih]
    rfl

theorem refused_resolveAll (valid : ∀ it ∈ its, it.Valid) :
    ∀ i ∈ resolveAll target offset its, i.refused? = none := by
  induction its generalizing offset with
  | nil => exact fun _ hi => absurd hi List.not_mem_nil
  | cons it its ih =>
    intro i hi
    rcases List.mem_cons.1 hi with rfl | later
    · exact (valid it (List.mem_cons_self ..)).resolve
    · exact ih (fun x hx => valid x (List.mem_cons_of_mem _ hx)) i later

theorem exists_instructions (target : Nat → Nat) (offset : Nat) (valid : ∀ it ∈ its, it.Valid) :
    ∃ is : List Instruction, resolved target offset its = blanks (is.map .instr) ∧
      ∀ i ∈ is, i.refused? = none :=
  ⟨_, resolved_eq target offset its, refused_resolveAll valid⟩

/-! ## Finishing a buffer -/

namespace CodeBuffer

variable {b : CodeBuffer}

theorem overwrite_eq (before old after new : List Byte) (h : old.length = new.length) :
    overwrite (before ++ old ++ after).toArray before.length new =
      (before ++ new ++ after).toArray := by
  induction new generalizing before old with
  | nil =>
    rw [List.length_eq_zero_iff.1 h]
    rfl
  | cons x new ih =>
    cases old with
    | nil => cases h
    | cons y old =>
      have step : (before ++ y :: old ++ after).toArray.setIfInBounds before.length x =
          (before ++ [x] ++ old ++ after).toArray := by
        simp [List.setIfInBounds_toArray]
      rw [overwrite, step, show before.length + 1 = (before ++ [x]).length by simp,
        ih (before ++ [x]) old (Nat.succ.inj h)]
      simp

theorem size_overwrite (bytes : Array Byte) (offset : Nat) (new : List Byte) :
    (overwrite bytes offset new).size = bytes.size := by
  induction new generalizing bytes offset with
  | nil => rfl
  | cons x new ih => rw [overwrite, ih, Array.size_setIfInBounds]

theorem size_foldlM_applyPatch {ps : List Patch} {bytes bytes' : Array Byte}
    (h : ps.foldlM b.applyPatch bytes = .ok bytes') : bytes'.size = bytes.size := by
  induction ps generalizing bytes with
  | nil =>
    cases h
    rfl
  | cons p ps ih =>
    rw [List.foldlM_cons] at h
    obtain ⟨next, first, rest⟩ := bind_eq_ok.1 h
    obtain ⟨d, -, written⟩ := bind_eq_ok.1 first
    cases written
    rw [ih rest, size_overwrite]

theorem size_finalize {code : Code} (h : b.finalize = .ok code) : code.bytes.size = b.size := by
  obtain ⟨bytes, filled, same⟩ := bind_eq_ok.1 h
  rw [← Except.ok.inj same]
  exact size_foldlM_applyPatch filled

/-- Branches that all have a displacement can all be filled in. -/
theorem exists_foldlM_applyPatch {ps : List Patch}
    (h : ∀ p ∈ ps, ∃ d, b.displacement p = .ok d) (bytes : Array Byte) :
    ∃ bytes', ps.foldlM b.applyPatch bytes = .ok bytes' := by
  induction ps generalizing bytes with
  | nil => exact ⟨bytes, rfl⟩
  | cons p ps ih =>
    obtain ⟨d, hd⟩ := h p (List.mem_cons_self ..)
    obtain ⟨bytes', rest⟩ := ih (fun q hq => h q (List.mem_cons_of_mem _ hq))
      (overwrite bytes p.field (leBytes d 4))
    refine ⟨bytes', ?_⟩
    rw [List.foldlM_cons, applyPatch, hd]
    exact rest

def labelOffset (b : CodeBuffer) (label : Nat) : Nat := (b.offset? label).getD 0

theorem displacement_eq {p : Patch} {d : BitVec 32} (h : b.displacement p = .ok d) :
    b.offset? p.label = some (b.labelOffset p.label) ∧
      d = BitVec.ofInt 32 (Item.distance b.labelOffset p.label (p.field + 4)) ∧
      fitsSigned 32 (Item.distance b.labelOffset p.label (p.field + 4)) = true := by
  unfold displacement at h
  cases ht : b.offset? p.label with
  | none => simp [ht] at h
  | some t =>
    simp only [ht] at h
    have target : b.labelOffset p.label = t := by rw [CodeBuffer.labelOffset, ht, Option.getD_some]
    split at h
    · next fits =>
      cases h
      exact ⟨by rw [target], by rw [Item.distance, target], by
        rw [Item.distance, target]; exact fits⟩
    · cases h

/-- Whether a branch has a label that is bound and near enough. -/
def Reachable (b : CodeBuffer) (p : Patch) : Prop :=
  b.offset? p.label = some (b.labelOffset p.label) ∧
    fitsSigned 32 (Item.distance b.labelOffset p.label (p.field + 4)) = true

theorem applyPatch_eq {p : Patch} {before after : List Byte} {bytes : Array Byte}
    (hp : p.field = before.length)
    (h : b.applyPatch (before ++ List.replicate 4 0 ++ after).toArray p = .ok bytes) :
    b.Reachable p ∧ bytes = (before ++ leBytes (BitVec.ofInt 32
      (Item.distance b.labelOffset p.label (p.field + 4))) 4 ++ after).toArray := by
  unfold applyPatch at h
  cases hd : b.displacement p with
  | error e => simp [hd, bind, Except.bind] at h
  | ok d =>
    obtain ⟨bound, rfl, fits⟩ := displacement_eq hd
    simp only [hd, bind, Except.bind, pure, Except.pure, Except.ok.injEq] at h
    refine ⟨⟨bound, fits⟩, ?_⟩
    rw [← h, hp]
    exact overwrite_eq _ _ _ _ (by simp)

theorem foldlM_applyPatch (before : List Byte) {bytes : Array Byte} :
    (patchesFrom before.length its).foldlM b.applyPatch (before ++ blanks its).toArray = .ok bytes →
      bytes.toList = before ++ resolved b.labelOffset before.length its ∧
        ∀ p ∈ patchesFrom before.length its, b.Reachable p := by
  induction its generalizing before with
  | nil =>
    intro h
    cases h
    simp [resolved, patchesFrom, blanks]
  | cons it its ih =>
    intro h
    have next := ih (before ++ (it.resolve b.labelOffset before.length).encode)
    rw [List.length_append, Item.length_resolve] at next
    rw [patchesFrom, List.foldlM_append] at h
    obtain ⟨bytes', h1, h2⟩ : ∃ bytes', (it.patches before.length).foldlM b.applyPatch
        (before ++ blanks (it :: its)).toArray = .ok bytes' ∧
        (patchesFrom (before.length + it.size) its).foldlM b.applyPatch bytes' = .ok bytes := by
      cases h1 : (it.patches before.length).foldlM b.applyPatch
        (before ++ blanks (it :: its)).toArray with
      | error e =>
        rw [h1] at h
        cases h
      | ok bytes' =>
        rw [h1] at h
        exact ⟨bytes', rfl, h⟩
    have here : bytes' =
        (before ++ (it.resolve b.labelOffset before.length).encode ++ blanks its).toArray ∧
        ∀ p ∈ it.patches before.length, b.Reachable p := by
      cases it with
      | instr i =>
        cases h1
        exact ⟨by simp [Item.resolve, Item.blank], by simp [Item.patches]⟩
      | jump label =>
        have h1 : (b.applyPatch (before ++ blanks (.jump label :: its)).toArray
            ⟨label, before.length + 1⟩ >>= pure) = .ok bytes' := h1
        rw [bind_pure, show before ++ blanks (.jump label :: its) =
          before ++ [0xE9] ++ List.replicate 4 0 ++ blanks its by simp [Item.blank]] at h1
        obtain ⟨near, hb⟩ := applyPatch_eq (by simp) h1
        refine ⟨hb.trans ?_, by simpa [Item.patches] using near⟩
        simp [Item.resolve, Instruction.encode]
      | jumpIf c label =>
        have h1 : (b.applyPatch (before ++ blanks (.jumpIf c label :: its)).toArray
            ⟨label, before.length + 2⟩ >>= pure) = .ok bytes' := h1
        rw [bind_pure, show before ++ blanks (.jumpIf c label :: its) =
          before ++ [0x0F, 0x80 ||| c.code.setWidth 8] ++ List.replicate 4 0 ++ blanks its by
            simp [Item.blank]] at h1
        obtain ⟨near, hb⟩ := applyPatch_eq (by simp) h1
        refine ⟨hb.trans ?_, by simpa [Item.patches] using near⟩
        simp [Item.resolve, Instruction.encode]
    obtain ⟨rfl, near⟩ := here
    obtain ⟨result, rest⟩ := next h2
    refine ⟨by rw [result, resolved, List.append_assoc], fun p hp => ?_⟩
    rcases List.mem_append.1 hp with hp | hp
    · exact near p hp
    · exact rest p hp

/-! ## Appending -/

/-- What has been appended between two states of a buffer. -/
structure Written (b b' : CodeBuffer) (its : List Item) : Prop where
  bytes : b'.bytes.toList = b.bytes.toList ++ blanks its
  pending : b'.pending.toList = b.pending.toList ++ patchesFrom b.size its
  capacity : b'.capacity = b.capacity
  valid : ∀ it ∈ its, it.Valid
  labels : b.labels.size ≤ b'.labels.size
  kept : ∀ label t, b.offset? label = some t → b'.offset? label = some t

def append (b : CodeBuffer) (bytes : List Byte) : CodeBuffer :=
  { b with bytes := b.bytes.appendList bytes }

theorem toList_append (b : CodeBuffer) (bytes : List Byte) :
    (b.append bytes).bytes.toList = b.bytes.toList ++ bytes := Array.toList_appendList ..

theorem size_append (b : CodeBuffer) (bytes : List Byte) :
    (b.append bytes).size = b.size + bytes.length := by
  rw [size, ← Array.length_toList, toList_append, List.length_append, Array.length_toList]
  rfl

theorem offset?_push (b : CodeBuffer) (label : Nat) :
    offset? { b with labels := b.labels.push none } label = b.offset? label := by
  simp only [offset?, Array.getElem?_push]
  split
  · next h =>
    rw [h, Array.getElem?_eq_none (Nat.le_refl _)]
    rfl
  · rfl

theorem offset?_set (b : CodeBuffer) {label : Nat} (known : label < b.labels.size) (t : Nat)
    (other : Nat) : offset? { b with labels := b.labels.setIfInBounds label (some t) } other =
      if other = label then some t else b.offset? other := by
  simp only [offset?, Array.getElem?_setIfInBounds]
  by_cases h : other = label
  · rw [if_pos h.symm, if_pos known, if_pos h]
    rfl
  · rw [if_neg (Ne.symm h), if_neg h]

namespace Written

variable {b' b'' : CodeBuffer}

theorem append (valid : ∀ it ∈ its, it.Valid) (straight : patchesFrom b.size its = []) :
    Written b (b.append (blanks its)) its where
  bytes := toList_append ..
  pending := by
    rw [straight, List.append_nil]
    rfl
  capacity := rfl
  valid := valid
  labels := Nat.le_refl _
  kept := fun _ _ h => h

theorem item {it : Item} (valid : it.Valid) (straight : it.patches b.size = []) :
    Written b (b.append it.blank) [it] := by
  have one : Written b (b.append (blanks [it])) [it] :=
    append (fun _ h => List.mem_singleton.1 h ▸ valid)
      (by rw [patchesFrom, straight, patchesFrom, List.append_nil])
  rwa [blanks_cons, show blanks [] = [] from rfl, List.append_nil] at one

theorem branch {it : Item} {opcode : List Byte} {label : Nat} (valid : it.Valid)
    (blank : it.blank = opcode ++ List.replicate 4 0)
    (patches : it.patches b.size = [⟨label, b.size + opcode.length⟩]) :
    Written b (let b := b.append (opcode ++ List.replicate 4 0)
      { b with pending := b.pending.push ⟨label, b.size - 4⟩ }) [it] where
  bytes := by
    rw [blanks_cons, blank]
    exact (toList_append ..).trans (congrArg _ (List.append_nil _).symm)
  pending := by
    have field : (b.append (opcode ++ List.replicate 4 0)).size - 4 = b.size + opcode.length := by
      rw [size_append, List.length_append, List.length_replicate, ← Nat.add_assoc,
        Nat.add_sub_cancel]
    rw [patchesFrom, patches, patchesFrom, List.append_nil]
    dsimp only
    rw [field, Array.toList_push]
    rfl
  capacity := rfl
  valid := fun _ h => List.mem_singleton.1 h ▸ valid
  labels := Nat.le_refl _
  kept := fun _ _ h => h

theorem create : Written b { b with labels := b.labels.push none } [] where
  bytes := (List.append_nil _).symm
  pending := (List.append_nil _).symm
  capacity := rfl
  valid := fun _ h => absurd h List.not_mem_nil
  labels := by
    rw [Array.size_push]
    exact Nat.le_succ _
  kept := fun label _ h => (offset?_push b label).trans h

theorem bindLabel {label : Nat} (known : label < b.labels.size) (free : b.offset? label = none)
    (t : Nat) : Written b { b with labels := b.labels.setIfInBounds label (some t) } [] where
  bytes := (List.append_nil _).symm
  pending := (List.append_nil _).symm
  capacity := rfl
  valid := fun _ h => absurd h List.not_mem_nil
  labels := Nat.le_of_eq (Array.size_setIfInBounds ..).symm
  kept := fun other u h => by
    rw [offset?_set b known]
    split
    · next same =>
      rw [same, free] at h
      cases h
    · exact h

theorem refl : Written b b [] where
  bytes := by simp [blanks]
  pending := by simp [patchesFrom]
  capacity := rfl
  valid := by simp
  labels := Nat.le_refl _
  kept := fun _ _ h => h

theorem size (h : Written b b' its) : b'.size = b.size + (blanks its).length := by
  rw [CodeBuffer.size, ← Array.length_toList, h.bytes, List.length_append, Array.length_toList]
  rfl

theorem nothing (h : Written b b' []) :
    b'.size = b.size ∧ b'.pending.toList = b.pending.toList := by
  refine ⟨by simpa [blanks] using h.size, ?_⟩
  rw [h.pending]
  exact List.append_nil _

theorem trans (h : Written b b' its) (h' : Written b' b'' its') : Written b b'' (its ++ its') where
  bytes := by rw [h'.bytes, h.bytes, blanks_append, List.append_assoc]
  pending := by rw [h'.pending, h.pending, h.size, patchesFrom_append, List.append_assoc]
  capacity := h'.capacity.trans h.capacity
  valid := fun it hit => (List.mem_append.1 hit).elim (h.valid it) (h'.valid it)
  labels := Nat.le_trans h.labels h'.labels
  kept := fun label t ht => h'.kept label t (h.kept label t ht)

theorem size_singleton {it : Item} (w : Written b b' [it]) : b'.size = b.size + it.size := by
  rw [w.size]
  simp [blanks, Item.size]

/-- The finished code and where the code of a later part begins in it. -/
theorem finalize {capacity : Nat} {code : Code} (h : Written (.new capacity) b its)
    (h' : Written b b' its') (fin : b'.finalize = .ok code) :
    code.bytes.toList = resolved b'.labelOffset 0 its ++ resolved b'.labelOffset b.size its' ∧
      (resolved b'.labelOffset 0 its).length = b.size ∧
      ∀ p ∈ patchesFrom b.size its', b'.Reachable p := by
  have all := h.trans h'
  have size : b.size = (blanks its).length := by
    rw [h.size]
    exact Nat.zero_add _
  unfold CodeBuffer.finalize at fin
  cases hf : b'.pending.toList.foldlM b'.applyPatch b'.bytes with
  | error e => simp [hf, bind, Except.bind] at fin
  | ok bytes =>
    simp only [hf, bind, Except.bind, pure, Except.pure, Except.ok.injEq] at fin
    have hp : b'.pending.toList = patchesFrom 0 (its ++ its') := all.pending
    have hb : b'.bytes = ([] ++ blanks (its ++ its')).toArray := by
      apply Array.toList_inj.1
      exact all.bytes
    rw [hp, hb] at hf
    obtain ⟨result, near⟩ := foldlM_applyPatch [] hf
    subst fin
    refine ⟨?_, by rw [length_resolved, size], fun p hp => near p ?_⟩
    · rw [result, List.nil_append, List.length_nil, resolved_append, Nat.zero_add, ← size]
    · rw [List.length_nil, patchesFrom_append, Nat.zero_add, ← size]
      exact List.mem_append_right _ hp

end Written

/-- Whether a conditional branch lies at an offset. -/
structure BranchesAt (b : CodeBuffer) (offset : Nat) : Prop where
  parts : ∃ (capacity : Nat) (first last : CodeBuffer) (its its' : List Item) (cond : Condition)
    (label : Nat), Written (.new capacity) first its ∧ first.size = offset ∧
      first.Written last [.jumpIf cond label] ∧ last.Written b its'

namespace BranchesAt

variable {b' : CodeBuffer} {offset : Nat}

theorem later (h : b.BranchesAt offset) (w : ∃ its, b.Written b' its) : b'.BranchesAt offset := by
  obtain ⟨capacity, first, last, its, its', cond, label, before, here, branch, after⟩ := h.parts
  obtain ⟨more, w⟩ := w
  exact ⟨capacity, first, last, its, _, cond, label, before, here, branch, after.trans w⟩

theorem lt_size (h : b.BranchesAt offset) : offset < b.size := by
  obtain ⟨capacity, first, last, its, its', cond, label, before, here, branch, after⟩ := h.parts
  have size := branch.size_singleton
  have pos := (Item.jumpIf cond label).size_pos
  have more := after.size
  omega

end BranchesAt

theorem finalize_of_unbranched (unbranched : b.pending = #[]) : b.finalize = .ok ⟨b.bytes, 0⟩ := by
  rw [finalize, unbranched]
  rfl

theorem finalize_of_instrs {capacity : Nat} {is : List Instruction}
    (w : Written (.new capacity) b (is.map .instr)) : b.finalize = .ok ⟨b.bytes, 0⟩ := by
  apply finalize_of_unbranched
  rw [← Array.toList_inj, w.pending, patchesFrom_instrs]
  rfl

theorem patched_of_finalize {code : Code} (fin : b.finalize = .ok code) :
    code.patched = b.pending.size := by
  unfold CodeBuffer.finalize at fin
  cases hf : b.pending.toList.foldlM b.applyPatch b.bytes with
  | error e => simp [hf, bind, Except.bind] at fin
  | ok bytes =>
    simp only [hf, bind, Except.bind, pure, Except.pure, Except.ok.injEq] at fin
    rw [← fin]

/-- The labels of a buffer, how many there are and where they are bound. -/
def SameLabels (b b' : CodeBuffer) : Prop :=
  b'.labels.size = b.labels.size ∧ ∀ label, b'.offset? label = b.offset? label

/-- Labels that are new in a buffer are bound, and new branches go to new labels. -/
structure Balanced (b b' : CodeBuffer) : Prop where
  same : ∀ label < b.labels.size, b'.offset? label = b.offset? label
  bound : ∀ label, b.labels.size ≤ label → label < b'.labels.size → b'.offset? label ≠ none
  pending : ∀ patch ∈ b'.pending.toList, patch ∈ b.pending.toList ∨
    b.labels.size ≤ patch.label ∧ patch.label < b'.labels.size

namespace Balanced

variable {b' b'' : CodeBuffer}

theorem of_sameLabels (h : b.SameLabels b') (hp : b'.pending.toList = b.pending.toList) :
    b.Balanced b' where
  same := fun label _ => h.2 label
  bound := fun label hle hlt => absurd hlt (by rw [h.1]; omega)
  pending := fun patch hm => .inl (hp ▸ hm)

theorem refl : b.Balanced b := .of_sameLabels ⟨rfl, fun _ => rfl⟩ rfl

theorem trans (h : b.Balanced b') (h' : b'.Balanced b'') (hle : b.labels.size ≤ b'.labels.size)
    (hle' : b'.labels.size ≤ b''.labels.size) : b.Balanced b'' where
  same := fun label hlt => (h'.same label (by omega)).trans (h.same label hlt)
  bound := by
    intro label hl hlt
    by_cases hb : label < b'.labels.size
    · rw [h'.same label hb]
      exact h.bound label hl hb
    · exact h'.bound label (by omega) hlt
  pending := by
    intro patch hm
    rcases h'.pending patch hm with hm | hm
    · rcases h.pending patch hm with hm | hm
      · exact .inl hm
      · exact .inr (by omega)
    · exact .inr (by omega)

end Balanced

/-- New labels are bound except for some that are to be bound later. -/
structure Pending (b b' : CodeBuffer) (holes : List Nat) : Prop where
  same : ∀ label < b.labels.size, b'.offset? label = b.offset? label
  bound : ∀ label, b.labels.size ≤ label → label < b'.labels.size → label ∉ holes →
    b'.offset? label ≠ none
  unbound : ∀ label ∈ holes, b.labels.size ≤ label ∧ label < b'.labels.size ∧
    b'.offset? label = none
  pending : ∀ patch ∈ b'.pending.toList, patch ∈ b.pending.toList ∨
    b.labels.size ≤ patch.label ∧ patch.label < b'.labels.size

namespace Pending

variable {b' b'' : CodeBuffer} {holes : List Nat} {l : Nat}

theorem refl : b.Pending b [] where
  same := fun _ _ => rfl
  bound := fun _ hle hlt => absurd hlt (Nat.not_lt_of_le hle)
  unbound := fun _ hl => absurd hl List.not_mem_nil
  pending := fun _ hm => .inl hm

theorem close (h : b.Pending b' []) : b.Balanced b' :=
  ⟨h.same, fun _ hle hlt => h.bound _ hle hlt List.not_mem_nil, h.pending⟩

theorem trans (h : b.Pending b' holes) (h' : b'.Balanced b'') (hle : b.labels.size ≤ b'.labels.size)
    (hle' : b'.labels.size ≤ b''.labels.size) : b.Pending b'' holes where
  same := fun label hlt => (h'.same label (by omega)).trans (h.same label hlt)
  bound := by
    intro label hl hlt hn
    by_cases hb : label < b'.labels.size
    · rw [h'.same label hb]
      exact h.bound label hl hb hn
    · exact h'.bound label (by omega) hlt
  unbound := by
    intro label hl
    obtain ⟨low, high, none⟩ := h.unbound label hl
    exact ⟨low, by omega, (h'.same label high).trans none⟩
  pending := by
    intro patch hm
    rcases h'.pending patch hm with hm | hm
    · rcases h.pending patch hm with hm | hm
      · exact .inl hm
      · exact .inr (by omega)
    · exact .inr (by omega)

theorem create (h : b.Pending b' holes) (hle : b.labels.size ≤ b'.labels.size)
    (size : b''.labels.size = b'.labels.size + 1) (offsets : ∀ l, b''.offset? l = b'.offset? l)
    (pending : b''.pending.toList = b'.pending.toList) :
    b.Pending b'' (b'.labels.size :: holes) where
  same := fun label hlt => (offsets label).trans (h.same label hlt)
  bound := by
    intro label hl hlt hn
    rw [List.mem_cons, not_or] at hn
    rw [offsets]
    exact h.bound label hl (by omega) hn.2
  unbound := by
    intro label hl
    rcases List.mem_cons.1 hl with rfl | hl
    · refine ⟨hle, by omega, (offsets _).trans ?_⟩
      rw [offset?, Array.getElem?_eq_none (Nat.le_refl _)]
      rfl
    · obtain ⟨low, high, none⟩ := h.unbound label hl
      exact ⟨low, by omega, (offsets label).trans none⟩
  pending := fun patch hm => (h.pending patch (pending ▸ hm)).imp_right fun hp => by omega

theorem branch (h : b.Pending b' holes) (hl : l ∈ holes) (labels : b'.SameLabels b'')
    {field : Nat} (pending : b''.pending.toList = b'.pending.toList ++ [⟨l, field⟩]) :
    b.Pending b'' holes where
  same := fun label hlt => (labels.2 label).trans (h.same label hlt)
  bound := fun label hle hlt hn => by
    rw [labels.2]
    exact h.bound label hle (labels.1 ▸ hlt) hn
  unbound := fun label hl => by
    rw [labels.1, labels.2]
    exact h.unbound label hl
  pending := by
    intro patch hm
    rw [pending, List.mem_append, List.mem_singleton] at hm
    rw [labels.1]
    rcases hm with hm | rfl
    · exact h.pending patch hm
    · exact .inr ⟨(h.unbound l hl).1, (h.unbound l hl).2.1⟩

theorem bind {holes' : List Nat} (h : b.Pending b' holes) (hl : l ∈ holes)
    (rest : ∀ label, label ∈ holes' ↔ label ∈ holes ∧ label ≠ l)
    (size : b''.labels.size = b'.labels.size) {t : Nat}
    (offsets : ∀ label, b''.offset? label = if label = l then some t else b'.offset? label)
    (pending : b''.pending.toList = b'.pending.toList) : b.Pending b'' holes' where
  same := fun label hlt => by
    have low := (h.unbound l hl).1
    rw [offsets, if_neg (by omega)]
    exact h.same label hlt
  bound := fun label hle hlt hn => by
    rw [offsets]
    split
    · exact Option.some_ne_none _
    · next other => exact h.bound label hle (size ▸ hlt) fun hm => hn ((rest label).2 ⟨hm, other⟩)
  unbound := fun label hm => by
    obtain ⟨hm, other⟩ := (rest label).1 hm
    rw [offsets, if_neg other, size]
    exact h.unbound label hm
  pending := fun patch hm => by
    rw [size]
    exact h.pending patch (pending ▸ hm)

end Pending

end CodeBuffer
end NativeExpr.X64
