import NativeExpr.Proofs.Layout

/-!
# Labels

Code, labels and branches are put into a buffer in any order, and requests that fail may stand
anywhere in between. Beside the buffer a record is kept of the requests that succeeded. Finishing
the buffer fills in the displacements of the recorded branches and touches nothing else, and it
fails only for a branch whose label is bound nowhere or too far away.
-/
namespace NativeExpr.X64.CodeBuffer

open NativeExpr

/-- What a buffer can be asked to do. Of the code of a condition the low four bits count. -/
inductive Request
  | emit (bytes : List Byte)
  | createLabel
  | bindLabel (label : Nat)
  | jump (label : Nat)
  | jumpIf (code : Byte) (label : Nat)
  deriving DecidableEq, Repr

/-- A branch that was appended. -/
structure Branch where
  label : Nat
  /-- The offset of its end, which its displacement counts from. -/
  finish : Nat
  deriving DecidableEq, Repr

/-- What the requests came to that succeeded. -/
structure Record where
  /-- All that was appended, with blank displacements. -/
  bytes : List Byte
  /-- The branches in the order they were appended. -/
  branches : List Branch
  /-- The labels that were bound, each with the offset it was bound at. -/
  bound : List (Nat × Nat)
  deriving DecidableEq, Repr

def Request.perform : Request → Emit Unit
  | emit bytes => CodeBuffer.emit bytes
  | createLabel => discard CodeBuffer.createLabel
  | bindLabel label => CodeBuffer.bindLabel label
  | jump label => emitJump label
  | jumpIf code label => emitJumpIf (code.setWidth 4) label

namespace Record

def empty : Record := ⟨[], [], []⟩

def branch (r : Record) (opcode : List Byte) (label : Nat) : Record :=
  let bytes := r.bytes ++ opcode ++ List.replicate 4 0
  { r with bytes, branches := r.branches ++ [⟨label, bytes.length⟩] }

def add (r : Record) : Request → Record
  | .emit bytes => { r with bytes := r.bytes ++ bytes }
  | .createLabel => r
  | .bindLabel label => { r with bound := r.bound ++ [(label, r.bytes.length)] }
  | .jump label => r.branch [0xE9] label
  | .jumpIf code label => r.branch [0x0F, 0x80 ||| (code &&& 0x0F)] label

/-- Whether the label of a branch is bound at an offset that 32 bits reach. -/
def Reaches (r : Record) (br : Branch) : Prop :=
  ∃ t, (br.label, t) ∈ r.bound ∧
    -2147483648 ≤ (t : Int) - br.finish ∧ (t : Int) - br.finish ≤ 2147483647

/-- What is wrong with a branch that cannot be filled in. -/
def Faults (r : Record) (br : Branch) (e : CompileError) : Prop :=
  (∀ t, (br.label, t) ∉ r.bound) ∧ e = .unresolvedLabel br.label ∨
    (∃ t, (br.label, t) ∈ r.bound) ∧ ¬ r.Reaches br ∧ e = .encoding (.branchRange br.label)

/-- Whether an offset lies outside all displacements. -/
def Outside (r : Record) (i : Nat) : Prop := ∀ br ∈ r.branches, i + 4 < br.finish ∨ br.finish ≤ i

end Record

/-- The number that four bytes write, with its sign. -/
def signed32 (bytes : List Byte) : Int := (BitVec.ofNat 32 (leNat bytes)).toInt

/-- Whether finished code is that of a record: as it was appended outside the displacements, and
every branch leads to where its label was bound. -/
structure Record.Resolves (r : Record) (code : Code) : Prop where
  size : code.bytes.size = r.bytes.length
  outside : ∀ i, r.Outside i → code.bytes[i]? = r.bytes[i]?
  target : ∀ br ∈ r.branches, ∃ t, (br.label, t) ∈ r.bound ∧
    signed32 (code.bytes.toList.extract (br.finish - 4) br.finish) + br.finish = t
  patched : code.patched = r.branches.length

/-- A buffer with the record of what was done to it. -/
structure Session where
  buffer : CodeBuffer
  record : Record
  deriving DecidableEq, Repr

namespace Session

def new (capacity : Nat) : Session := ⟨.new capacity, .empty⟩

/-- The session after a request. A request that fails is not recorded. -/
def serve (s : Session) (q : Request) : Session :=
  match q.perform s.buffer with
  | .ok _ b => ⟨b, s.record.add q⟩
  | .error _ b => ⟨b, s.record⟩

/-- The session after requests, whether they succeed or fail. -/
def serveAll (capacity : Nat) (requests : List Request) : Session :=
  requests.foldl serve (.new capacity)

end Session

/-! ## Filling in the branches -/

variable {b b' : CodeBuffer} {ps : List Patch} {bytes bytes' : Array Byte} {e : CompileError}

theorem getElem?_overwrite (bytes : Array Byte) (offset : Nat) (new : List Byte) (i : Nat) :
    (overwrite bytes offset new)[i]? =
      if offset ≤ i ∧ i < offset + new.length ∧ i < bytes.size then new[i - offset]?
      else bytes[i]? := by
  induction new generalizing bytes offset with
  | nil => simp [overwrite]; omega
  | cons x new ih =>
    rw [overwrite, ih, Array.size_setIfInBounds, Array.getElem?_setIfInBounds, List.length_cons]
    by_cases first : i = offset
    · subst first
      by_cases inside : i < bytes.size
      · simp [inside]
      · simp [inside]
    · rw [if_neg (Ne.symm first)]
      by_cases later : offset + 1 ≤ i ∧ i < offset + 1 + new.length ∧ i < bytes.size
      · rw [if_pos later, if_pos (by omega), show i - offset = i - (offset + 1) + 1 by omega,
          List.getElem?_cons_succ]
      · rw [if_neg later, if_neg (by omega)]

def Apart (p q : Patch) : Prop := p.field + 4 ≤ q.field

theorem foldlM_applyPatch_outside (h : ps.foldlM b.applyPatch bytes = .ok bytes') {i : Nat}
    (outside : ∀ p ∈ ps, i < p.field ∨ p.field + 4 ≤ i) : bytes'[i]? = bytes[i]? := by
  induction ps generalizing bytes with
  | nil =>
    cases h
    rfl
  | cons p ps ih =>
    rw [List.foldlM_cons] at h
    obtain ⟨next, first, rest⟩ := bind_eq_ok.1 h
    obtain ⟨d, -, written⟩ := bind_eq_ok.1 first
    cases written
    rw [ih rest fun q hq => outside q (List.mem_cons_of_mem _ hq), getElem?_overwrite, if_neg]
    have := outside p (List.mem_cons_self ..)
    rw [length_leBytes]
    omega

/-- Branches whose displacements lie apart are filled in one beside the other. -/
theorem foldlM_applyPatch_inside (h : ps.foldlM b.applyPatch bytes = .ok bytes')
    (apart : ps.Pairwise Apart) (inside : ∀ p ∈ ps, p.field + 4 ≤ bytes.size) {p : Patch}
    (hp : p ∈ ps) : ∃ d, b.displacement p = .ok d ∧
      ∀ k < 4, bytes'[p.field + k]? = (leBytes d 4)[k]? := by
  induction ps generalizing bytes with
  | nil => cases hp
  | cons q ps ih =>
    rw [List.foldlM_cons] at h
    obtain ⟨next, first, rest⟩ := bind_eq_ok.1 h
    obtain ⟨d, near, written⟩ := bind_eq_ok.1 first
    cases written
    obtain ⟨before, apart⟩ := List.pairwise_cons.1 apart
    rcases List.mem_cons.1 hp with rfl | later
    · refine ⟨d, near, fun k hk => ?_⟩
      have fits := inside p (List.mem_cons_self ..)
      -- the branches that are filled in later start behind this one
      rw [foldlM_applyPatch_outside rest fun q hq => .inl ?_, getElem?_overwrite, length_leBytes,
        if_pos (by omega), Nat.add_sub_cancel_left]
      have := before q hq
      rw [Apart] at this
      omega
    · refine ih rest apart (fun q hq => ?_) later
      rw [size_overwrite]
      exact inside q (List.mem_cons_of_mem _ hq)

/-- Filling in stops at the first branch that has no displacement. -/
theorem foldlM_applyPatch_error (h : ps.foldlM b.applyPatch bytes = .error e) :
    ∃ before p after, ps = before ++ p :: after ∧
      (∀ q ∈ before, ∃ d, b.displacement q = .ok d) ∧ b.displacement p = .error e := by
  induction ps generalizing bytes with
  | nil => cases h
  | cons p ps ih =>
    rw [List.foldlM_cons] at h
    rcases bind_eq_error.1 h with first | ⟨next, first, rest⟩
    · rcases bind_eq_error.1 first with far | ⟨d, near, written⟩
      · exact ⟨[], p, ps, rfl, fun _ hq => absurd hq List.not_mem_nil, far⟩
      · cases written
    · obtain ⟨d, near, -⟩ := bind_eq_ok.1 first
      obtain ⟨before, q, after, rfl, reached, far⟩ := ih rest
      refine ⟨p :: before, q, after, rfl, fun x hx => ?_, far⟩
      rcases List.mem_cons.1 hx with rfl | hx
      · exact ⟨d, near⟩
      · exact reached x hx

/-- All branches can be filled in exactly if each of them has a displacement. -/
theorem foldlM_applyPatch_iff : (∃ bytes', ps.foldlM b.applyPatch bytes = .ok bytes') ↔
    ∀ p ∈ ps, ∃ d, b.displacement p = .ok d := by
  refine ⟨fun h => ?_, fun h => exists_foldlM_applyPatch h bytes⟩
  induction ps generalizing bytes with
  | nil => exact fun _ hp => absurd hp List.not_mem_nil
  | cons p ps ih =>
    obtain ⟨bytes', h⟩ := h
    rw [List.foldlM_cons] at h
    obtain ⟨next, first, rest⟩ := bind_eq_ok.1 h
    obtain ⟨d, near, -⟩ := bind_eq_ok.1 first
    rintro q hq
    rcases List.mem_cons.1 hq with rfl | hq
    · exact ⟨d, near⟩
    · exact ih ⟨bytes', rest⟩ q hq

theorem signed32_leBytes (d : BitVec 32) : signed32 (leBytes d 4) = d.toInt := by
  rw [signed32, leNat_leBytes, BitVec.ofNat_toNat, setWidth_setWidth_cancel d (Nat.le_refl _)]

/-- A part of a list that agrees with another list is that list. -/
theorem extract_eq {xs ys : List Byte} {offset n : Nat} (length : ys.length = n)
    (same : ∀ k < n, xs[offset + k]? = ys[k]?) : xs.extract offset (offset + n) = ys := by
  apply List.ext_getElem?
  intro k
  rw [List.extract_eq_take_drop, Nat.add_sub_cancel_left, List.getElem?_take, List.getElem?_drop]
  split
  · next inside => exact same k inside
  · next outside => rw [List.getElem?_eq_none (length ▸ Nat.le_of_not_lt outside)]

/-! ## Serving requests -/

def Branch.patch (br : Branch) : Patch := ⟨br.label, br.finish - 4⟩

/-- Whether a record says what a buffer of a capacity holds. -/
structure Record.Tells (capacity : Nat) (r : Record) (b : CodeBuffer) : Prop where
  bytes : b.bytes.toList = r.bytes
  limit : b.capacity = capacity
  fits : b.size ≤ capacity
  pending : b.pending.toList = r.branches.map Branch.patch
  bound : ∀ label t, b.offset? label = some t ↔ (label, t) ∈ r.bound
  once : (r.bound.map Prod.fst).Nodup
  inside : ∀ br ∈ r.branches, 4 ≤ br.finish ∧ br.finish ≤ r.bytes.length
  apart : r.branches.Pairwise fun x y => x.finish + 4 ≤ y.finish

namespace Record.Tells

variable {capacity : Nat} {r : Record}

theorem empty (capacity : Nat) : Record.empty.Tells capacity (.new capacity) where
  bytes := rfl
  limit := rfl
  fits := Nat.zero_le _
  pending := rfl
  bound := fun _ _ => ⟨nofun, nofun⟩
  once := List.nodup_nil
  inside := nofun
  apart := .nil

theorem size (h : r.Tells capacity b) : b.size = r.bytes.length := by
  rw [CodeBuffer.size, ← Array.length_toList, h.bytes]

theorem append (h : r.Tells capacity b) (new : List Byte) (room : b.size + new.length ≤ capacity) :
    { r with bytes := r.bytes ++ new }.Tells capacity (b.append new) where
  bytes := by rw [toList_append, h.bytes]
  limit := h.limit
  fits := by
    rw [size_append]
    exact room
  pending := h.pending
  bound := h.bound
  once := h.once
  inside := by
    intro br hbr
    obtain ⟨low, high⟩ := h.inside br hbr
    rw [List.length_append]
    omega
  apart := h.apart

/-- More bytes than there is room for are not appended at all. -/
theorem emit (h : r.Tells capacity b) (new : List Byte) : Yields (CodeBuffer.emit new) b
    (fun _ b' => b' = b.append new ∧ { r with bytes := r.bytes ++ new }.Tells capacity b')
    fun _ b' => b' = b := by
  unfold Yields CodeBuffer.emit
  by_cases full : b.capacity < b.size + new.length
  · rw [if_pos full]
  · rw [if_neg full]
    exact ⟨rfl, h.append new (h.limit ▸ Nat.le_of_not_lt full)⟩

theorem emitBranch (h : r.Tells capacity b) (opcode : List Byte) (label : Nat) :
    Yields (CodeBuffer.emitBranch opcode label) b
      (fun _ b' => (r.branch opcode label).Tells capacity b')
      fun _ b' => b' = b := by
  refine .seq (h.emit _) fun _ b' ⟨_, h'⟩ => .of_modify ?_
  rw [← List.append_assoc] at h'
  have size := h'.size
  dsimp only at size
  refine ⟨h'.bytes, h'.limit, h'.fits, ?_, h'.bound, h'.once, fun br hbr => ?_, ?_⟩
  · rw [Array.toList_push, h'.pending, Record.branch, List.map_append, size]
    rfl
  · rcases List.mem_append.1 hbr with old | new
    · exact h'.inside br old
    · cases List.mem_singleton.1 new
      refine ⟨?_, Nat.le_refl _⟩
      rw [List.length_append, List.length_replicate]
      exact Nat.le_add_left ..
  · refine List.pairwise_append.2 ⟨h'.apart, List.pairwise_singleton .., fun x hx y hy => ?_⟩
    cases List.mem_singleton.1 hy
    have before := (h.inside x hx).2
    dsimp only
    rw [List.length_append, List.length_append, List.length_replicate]
    omega

theorem bindLabel (h : r.Tells capacity b) (label : Nat) : Yields (CodeBuffer.bindLabel label) b
    (fun _ b' => (r.add (.bindLabel label)).Tells capacity b') fun _ b' => b' = b := by
  unfold Yields CodeBuffer.bindLabel
  by_cases twice : b.isBound label
  · rw [if_pos twice]
  rw [if_neg twice]
  by_cases known : label < b.labels.size
  swap
  · rw [if_neg known]
  rw [if_pos known]
  have free : b.offset? label = none := by simpa [isBound] using twice
  have fresh (t : Nat) : (label, t) ∉ r.bound := fun ht => by
    rw [(h.bound label t).2 ht] at free
    cases free
  refine ⟨h.bytes, h.limit, h.fits, h.pending, fun other t => ?_, ?_, h.inside, h.apart⟩
  · rw [offset?_set b known, Record.add, List.mem_append, List.mem_singleton, Prod.mk.injEq,
      ← h.size]
    split
    · next same =>
      subst same
      rw [Option.some.injEq, eq_comm, or_iff_right (fresh t)]
      exact (and_iff_right rfl).symm
    · next different => rw [h.bound, or_iff_left fun same => different same.1]
  · rw [Record.add, List.map_append, List.nodup_append]
    refine ⟨h.once, List.nodup_cons.2 ⟨List.not_mem_nil, .nil⟩, fun x hx y hy => ?_⟩
    obtain ⟨⟨_, t⟩, ht, rfl⟩ := List.mem_map.1 hx
    cases List.mem_singleton.1 hy
    rintro rfl
    exact fresh t ht

theorem createLabel (h : r.Tells capacity b) :
    r.Tells capacity { b with labels := b.labels.push none } :=
  ⟨h.bytes, h.limit, h.fits, h.pending, fun label t => by rw [offset?_push, h.bound], h.once,
    h.inside, h.apart⟩

/-- A request that succeeds does what the record says, and one that fails changes nothing. -/
theorem perform (h : r.Tells capacity b) (q : Request) :
    Yields q.perform b (fun _ b' => (r.add q).Tells capacity b') fun _ b' => b' = b := by
  cases q with
  | emit bytes => exact (h.emit bytes).mono (fun _ _ h' => h'.2) fun _ _ same => same
  | createLabel => exact h.createLabel
  | bindLabel label => exact h.bindLabel label
  | jump label => exact h.emitBranch _ label
  | jumpIf code label =>
    have masked : (code.setWidth 4).setWidth 8 = code &&& 0x0F := by
      apply BitVec.eq_of_toNat_eq
      rw [BitVec.toNat_and, show (0x0F : Byte).toNat = 2 ^ 4 - 1 from rfl,
        Nat.and_two_pow_sub_one_eq_mod, BitVec.toNat_setWidth, BitVec.toNat_setWidth]
      omega
    rw [Record.add, ← masked]
    exact h.emitBranch _ label

/-! ## Finishing -/

theorem field_eq (h : r.Tells capacity b) {br : Branch} (hbr : br ∈ r.branches) :
    br.patch.field + 4 = br.finish := Nat.sub_add_cancel (h.inside br hbr).1

theorem displacement_iff (h : r.Tells capacity b) {br : Branch} (hbr : br ∈ r.branches) :
    (∃ d, b.displacement br.patch = .ok d) ↔ r.Reaches br := by
  unfold displacement Record.Reaches
  rw [h.field_eq hbr]
  cases ht : b.offset? br.patch.label with
  | none =>
    refine ⟨fun ⟨_, hd⟩ => (by cases hd), fun ⟨t, bound, _⟩ => ?_⟩
    cases ht.symm.trans ((h.bound br.label t).2 bound)
  | some t =>
    have only (u : Nat) (hu : (br.label, u) ∈ r.bound) : u = t :=
      Option.some.inj (((h.bound br.label u).2 hu).symm.trans ht)
    dsimp only
    constructor
    · rintro ⟨d, hd⟩
      split at hd
      · next near => exact ⟨t, (h.bound br.label t).1 ht, fitsSigned_iff.1 near⟩
      · cases hd
    · rintro ⟨u, hu, near⟩
      cases only u hu
      exact ⟨_, if_pos (fitsSigned_iff.2 near)⟩

theorem displacement_eq_ok (h : r.Tells capacity b) {br : Branch} (hbr : br ∈ r.branches)
    {d : BitVec 32} (hd : b.displacement br.patch = .ok d) :
    ∃ t, (br.label, t) ∈ r.bound ∧ d.toInt + br.finish = t := by
  obtain ⟨bound, rfl, near⟩ := displacement_eq hd
  refine ⟨_, (h.bound br.label _).1 bound, ?_⟩
  rw [show (BitVec.ofInt 32 _).toInt = _ from beq_iff_eq.1 near, Item.distance, h.field_eq hbr]
  exact Int.sub_add_cancel ..

theorem displacement_eq_error (h : r.Tells capacity b) {br : Branch} (hbr : br ∈ r.branches)
    (hd : b.displacement br.patch = .error e) : r.Faults br e := by
  have far : ¬ r.Reaches br := fun near => by
    obtain ⟨d, hd'⟩ := (h.displacement_iff hbr).2 near
    cases hd.symm.trans hd'
  unfold displacement at hd
  cases ht : b.offset? br.patch.label with
  | none =>
    rw [ht] at hd
    cases hd
    refine .inl ⟨fun t bound => ?_, rfl⟩
    cases ht.symm.trans ((h.bound br.label t).2 bound)
  | some t =>
    rw [ht] at hd
    dsimp only at hd
    split at hd
    · cases hd
    · cases hd
      exact .inr ⟨⟨t, (h.bound br.label t).1 ht⟩, far, rfl⟩

theorem finalize_iff (h : r.Tells capacity b) :
    (∃ code, b.finalize = .ok code) ↔ ∀ br ∈ r.branches, r.Reaches br := by
  have filled : (∃ code, b.finalize = .ok code) ↔
      ∃ bytes', b.pending.toList.foldlM b.applyPatch b.bytes = .ok bytes' := by
    refine ⟨fun ⟨_, hc⟩ => ?_, fun ⟨bytes', hb⟩ => ⟨⟨bytes', b.pending.size⟩, ?_⟩⟩
    · obtain ⟨bytes', hb, -⟩ := bind_eq_ok.1 hc
      exact ⟨bytes', hb⟩
    · exact bind_eq_ok.2 ⟨bytes', hb, rfl⟩
  rw [filled, foldlM_applyPatch_iff, h.pending, List.forall_mem_map]
  exact forall₂_congr fun br hbr => h.displacement_iff hbr

theorem finalize_eq_ok (h : r.Tells capacity b) {code : Code} (hc : b.finalize = .ok code) :
    r.Resolves code := by
  obtain ⟨bytes', filled, made⟩ := bind_eq_ok.1 hc
  cases made
  have size := size_foldlM_applyPatch filled
  have here (br : Branch) (hbr : br ∈ r.branches) : br.patch ∈ b.pending.toList :=
    h.pending ▸ List.mem_map_of_mem hbr
  refine ⟨?_, fun i outside => ?_, fun br hbr => ?_, ?_⟩
  · rw [size, ← h.bytes, Array.length_toList]
  · rw [foldlM_applyPatch_outside filled, ← h.bytes, Array.getElem?_toList]
    intro p hp
    rw [h.pending] at hp
    obtain ⟨br, hbr, rfl⟩ := List.mem_map.1 hp
    have field := h.field_eq hbr
    have := outside br hbr
    omega
  · have apart : b.pending.toList.Pairwise Apart := by
      rw [h.pending, List.pairwise_map]
      refine h.apart.imp_of_mem fun {x y} hx hy gap => ?_
      have fx := h.field_eq hx
      have fy := h.field_eq hy
      rw [Apart]
      omega
    have inside (p : Patch) (hp : p ∈ b.pending.toList) : p.field + 4 ≤ b.bytes.size := by
      rw [h.pending] at hp
      obtain ⟨br, hbr, rfl⟩ := List.mem_map.1 hp
      rw [h.field_eq hbr, ← Array.length_toList, h.bytes]
      exact (h.inside br hbr).2
    obtain ⟨d, hd, written⟩ := foldlM_applyPatch_inside filled apart inside (here br hbr)
    obtain ⟨t, bound, leads⟩ := h.displacement_eq_ok hbr hd
    refine ⟨t, bound, ?_⟩
    rw [← leads, ← signed32_leBytes d, ← h.field_eq hbr, Nat.add_sub_cancel,
      extract_eq (length_leBytes d 4) fun k hk => by rw [Array.getElem?_toList, written k hk]]
  · rw [← Array.length_toList, h.pending, List.length_map]

theorem finalize_eq_error (h : r.Tells capacity b) (he : b.finalize = .error e) :
    ∃ before br after, r.branches = before ++ br :: after ∧ (∀ x ∈ before, r.Reaches x) ∧
      r.Faults br e := by
  rcases bind_eq_error.1 he with failed | ⟨_, _, made⟩
  swap
  · cases made
  obtain ⟨ps, p, qs, split, reached, far⟩ := foldlM_applyPatch_error failed
  rw [h.pending] at split
  obtain ⟨before, rest, whole, rfl, tail⟩ := List.map_eq_append_iff.1 split
  obtain ⟨br, after, rfl, rfl, -⟩ := List.map_eq_cons_iff.1 tail
  have member (x : Branch) (hx : x ∈ before) : x ∈ r.branches :=
    whole ▸ List.mem_append_left _ hx
  have hbr : br ∈ r.branches := whole ▸ List.mem_append_right _ (List.mem_cons_self ..)
  refine ⟨before, br, after, whole, fun x hx => ?_, h.displacement_eq_error hbr far⟩
  exact (h.displacement_iff (member x hx)).1 (reached _ (List.mem_map_of_mem hx))

end Record.Tells

namespace Session

variable {capacity : Nat}

theorem tells_serve {s : Session} (h : s.record.Tells capacity s.buffer) (q : Request) :
    (s.serve q).record.Tells capacity (s.serve q).buffer := by
  have performed := h.perform q
  unfold serve
  cases hq : q.perform s.buffer with
  | ok _ b => exact performed.ok hq
  | error _ b => exact performed.error hq ▸ h

theorem tells_serveAll (capacity : Nat) (requests : List Request) :
    (serveAll capacity requests).record.Tells capacity (serveAll capacity requests).buffer := by
  have start : (new capacity).record.Tells capacity (new capacity).buffer := .empty capacity
  unfold serveAll
  generalize new capacity = s at start
  induction requests generalizing s with
  | nil => exact start
  | cons q requests ih => exact ih _ (tells_serve start q)

/-- Whatever is asked of a buffer, it holds no more than its capacity, and a request that fails
changes nothing. It can be finished exactly if the label of every branch that was appended is
bound and near enough. Then nothing changes but the displacements, each of which leads from the
end of its branch to where the label was bound. Otherwise the first branch in the order of the
code that cannot be filled in is reported. -/
theorem finalize_serveAll (capacity : Nat) (requests : List Request) :
    let s := serveAll capacity requests
    s.buffer.bytes.toList = s.record.bytes ∧ s.buffer.size ≤ capacity ∧
      (s.record.bound.map Prod.fst).Nodup ∧
      (∀ (q : Request) e b, q.perform s.buffer = .error e b → b = s.buffer) ∧
      ((∃ code, s.buffer.finalize = .ok code) ↔ ∀ br ∈ s.record.branches, s.record.Reaches br) ∧
      (∀ code, s.buffer.finalize = .ok code → s.record.Resolves code) ∧
      ∀ e, s.buffer.finalize = .error e → ∃ before br after,
        s.record.branches = before ++ br :: after ∧ (∀ x ∈ before, s.record.Reaches x) ∧
          s.record.Faults br e := by
  have tells := tells_serveAll capacity requests
  exact ⟨tells.bytes, tells.fits, tells.once, fun q _ _ failed => (tells.perform q).error failed,
    tells.finalize_iff, fun _ => tells.finalize_eq_ok, fun _ => tells.finalize_eq_error⟩

/-- A forward and a backward branch to a label that is bound once, with requests in between that
fail for want of room and for a second binding. -/
theorem finalize_serveAll_loop :
    let s := serveAll 14 [.jump 0, .createLabel, .emit [0x90, 0x90], .bindLabel 0, .emit [0x90],
      .bindLabel 0, .emit (List.replicate 9 0), .jumpIf 0x74 0, .jump 0]
    s.record.branches = [⟨0, 5⟩, ⟨0, 14⟩] ∧ s.record.bound = [(0, 7)] ∧
      ∃ code, s.buffer.finalize = .ok code ∧ code.bytes.size = 14 ∧ code.patched = 2 := by
  obtain ⟨-, -, -, -, possible, resolves, -⟩ := finalize_serveAll 14 [.jump 0, .createLabel,
    .emit [0x90, 0x90], .bindLabel 0, .emit [0x90], .bindLabel 0, .emit (List.replicate 9 0),
    .jumpIf 0x74 0, .jump 0]
  have reaches := possible.2 fun br hbr => by
    have within : br = ⟨0, 5⟩ ∨ br = ⟨0, 14⟩ :=
      (List.mem_cons.1 hbr).imp_right List.mem_singleton.1
    rcases within with rfl | rfl
    · exact ⟨7, List.mem_cons_self .., by decide, by decide⟩
    · exact ⟨7, List.mem_cons_self .., by decide, by decide⟩
  obtain ⟨code, made⟩ := reaches
  exact ⟨rfl, rfl, code, made, (resolves code made).size, (resolves code made).patched⟩

end Session

end NativeExpr.X64.CodeBuffer
