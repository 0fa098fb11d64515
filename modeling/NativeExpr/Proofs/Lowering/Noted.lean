import NativeExpr.Lowering.Function
import NativeExpr.Proofs.Effects
import NativeExpr.Proofs.Playing

/-!
# What the journal says

Every entry of the journal is sound, given the entries before it. At a node that is asked
for or is done the tables agree; counts of reads do not fall below zero. At the branch of a
conditional what is left to the arms is what has no readers elsewhere. Where the arms met,
what the journal has got in between was done in the one arm or in the other, and what is
still to be read is where it was at the branch.
-/
namespace NativeExpr.Lowering

open NativeExpr X64

namespace Note

def generated? : Note → Option NodeId
  | .generated id => some id
  | _ => none

def fused? : Note → Option NodeId
  | .fused id => some id
  | _ => none

/-- The node that got code, of its own or as part of a branch. -/
def lowered? : Note → Option NodeId
  | .generated id | .fused id => some id
  | _ => none

def read? : Note → Option NodeId
  | .read id _ => some id
  | _ => none

end Note

/-! ## Parts of the journal -/

/-- What was noted between two points, the first entry first. -/
def between (journal : List Note) (m m' : Mark) : List Note :=
  (journal.reverse.take m'.noted).drop m.noted

/-- The nodes that got code between two points. -/
def loweredBetween (journal : List Note) (m m' : Mark) : List NodeId :=
  (between journal m m').filterMap Note.lowered?

/-- The nodes that were read between two points, one entry for each time. -/
def readBetween (journal : List Note) (m m' : Mark) : List NodeId :=
  (between journal m m').filterMap Note.read?

section

variable {journal earlier later : List Note} {m m' : Mark}

theorem between_of_suffix (h : earlier <:+ journal) (le : m'.noted ≤ earlier.length) :
    between journal m m' = between earlier m m' := by
  obtain ⟨rest, rfl⟩ := h
  rw [between, between, List.reverse_append, List.take_append_of_le_length]
  rwa [List.length_reverse]

theorem between_append (start : m.noted = earlier.length)
    (stop : m'.noted = (later ++ earlier).length) :
    between (later ++ earlier) m m' = later.reverse := by
  rw [between, stop, ← List.length_reverse, List.take_length, List.reverse_append,
    List.drop_append_of_le_length, start, ← List.length_reverse, List.drop_length, List.nil_append]
  rw [start, List.length_reverse]

end

/-! ## Sound entries -/

/-- How the tables fit together whenever a node is asked for or has been generated:
registers with an owner are those of the live values, and nothing else is in use. -/
structure Tables.Agree (g : Graph) (t : Tables) : Prop where
  owner_of_register : ∀ {x r}, (t.values.entry x).storage = some (.register r) →
    0 < (t.values.entry x).usesLeft → t.regs.owner r = some (.value x)
  register_of_owner : ∀ {x r}, r.Valid → t.regs.owner r = some (.value x) →
    (t.values.entry x).storage = some (.register r) ∧ 0 < (t.values.entry x).usesLeft
  noTemporary : ∀ {r}, r.Valid → t.regs.owner r ≠ some .temp
  unlocked : ∀ {r}, r.Valid → t.regs.isLocked r = false ∧ t.regs.lockCount r = 0
  allocated_iff : ∀ {r}, r.Valid → (t.regs.isAllocated r = true ↔ t.regs.owner r ≠ none)
  slot_of_stack : ∀ {x o}, (t.values.entry x).storage = some (.stack o) → o < 0 →
    (t.values.entry x).spillSlot = some o
  slot_inj : ∀ {x y o}, (t.values.entry x).spillSlot = some o →
    (t.values.entry y).spillSlot = some o → x = y
  register_of : ∀ {x r}, (t.values.entry x).storage = some (.register r) →
    0 < (t.values.entry x).usesLeft → r.Of (g.tyOf x).regClass

variable (g : Graph) (root : NodeId)

/-- A conditional that came to its branch. `D` is what was done when its lowering began. -/
structure Parted (D : Finset NodeId) (s c a b : NodeId) (m m' : Mark)
    (earlier : List Note) : Prop where
  node : ∃ n, g.node? s = some n ∧ n.kind = .select c a b
  fork : g.Fork root D s c a b
  start : remainingUses m.tables.values = g.remaining root D
  branch : remainingUses m'.tables.values =
    g.remaining root (g.doneAfter D (World.ahead g root D c a b))
  noted : m'.noted = earlier.length
  behind : ∀ s' start branch, .forked s' start branch ∈ earlier → branch.offset < m'.offset
  lowered : ∀ x, x ∈ loweredBetween earlier m m' ↔
    x ∈ g.doneAfter D (World.ahead g root D c a b) \ D

/-- A conditional whose arms met. `D` is what was done at the branch. What else an arm needs
got code in this arm, and every read of it is one of the arm. -/
structure Rejoined (D : Finset NodeId) (s c a b : NodeId) (m : Meeting)
    (earlier : List Note) : Prop where
  node : ∃ n, g.node? s = some n ∧ n.kind = .select c a b
  fork : g.Fork root D s c a b
  forked : ∃ start, .forked s start m.branch ∈ earlier
  branch : remainingUses m.branch.tables.values = g.remaining root D
  apart : ∀ x ∈ g.below a, x ∈ g.below b → x ∈ D
  order : m.branch.noted ≤ m.thenEnd.noted ∧ m.thenEnd.noted ≤ m.elseEnd.noted ∧
    m.elseEnd.noted ≤ earlier.length
  first : ∀ x, x ∈ loweredBetween earlier m.branch m.thenEnd ↔ x ∈ g.below a \ D
  second : ∀ x, x ∈ loweredBetween earlier m.thenEnd m.elseEnd ↔ x ∈ g.below b \ D
  firstReads : ∀ x ∈ g.below a \ D,
    (readBetween earlier m.branch m.thenEnd).count x = g.pending root D x
  secondReads : ∀ x ∈ g.below b \ D,
    (readBetween earlier m.thenEnd m.elseEnd).count x = g.pending root D x

/-- Where two arms met the tables agree with each other: the result is in one register, what is
still to be read is where it was at the branch, and nothing else is in use. -/
structure Meeting.Agrees (m : Meeting) : Prop where
  valid : m.result.Valid
  result : ∀ t ∈ [m.thenEnd, m.elseEnd, m.after], t.tables.regs.owner m.result = some .temp
  storage_eq : ∀ {x}, 0 < (m.after.tables.values.entry x).usesLeft →
    ∀ t ∈ [m.thenEnd, m.elseEnd, m.after],
      (t.tables.values.entry x).storage = (m.branch.tables.values.entry x).storage
  allocated_iff : ∀ {r}, r.Valid → (m.after.tables.regs.isAllocated r = true ↔
    r = m.result ∨ ∃ x, (m.after.tables.values.entry x).storage = some (.register r) ∧
      0 < (m.after.tables.values.entry x).usesLeft)

/-- What an entry of the journal says that comes after others. -/
def Note.Sound (earlier : List Note) : Note → Prop
  | .entered _ tables | .answered _ tables => tables.Agree g
  | .generated s => ∀ n c a b, g.node? s = some n → n.kind = .select c a b →
    ∃ m, .joined s m ∈ earlier
  | .fused _ => True
  | .read _ usesLeft => 0 < usesLeft
  | .merged _ before thenLeft elseLeft => before ≤ thenLeft + elseLeft
  | .forked s start branch => ∃ D c a b, Parted g root D s c a b start branch earlier
  | .joined s m => m.Agrees ∧ ∃ D c a b, Rejoined g root D s c a b m earlier

/-- Whether all entries of a journal are sound. -/
def Clean : List Note → Prop
  | [] => True
  | n :: earlier => n.Sound g root earlier ∧ Clean earlier

variable {g root}

theorem Clean.of_suffix {n : Note} {earlier : List Note} :
    ∀ {journal : List Note}, Clean g root journal → n :: earlier <:+ journal →
      n.Sound g root earlier
  | [], _, suffix => by cases List.eq_nil_of_suffix_nil suffix
  | _ :: _, clean, suffix => by
    rcases List.suffix_cons_iff.1 suffix with same | suffix
    · cases same
      exact clean.1
    · exact clean.2.of_suffix suffix

section

variable {s s' : NodeId} {start start' branch branch' : Mark}

theorem Note.Sound.offset_lt {earlier : List Note}
    (sound : Note.Sound g root earlier (.forked s start branch))
    (before : .forked s' start' branch' ∈ earlier) : branch'.offset < branch.offset := by
  obtain ⟨D, c, a, b, parted⟩ := sound
  exact parted.behind s' start' branch' before

theorem Clean.forked_inj : ∀ {journal : List Note}, Clean g root journal →
    .forked s start branch ∈ journal → .forked s' start' branch' ∈ journal →
      branch.offset = branch'.offset → s = s' ∧ branch = branch'
  | n :: earlier, clean, h, h', same => by
    rcases List.mem_cons.1 h with first | later
    · subst first
      rcases List.mem_cons.1 h' with first' | later'
      · cases first'
        exact ⟨rfl, rfl⟩
      · exact absurd same.symm (clean.1.offset_lt later').ne
    · rcases List.mem_cons.1 h' with first' | later'
      · subst first'
        exact absurd same (clean.1.offset_lt later).ne
      · exact clean.2.forked_inj later later' same

end

theorem exists_suffix_of_mem {n : Note} {journal : List Note} (h : n ∈ journal) :
    ∃ earlier, n :: earlier <:+ journal := by
  obtain ⟨later, earlier, rfl⟩ := List.append_of_mem h
  exact ⟨earlier, later, rfl⟩

end NativeExpr.Lowering
