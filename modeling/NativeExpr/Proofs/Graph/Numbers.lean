import Mathlib.Data.Int.ModEq
import Mathlib.Algebra.Order.Ring.Int
import NativeExpr.Proofs.Graph.Evaluation
import NativeExpr.Proofs.Widths

/-!
# Operations on numbers

A value of an integer type, a truth value or an address denotes a number. The operations compute
with words of 64 bits whatever the type, and cut the result down to its width: what they give is
the number of the type that agrees with the exact result modulo the power of the width. For a word
this needs no more than that the result, before it is cut down, is the word of the exact number.
-/
namespace NativeExpr

/-! ## Numbers -/

namespace ScalarType

variable {ty : ScalarType} {m n n' : Int}

/-- The numbers that a type has. -/
def Represents (ty : ScalarType) (n : Int) : Prop :=
  if ty.isSigned then -2 ^ (ty.width - 1) ≤ n ∧ n < 2 ^ (ty.width - 1)
  else 0 ≤ n ∧ n < 2 ^ ty.width

instance (ty : ScalarType) (n : Int) : Decidable (ty.Represents n) :=
  inferInstanceAs (Decidable (ite _ (_ ∧ _) (_ ∧ _)))

/-- Whether `n` is the number of the type that agrees with `m` modulo the power of the width. -/
structure Reduces (ty : ScalarType) (m n : Int) : Prop where
  represents : ty.Represents n
  congruent : n ≡ m [ZMOD 2 ^ ty.width]

/-- The numbers of a type are as many as the power of its width. -/
theorem abs_sub_lt (h : ty.Represents n) (h' : ty.Represents n') : |n - n'| < 2 ^ ty.width := by
  have half : (2 : Int) ^ ty.width = 2 * 2 ^ (ty.width - 1) := by
    rw [← pow_succ', Nat.sub_add_cancel ty.width_pos]
  rw [abs_lt]
  unfold Represents at h h'
  split at h
  · next signed =>
    rw [if_pos signed] at h'
    constructor <;> omega
  · next unsigned =>
    rw [if_neg unsigned] at h'
    constructor <;> omega

theorem Reduces.unique (h : ty.Reduces m n) (h' : ty.Reduces m n') : n = n' := by
  have dvd : (2 : Int) ^ ty.width ∣ n - n' := (h'.congruent.trans h.congruent.symm).dvd
  exact sub_eq_zero.1 (Int.eq_zero_of_abs_lt_dvd dvd (abs_sub_lt h.represents h'.represents))

theorem Represents.reduces (h : ty.Represents n) : ty.Reduces n n := ⟨h, Int.ModEq.refl n⟩

theorem Reduces.eq_of_represents (h : ty.Reduces m n) (exact : ty.Represents m) : n = m :=
  h.unique exact.reduces

end ScalarType

namespace Value

variable {ty : ScalarType} {v : Value} {n : Int}

def number (v : Value) : Int := if v.ty.isSigned then v.bits.toInt else v.bits.toNat

/-- Whether a value is the canonical one of the type that denotes the number. -/
structure Denotes (v : Value) (ty : ScalarType) (n : Int) : Prop where
  ty : v.ty = ty
  canonical : v.Canonical
  number : v.number = n

theorem Denotes.word (h : v.Denotes ty n) : BitVec.ofInt 64 n = v.bits := by
  rw [← h.number, Value.number]
  split
  · exact BitVec.ofInt_toInt
  · rw [BitVec.ofInt_natCast, BitVec.ofNat_toNat, BitVec.setWidth_eq]

end Value

/-! ## Words cut down to a type -/

theorem setWidth_ofInt {w : Nat} (le : w ≤ 64) (m : Int) :
    (BitVec.ofInt 64 m).setWidth w = BitVec.ofInt w m := by
  have dvd : ((2 ^ w : Nat) : Int) ∣ ((2 ^ 64 : Nat) : Int) :=
    Int.natCast_dvd_natCast.2 (Nat.pow_dvd_pow 2 le)
  have pos : ((2 ^ 64 : Nat) : Int) ≠ 0 := by decide
  have pos' : ((2 ^ w : Nat) : Int) ≠ 0 := Int.natCast_ne_zero.2 (Nat.two_pow_pos w).ne'
  apply BitVec.eq_of_toNat_eq
  rw [BitVec.toNat_setWidth, BitVec.toNat_ofInt, BitVec.toNat_ofInt]
  apply Int.natCast_inj.1
  rw [Int.natCast_emod, Int.toNat_of_nonneg (Int.emod_nonneg m pos),
    Int.toNat_of_nonneg (Int.emod_nonneg m pos'), Int.emod_emod_of_dvd m dvd]

namespace ScalarType

variable {ty : ScalarType} {m : Int} {x y raw : Word}

theorem represents_toInt (signed : ty.isSigned = true) (x : BitVec ty.width) :
    ty.Represents x.toInt := by
  rw [Represents, if_pos signed]
  exact ⟨x.le_toInt, x.toInt_lt⟩

theorem represents_toNat (unsigned : ty.isSigned = false) (x : BitVec ty.width) :
    ty.Represents x.toNat := by
  rw [Represents, unsigned, if_neg Bool.false_ne_true]
  exact ⟨Int.natCast_nonneg _, by exact_mod_cast x.isLt⟩

/-- The word of a number, cut down to a type, denotes the number of the type that agrees with it. -/
theorem denotes_ofRaw (ne : ty ≠ .bool) (m : Int) :
    ∃ n, (Value.ofRaw ty (BitVec.ofInt 64 m)).Denotes ty n ∧ ty.Reduces m n := by
  refine ⟨_, ⟨rfl, Value.canonical_ofRaw .., rfl⟩, ?_⟩
  have le := ty.width_le
  have word : (Value.ofRaw ty (BitVec.ofInt 64 m)).bits = ty.settle (BitVec.ofInt 64 m) :=
    (settle_of_ne ne _).symm
  have modulus : ((2 ^ ty.width : Nat) : Int) = 2 ^ ty.width := by norm_cast
  rw [Value.number, word]
  show ty.Reduces m (if ty.isSigned then _ else _)
  cases signed : ty.isSigned with
  | true =>
    rw [if_pos rfl, settle_signed signed, setWidth_ofInt le, BitVec.toInt_signExtend_of_le le]
    refine ⟨represents_toInt signed _, ?_⟩
    rw [BitVec.toInt_ofInt, ← modulus]
    exact Int.bmod_emod
  | false =>
    rw [if_neg Bool.false_ne_true, settle_unsigned signed, setWidth_ofInt le,
      BitVec.toNat_setWidth_of_le le]
    refine ⟨represents_toNat signed _, ?_⟩
    rw [BitVec.toNat_ofInt, ← modulus, Int.toNat_of_nonneg
      (Int.emod_nonneg m (Int.natCast_ne_zero.2 (Nat.two_pow_pos ty.width).ne'))]
    exact Int.mod_modEq m _

end ScalarType

/-- Every canonical value denotes a number that its type has. -/
theorem Value.Denotes.represents {v : Value} {ty : ScalarType} {n : Int} (h : v.Denotes ty n)
    (ne : ty ≠ .bool) : ty.Represents n := by
  obtain ⟨n', denotes, reduces⟩ := ScalarType.denotes_ofRaw ne n
  have same : Value.ofRaw ty (BitVec.ofInt 64 n) = v := by
    rw [h.word]
    obtain ⟨rfl, canonical, -⟩ := h
    cases v
    exact congrArg (Value.mk _) canonical
  rw [← h.number, ← same, denotes.number]
  exact reduces.represents

/-! ## Arithmetic -/

namespace ArithOp

/-- The exact result of an operation; quotients are truncated. -/
def exact : ArithOp → Int → Int → Int
  | add, x, y => x + y
  | sub, x, y => x - y
  | mul, x, y => x * y
  | div, x, y => x.tdiv y
  | rem, x, y => x.tmod y

/-- Whether an operation on numbers of a type fails. -/
def Traps (op : ArithOp) (ty : ScalarType) (x y : Int) : Prop :=
  (op = .div ∨ op = .rem) ∧ (y = 0 ∨ ty = .i64 ∧ x = -2 ^ 63 ∧ y = -1)

end ArithOp

section

variable {ty : ScalarType} {op : ArithOp} {a b : Value} {x y : Int} {w : Word}

theorem Value.Denotes.toInt_eq (h : a.Denotes ty x) (signed : ty.isSigned = true) :
    a.bits.toInt = x := by
  rw [← h.number, Value.number, h.ty, if_pos signed]

theorem Value.Denotes.toNat_eq (h : a.Denotes ty x) (unsigned : ty.isSigned = false) :
    (a.bits.toNat : Int) = x := by
  rw [← h.number, Value.number, h.ty, unsigned, if_neg Bool.false_ne_true]

theorem Value.Denotes.bits_eq_zero (h : a.Denotes ty x) : a.bits = 0 ↔ x = 0 := by
  cases signed : ty.isSigned with
  | true =>
    rw [← h.toInt_eq signed, ← BitVec.toInt_inj]
    rfl
  | false =>
    rw [← h.toNat_eq signed, Int.natCast_eq_zero, ← BitVec.toNat_inj]
    rfl

/-- The quotient of words that do not overflow is that of their numbers. -/
theorem sdiv_eq_ofInt {u v : Word} (regular : ¬(u = BitVec.intMin 64 ∧ v = -1)) :
    u.sdiv v = BitVec.ofInt 64 (u.toInt.tdiv v.toInt) := by
  have regular : u ≠ BitVec.intMin 64 ∨ v ≠ -1#64 := by
    by_cases least : u = BitVec.intMin 64
    · exact .inr fun minus => regular ⟨least, minus⟩
    · exact .inl least
  rw [← BitVec.toInt_sdiv_of_ne_or_ne u v regular, BitVec.ofInt_toInt]

/-- The word of the exact result, where an operation does not fail. -/
theorem ArithOp.word_of_evalInt (ha : a.Denotes ty x) (hb : b.Denotes ty y)
    (h : op.evalInt ty a.bits b.bits = .ok w) : w = BitVec.ofInt 64 (op.exact x y) := by
  cases op with
  | add =>
    cases h
    rw [exact, BitVec.ofInt_add, ha.word, hb.word]
  | sub =>
    cases h
    rw [exact, Int.sub_eq_add_neg, BitVec.ofInt_add, BitVec.ofInt_neg, ha.word, hb.word,
      BitVec.sub_eq_add_neg]
  | mul =>
    cases h
    rw [exact, BitVec.ofInt_mul, ha.word, hb.word]
  | div =>
    simp only [evalInt] at h
    split at h
    · cases h
    split at h
    · next signed =>
      split at h
      · cases h
      · next regular =>
        cases h
        rw [exact, sdiv_eq_ofInt regular, ha.toInt_eq signed, hb.toInt_eq signed]
    · next unsigned =>
      rw [Bool.not_eq_true] at unsigned
      cases h
      rw [exact, ← ha.toNat_eq unsigned, ← hb.toNat_eq unsigned, ← Int.ofNat_tdiv,
        BitVec.ofInt_natCast, BitVec.udiv_eq, BitVec.udiv_def]
  | rem =>
    simp only [evalInt] at h
    split at h
    · cases h
    split at h
    · next signed =>
      split at h
      · cases h
      · cases h
        rw [exact, ← ha.toInt_eq signed, ← hb.toInt_eq signed, ← BitVec.toInt_srem,
          BitVec.ofInt_toInt]
    · next unsigned =>
      rw [Bool.not_eq_true] at unsigned
      cases h
      rw [exact, ← ha.toNat_eq unsigned, ← hb.toNat_eq unsigned, ← Int.ofNat_tmod,
        BitVec.ofInt_natCast, BitVec.umod_eq, BitVec.umod_def]

theorem ArithOp.traps_iff (ha : a.Denotes ty x) (hb : b.Denotes ty y) :
    op.Traps ty x y ↔ ∃ e, op.evalInt ty a.bits b.bits = .error e := by
  have least (signed : ty.isSigned = true) : a.bits = BitVec.intMin 64 ↔ x = -2 ^ 63 := by
    rw [← ha.toInt_eq signed, ← BitVec.toInt_inj]
    rfl
  have minus (signed : ty.isSigned = true) : b.bits = -1 ↔ y = -1 := by
    rw [← hb.toInt_eq signed, ← BitVec.toInt_inj]
    rfl
  simp only [evalInt_eq_error]
  constructor
  · rintro ⟨division, zero | ⟨rfl, hx, hy⟩⟩
    · exact ⟨_, division, .inl ⟨hb.bits_eq_zero.2 zero, rfl⟩⟩
    · exact ⟨_, division, .inr ⟨⟨rfl, (least rfl).2 hx, (minus rfl).2 hy⟩, rfl⟩⟩
  · rintro ⟨e, division, ⟨zero, -⟩ | ⟨⟨signed, hx, hy⟩, -⟩⟩
    · exact ⟨division, .inl (hb.bits_eq_zero.1 zero)⟩
    · have canonical := ha.canonical
      rw [Value.Canonical, ha.ty, hx] at canonical
      exact ⟨division, .inr ⟨Value.eq_i64_of_canonical signed canonical, (least signed).1 hx,
        (minus signed).1 hy⟩⟩

end

namespace ScalarType

variable {ty : ScalarType} {x y r : Int}

theorem Represents.natAbs_lt (signed : ty.isSigned = true) (small : r.natAbs < 2 ^ (ty.width - 1)) :
    ty.Represents r := by
  rw [Represents, if_pos signed]
  have small : (r.natAbs : Int) < 2 ^ (ty.width - 1) := by exact_mod_cast small
  constructor <;> omega

/-- What lies between zero and a number of the type is one too. -/
theorem Represents.between (h : ty.Represents x) (sign : 0 ≤ x → 0 ≤ r) (sign' : x ≤ 0 → r ≤ 0)
    (le : r.natAbs ≤ x.natAbs) : ty.Represents r := by
  unfold Represents at *
  split at h
  · next signed =>
    rw [if_pos signed]
    have pos : (0 : Int) < 2 ^ (ty.width - 1) := pow_pos (by decide) _
    constructor <;> omega
  · next unsigned =>
    rw [if_neg unsigned]
    constructor <;> omega

theorem Represents.tmod (h : ty.Represents x) (y : Int) : ty.Represents (x.tmod y) := by
  apply h.between (Int.tmod_nonneg y)
  · intro nonpos
    have flipped := Int.tmod_nonneg y (Int.neg_nonneg.2 nonpos)
    rw [Int.neg_tmod] at flipped
    omega
  · rw [Int.natAbs_tmod]
    exact Nat.mod_le ..

/-- A quotient is a number of the type, but for the least number by minus one. -/
theorem Represents.tdiv (h : ty.Represents x) (h' : ty.Represents y)
    (regular : ¬(ty.isSigned = true ∧ x = -2 ^ (ty.width - 1) ∧ y = -1)) :
    ty.Represents (x.tdiv y) := by
  by_cases nonneg : 0 ≤ y
  · apply h.between (Int.tdiv_nonneg · nonneg)
    · intro nonpos
      have flipped := Int.tdiv_nonneg (Int.neg_nonneg.2 nonpos) nonneg
      rw [Int.neg_tdiv] at flipped
      omega
    · exact Int.natAbs_tdiv_le_natAbs x y
  · -- a negative divisor is a number of a signed type
    have signed : ty.isSigned = true := by
      cases signed : ty.isSigned with
      | true => rfl
      | false =>
        rw [Represents, signed, if_neg Bool.false_ne_true] at h'
        exact absurd h'.1 nonneg
    have range := h
    rw [Represents, if_pos signed] at range
    by_cases minus : y = -1
    · have inside : x ≠ -2 ^ (ty.width - 1) := fun least => regular ⟨signed, least, minus⟩
      rw [minus, Int.tdiv_neg, Int.tdiv_one, Represents, if_pos signed]
      constructor <;> omega
    · apply Represents.natAbs_lt signed
      have half : x.natAbs / y.natAbs ≤ x.natAbs / 2 := Nat.div_le_div_left (by omega) (by decide)
      have pos := Nat.two_pow_pos (ty.width - 1)
      have le : x.natAbs ≤ 2 ^ (ty.width - 1) := by
        have cast : ((2 ^ (ty.width - 1) : Nat) : Int) = 2 ^ (ty.width - 1) := by norm_cast
        omega
      rw [Int.natAbs_tdiv]
      exact Nat.lt_of_le_of_lt half (by omega)

/-- Division by a power of two, rounded down, gives a number of the type. -/
theorem Represents.shift (h : ty.Represents x) (c : Nat) : ty.Represents (x / 2 ^ c) := by
  have pos : (0 : Int) < 2 ^ c := pow_pos (by decide) c
  apply h.between (Int.ediv_nonneg · pos.le)
  · intro nonpos
    exact Int.ediv_nonpos_of_nonpos_of_neg nonpos pos
  · exact Int.natAbs_ediv_le_natAbs x _

/-- What is left of a number shifted by the width or further. -/
theorem Represents.shift_far (h : ty.Represents x) {c : Nat} (far : ty.width ≤ c) :
    x / 2 ^ c = if x < 0 then -1 else 0 := by
  have le : (2 : Int) ^ ty.width ≤ 2 ^ c := pow_le_pow_right₀ (by decide) far
  have half : (2 : Int) ^ ty.width = 2 * 2 ^ (ty.width - 1) := by
    rw [← pow_succ', Nat.sub_add_cancel ty.width_pos]
  have pos : (0 : Int) < 2 ^ (ty.width - 1) := pow_pos (by decide) _
  have range : -2 ^ c ≤ x ∧ x < 2 ^ c := by
    unfold Represents at h
    split at h <;> constructor <;> omega
  split
  · next neg =>
    -- the remainder is what the number lacks to zero
    have parts := Int.ediv_emod_unique (a := x) (b := 2 ^ c) (q := -1) (r := x + 2 ^ c) (by omega)
    exact (parts.2 ⟨by omega, by omega, by omega⟩).1
  · next nonneg => exact Int.ediv_eq_zero_of_lt (by omega) range.2

end ScalarType

/-! ## Logic -/

section

variable {ty : ScalarType} {op : LogicOp} {a b : Value} {x y : Int} {w : Word}

/-- A shift counts by the number modulo 64, also where that is negative. -/
theorem Value.Denotes.count (h : b.Denotes ty y) : b.bits.toNat % 64 = (y % 64).toNat := by
  have pos : ((2 ^ 64 : Nat) : Int) ≠ 0 := by decide
  rw [← h.word, BitVec.toNat_ofInt]
  apply Int.natCast_inj.1
  rw [Int.natCast_emod, Int.toNat_of_nonneg (Int.emod_nonneg y pos),
    Int.toNat_of_nonneg (Int.emod_nonneg y (by decide))]
  exact Int.emod_emod_of_dvd y (by decide)

theorem shiftLeft_ofInt (x : Int) (c : Nat) :
    BitVec.ofInt 64 x <<< c = BitVec.ofInt 64 (x * 2 ^ c) := by
  have power : BitVec.twoPow 64 c = BitVec.ofInt 64 (2 ^ c) := by
    apply BitVec.eq_of_toNat_eq
    have cast : (2 : Int) ^ c = ((2 ^ c : Nat) : Int) := by norm_cast
    rw [BitVec.toNat_twoPow, cast, BitVec.ofInt_natCast, BitVec.toNat_ofNat]
  rw [BitVec.shiftLeft_eq_mul_twoPow, power, BitVec.ofInt_mul]

theorem shiftRight_ofInt (h : a.Denotes ty x) (c : Nat) :
    (if ty.isSigned then a.bits.sshiftRight c else a.bits >>> c) =
      BitVec.ofInt 64 (x / 2 ^ c) := by
  have cast : (2 : Int) ^ c = ((2 ^ c : Nat) : Int) := by norm_cast
  cases signed : ty.isSigned with
  | true =>
    rw [if_pos rfl, ← h.toInt_eq signed, cast, ← Int.shiftRight_eq_div_pow,
      ← BitVec.toInt_sshiftRight, BitVec.ofInt_toInt]
  | false =>
    rw [if_neg Bool.false_ne_true, ← h.toNat_eq signed, cast, ← Int.natCast_ediv,
      BitVec.ofInt_natCast, ← Nat.shiftRight_eq_div_pow, ← BitVec.toNat_ushiftRight,
      BitVec.ofNat_toNat, BitVec.setWidth_eq]

/-- The low bits of a word stay when it is cut down to a type. -/
theorem setWidth_ofRaw (ne : ty ≠ .bool) (raw : Word) :
    (Value.ofRaw ty raw).bits.setWidth ty.width = raw.setWidth ty.width := by
  show (ty.canonical raw).setWidth ty.width = _
  rw [← ScalarType.settle_of_ne ne]
  cases signed : ty.isSigned with
  | true => rw [ScalarType.settle_signed signed, setWidth_signExtend_cancel _ ty.width_le]
  | false => rw [ScalarType.settle_unsigned signed, setWidth_setWidth_cancel _ ty.width_le]

end

/-! ## Comparisons -/

def Predicate.exact : Predicate → Int → Int → Bool
  | eq, x, y => x = y
  | ne, x, y => x ≠ y
  | lt, x, y => x < y
  | le, x, y => x ≤ y
  | gt, x, y => x > y
  | ge, x, y => x ≥ y

theorem Predicate.holds_compare (pred : Predicate) (x y : Int) :
    pred.holds (some (Ord.compare x y)) = pred.exact x y := by
  rcases Int.lt_trichotomy x y with h | h | h
  · rw [Int.compare_eq_lt.2 h]
    cases pred <;> simp [holds, exact, h, h.ne, h.le, not_lt.2 h.le]
  · rw [Int.compare_eq_eq.2 h]
    cases pred <;> simp [holds, exact, h]
  · rw [Int.compare_eq_gt.2 h]
    cases pred <;> simp [holds, exact, h, h.ne', h.le, not_lt.2 h.le]

theorem compare_natCast (m n : Nat) : Ord.compare (m : Int) (n : Int) = Ord.compare m n := by
  rcases Nat.lt_trichotomy m n with h | h | h
  · rw [Nat.compare_eq_lt.2 h, Int.compare_eq_lt.2 (by omega)]
  · rw [Nat.compare_eq_eq.2 h, Int.compare_eq_eq.2 (by omega)]
  · rw [Nat.compare_eq_gt.2 h, Int.compare_eq_gt.2 (by omega)]

theorem Value.compare_eq {ty : ScalarType} {a b : Value} {x y : Int} (whole : ty.precision? = none)
    (ha : a.Denotes ty x) (hb : b.Denotes ty y) (pred : Predicate) :
    Value.compare pred a b = .ofBool (pred.exact x y) := by
  rw [Value.compare, order_of_general (ha.ty ▸ whole), ha.ty, ← pred.holds_compare]
  cases signed : ty.isSigned with
  | true => rw [if_pos rfl, ha.toInt_eq signed, hb.toInt_eq signed]
  | false =>
    rw [if_neg Bool.false_ne_true, ← compare_natCast, ha.toNat_eq signed, hb.toNat_eq signed]

/-! ## Conversions -/

theorem denotes_ofBool (b : Bool) : (Value.ofBool b).Denotes .bool (if b then 1 else 0) := by
  cases b <;> exact ⟨rfl, rfl, rfl⟩

theorem Value.Denotes.bool_cases {v : Value} {x : Int} (h : v.Denotes .bool x) :
    x = if x = 0 then 0 else 1 := by
  obtain ⟨same, canonical, number⟩ := h
  rw [Canonical, same, ScalarType.canonical_bool_iff] at canonical
  rw [← number, Value.number, same]
  rcases canonical with bits | bits <;> rw [bits] <;> rfl

/-- What becomes of a number in another type that is not one of floats. -/
def ScalarType.Converts (target : ScalarType) (x n : Int) : Prop :=
  if target = .bool then n = if x = 0 then 0 else 1 else target.Reduces x n

theorem Value.denotes_cast {v : Value} {source target : ScalarType} {x : Int}
    (whole : source.isFloat = false) (whole' : target.isFloat = false) (h : v.Denotes source x) :
    ∃ u n, v.cast target = .ok u ∧ u.Denotes target n ∧ target.Converts x n := by
  have converts : source.lacksConversion target = false := by
    simp [ScalarType.lacksConversion, whole, whole']
  have general := ScalarType.precision?_eq_none.2 whole
  have general' := ScalarType.precision?_eq_none.2 whole'
  unfold cast
  rw [h.ty]
  split
  · next same =>
    subst same
    refine ⟨v, x, rfl, h, ?_⟩
    unfold ScalarType.Converts
    split
    · next bool =>
      subst bool
      exact h.bool_cases
    · next ne => exact (h.represents ne).reduces
  rw [converts]
  simp only [Bool.false_eq_true, if_false]
  unfold ScalarType.Converts
  split
  · next bool =>
    subst bool
    refine ⟨_, _, rfl, denotes_ofBool _, ?_⟩
    simp [← h.bits_eq_zero]
  · next ne =>
    rw [general, general']
    obtain ⟨n, denotes, reduces⟩ := ScalarType.denotes_ofRaw ne x
    rw [h.word] at denotes
    exact ⟨_, n, rfl, denotes, reduces⟩

/-! ## The operations of an integer type -/

/-- The operations of the evaluator on two values of an integer type that denote two numbers. -/
structure ScalarType.Computes (ty : ScalarType) (a b : Value) (x y : Int) : Prop where
  arith : ∀ op : ArithOp, ¬op.Traps ty x y → ∃ v n, Value.arith op ty a b = .ok v ∧
    v.Denotes ty n ∧ ty.Reduces (op.exact x y) n
  refuses : ∀ op : ArithOp, (∃ e, Value.arith op ty a b = .error e) ↔ op.Traps ty x y
  fits : ∀ op : ArithOp, op = .div ∨ op = .rem →
    ¬(op = .div ∧ ty.isSigned = true ∧ x = -2 ^ (ty.width - 1) ∧ y = -1) →
      ty.Represents (op.exact x y)
  logic : ∀ op : LogicOp, ∃ n, (Value.logic op ty a b).Denotes ty n
  and : (Value.logic .and ty a b).bits.setWidth ty.width =
    a.bits.setWidth ty.width &&& b.bits.setWidth ty.width
  or : (Value.logic .or ty a b).bits.setWidth ty.width =
    a.bits.setWidth ty.width ||| b.bits.setWidth ty.width
  xor : (Value.logic .xor ty a b).bits.setWidth ty.width =
    a.bits.setWidth ty.width ^^^ b.bits.setWidth ty.width
  shl : ∃ n, (Value.logic .shl ty a b).Denotes ty n ∧ ty.Reduces (x * 2 ^ (y % 64).toNat) n
  shr : (Value.logic .shr ty a b).Denotes ty (x / 2 ^ (y % 64).toNat)
  far : ty.width ≤ (y % 64).toNat → (Value.logic .shl ty a b).Denotes ty 0 ∧
    (Value.logic .shr ty a b).Denotes ty (if x < 0 then -1 else 0)
  compare : ∀ pred : Predicate, Value.compare pred a b = .ofBool (pred.exact x y)

section

variable {ty : ScalarType} {a b : Value} {x y : Int}

/-- An operation on words whose result is the word of a number, cut down to the type. -/
theorem denotes_arith {op : ArithOp} (ne : ty ≠ .bool) (general : ty.precision? = none)
    (ha : a.Denotes ty x) (hb : b.Denotes ty y) (regular : ¬op.Traps ty x y) :
    ∃ v n, Value.arith op ty a b = .ok v ∧ v.Denotes ty n ∧ ty.Reduces (op.exact x y) n := by
  rw [ArithOp.traps_iff ha hb] at regular
  cases result : op.evalInt ty a.bits b.bits with
  | error e => exact absurd ⟨e, result⟩ regular
  | ok w =>
    obtain ⟨n, denotes, reduces⟩ := ScalarType.denotes_ofRaw ne (op.exact x y)
    rw [← ArithOp.word_of_evalInt ha hb result] at denotes
    refine ⟨_, n, ?_, denotes, reduces⟩
    simp [Value.arith, general, result, Except.map]

theorem arith_refuses (op : ArithOp) (general : ty.precision? = none) (ha : a.Denotes ty x)
    (hb : b.Denotes ty y) : (∃ e, Value.arith op ty a b = .error e) ↔ op.Traps ty x y := by
  rw [ArithOp.traps_iff ha hb]
  cases result : op.evalInt ty a.bits b.bits <;> simp [Value.arith, general, result, Except.map]

theorem denotes_shl (ne : ty ≠ .bool) (ha : a.Denotes ty x) (hb : b.Denotes ty y) :
    ∃ n, (Value.logic .shl ty a b).Denotes ty n ∧ ty.Reduces (x * 2 ^ (y % 64).toNat) n := by
  rw [← hb.count]
  have denotes := ScalarType.denotes_ofRaw ne (x * 2 ^ (b.bits.toNat % 64))
  rwa [← shiftLeft_ofInt, ha.word] at denotes

theorem denotes_shr (ne : ty ≠ .bool) (ha : a.Denotes ty x) (hb : b.Denotes ty y) :
    (Value.logic .shr ty a b).Denotes ty (x / 2 ^ (y % 64).toNat) := by
  rw [← hb.count]
  obtain ⟨n, denotes, reduces⟩ := ScalarType.denotes_ofRaw ne (x / 2 ^ (b.bits.toNat % 64))
  rw [reduces.eq_of_represents ((ha.represents ne).shift _)] at denotes
  rwa [← shiftRight_ofInt ha] at denotes

/-- A number shifted left by the width or further leaves nothing. -/
theorem reduces_far {c : Nat} (far : ty.width ≤ c) : ty.Reduces (x * 2 ^ c) 0 where
  represents := by
    have pos : (0 : Int) < 2 ^ (ty.width - 1) := pow_pos (by decide) _
    have pos' : (0 : Int) < 2 ^ ty.width := pow_pos (by decide) _
    unfold ScalarType.Represents
    split <;> constructor <;> omega
  congruent := by
    have dvd : (2 : Int) ^ ty.width ∣ x * 2 ^ c := (pow_dvd_pow 2 far).mul_left x
    exact (Int.modEq_zero_iff_dvd.2 dvd).symm

theorem ScalarType.computes (integer : ty.isInteger = true) (ha : a.Denotes ty x)
    (hb : b.Denotes ty y) : ty.Computes a b x y := by
  have ne : ty ≠ .bool := by
    rintro rfl
    cases integer
  have general := ScalarType.precision?_eq_none.2 (ScalarType.isFloat_of_isInteger integer)
  constructor
  · intro op regular
    exact denotes_arith ne general ha hb regular
  · intro op
    exact arith_refuses op general ha hb
  · rintro op (rfl | rfl) regular
    · exact (ha.represents ne).tdiv (hb.represents ne) fun least => regular ⟨rfl, least⟩
    · exact (ha.represents ne).tmod y
  · intro op
    exact ⟨_, rfl, Value.canonical_ofRaw .., rfl⟩
  · exact (setWidth_ofRaw ne _).trans BitVec.setWidth_and
  · exact (setWidth_ofRaw ne _).trans BitVec.setWidth_or
  · exact (setWidth_ofRaw ne _).trans BitVec.setWidth_xor
  · exact denotes_shl ne ha hb
  · exact denotes_shr ne ha hb
  · intro far
    obtain ⟨n, left, reduces⟩ := denotes_shl ne ha hb
    have right := denotes_shr ne ha hb
    rw [(ha.represents ne).shift_far far] at right
    exact ⟨reduces.unique (reduces_far far) ▸ left, right⟩
  · exact Value.compare_eq general ha hb

end

/-- The evaluator computes with numbers. In an integer type its operations give the number of the
type that agrees with the exact result modulo the power of the width, a division fails for a zero
divisor and for the least number of 64 bits by minus one only, and comparisons are those of numbers.
Conversions among integers, truth values and addresses take the number over in the same way. -/
theorem integer_operations :
    (∀ (ty : ScalarType) (a b : Value) (x y : Int), ty.isInteger = true → a.Denotes ty x →
      b.Denotes ty y → ty.Computes a b x y) ∧
    ∀ (source target : ScalarType) (v : Value) (x : Int), source.isFloat = false →
      target.isFloat = false → v.Denotes source x →
        ∃ u n, v.cast target = .ok u ∧ u.Denotes target n ∧ target.Converts x n :=
  ⟨fun _ _ _ _ _ integer ha hb => ScalarType.computes integer ha hb,
    fun _ _ _ _ whole whole' h => Value.denotes_cast whole whole' h⟩

/-- The least number of eight bits by minus one: the quotient is that number again, shifted right
by minus one, which counts as 63, it leaves minus one, and as an address it is near the last. -/
theorem integer_operations_least :
    (∃ v, Value.arith .div .i8 (.ofRaw .i8 0x80) (.ofRaw .i8 0xff) = .ok v ∧
      v.Denotes .i8 (-128)) ∧
    (Value.logic .shr .i8 (.ofRaw .i8 0x80) (.ofRaw .i8 0xff)).Denotes .i8 (-1) ∧
    ∃ u, (Value.ofRaw .i8 0x80).cast .ptr = .ok u ∧ u.Denotes .ptr (2 ^ 64 - 128) := by
  have least : (Value.ofRaw .i8 0x80).Denotes .i8 (-128) := ⟨rfl, by decide, by decide⟩
  have minus : (Value.ofRaw .i8 0xff).Denotes .i8 (-1) := ⟨rfl, by decide, by decide⟩
  obtain ⟨operations, conversions⟩ := integer_operations
  have computes := operations .i8 _ _ _ _ rfl least minus
  refine ⟨?_, ?_, ?_⟩
  · obtain ⟨v, n, served, denotes, reduces⟩ := computes.arith .div (by unfold ArithOp.Traps; decide)
    have same : n = -128 := reduces.unique ⟨by decide, by decide⟩
    exact ⟨v, served, same ▸ denotes⟩
  · exact (computes.far (by decide)).2
  · obtain ⟨u, n, served, denotes, reduces⟩ := conversions .i8 .ptr _ _ rfl rfl least
    have same : n = 2 ^ 64 - 128 := ScalarType.Reduces.unique reduces ⟨by decide, by decide⟩
    exact ⟨u, served, same ▸ denotes⟩

end NativeExpr
