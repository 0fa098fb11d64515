import Mathlib.Data.Option.Basic
import NativeExpr.X64.Decode

/-!
# Reading back what was encoded

Decoding the bytes of an instruction gives the instruction, whatever follows
them. An instruction with the stack pointer as an index has no bytes of its own
and is left out.
-/
namespace NativeExpr.X64

open NativeExpr

variable (rest : List Byte)

/-! ## Fields -/

theorem extract_modrm (mode : BitVec 2) (reg rm : BitVec 3) :
    (modrm mode reg rm).extractLsb' 6 2 = mode ∧ (modrm mode reg rm).extractLsb' 3 3 = reg ∧
      (modrm mode reg rm).extractLsb' 0 3 = rm := by
  decide +revert

theorem extract_scaleByte (scale : BitVec 2) (index base : BitVec 3) :
    (scaleByte scale index base).extractLsb' 6 2 = scale ∧
      (scaleByte scale index base).extractLsb' 3 3 = index ∧
      (scaleByte scale index base).extractLsb' 0 3 = base :=
  extract_modrm scale index base

@[simp] theorem regNum_high_low (r : RegNum) : regNum r.high r.low = r := by decide +revert

@[simp] theorem Scale.ofLog_log (s : Scale) : Scale.ofLog s.log = s := by cases s <;> rfl

theorem takeNumber_leBytes {w : Nat} (x : BitVec w) (n : Nat) (hw : 8 * n = w) :
    takeNumber w n (leBytes x n ++ rest) = some (x, rest) := by
  have hle : n ≤ (leBytes x n ++ rest).length := by
    rw [List.length_append, length_leBytes]
    exact Nat.le_add_right ..
  rw [takeNumber, if_pos hle, List.take_left' (length_leBytes x n),
    List.drop_left' (length_leBytes x n), leNat_leBytes, hw, BitVec.setWidth_eq,
    BitVec.ofNat_toNat, BitVec.setWidth_eq]

theorem takeNumber_byte (x : Byte) : takeNumber 8 1 (x :: rest) = some (x, rest) :=
  takeNumber_leBytes rest x 1 rfl

theorem takeDisp_dispBytes (a : Address) (low : BitVec 3) :
    takeDisp (if fitsByte a.disp then 1 else 2 : BitVec 2).toNat low (a.dispBytes ++ rest) =
      some (a.disp, rest) := by
  by_cases h : fitsByte a.disp
  · have hd : (a.disp.setWidth 8).signExtend 32 = a.disp := beq_iff_eq.1 h
    simp only [Address.dispBytes, if_pos h]
    have byte : takeDisp 1 low (a.disp.setWidth 8 :: rest) =
        (takeNumber 8 1 (a.disp.setWidth 8 :: rest)).map fun p => (p.1.signExtend 32, p.2) :=
      rfl
    refine byte.trans ?_
    rw [takeNumber_byte]
    exact congrArg (fun d => some (d, rest)) hd
  · simp only [Address.dispBytes, if_neg h]
    exact takeNumber_leBytes rest a.disp 4 rfl

/-- Whether the memory operand of an operand can be encoded. -/
def RegMem.Encodable : RegMem → Prop
  | .reg _ => True
  | .mem a => a.Encodable

theorem takeOperands_mem {rex : Rex} (reg : RegNum) (a : Address) (h : a.Encodable)
    (hr : rex.reg = reg.high) (hi : rex.index = a.indexHigh) (hb : rex.base = a.base.high) :
    takeOperands rex (a.operandBytes reg.low ++ rest) = some (reg, .mem a, rest) := by
  obtain ⟨base, index, disp⟩ := a
  have mode : (if fitsByte disp then 1 else 2 : BitVec 2).toNat ≠ 3 := by split <;> decide
  have hd := fun low => takeDisp_dispBytes rest ⟨base, index, disp⟩ low
  cases index with
  | some i =>
    obtain ⟨r, scale⟩ := i
    have hr4 : r ≠ RegNum.stackPointer := h (r, scale) rfl
    have hi : rex.index = r.high := hi
    simp only [Address.operandBytes, List.cons_append, takeOperands, (extract_modrm _ _ _).1,
      (extract_modrm _ _ _).2.1, (extract_modrm _ _ _).2.2, if_neg mode, if_true,
      (extract_scaleByte _ _ _).1, (extract_scaleByte _ _ _).2.1, (extract_scaleByte _ _ _).2.2,
      hr, hi, hb, regNum_high_low, Scale.ofLog_log, hd, if_neg hr4]
    rfl
  | none =>
    have hi : rex.index = false := hi
    by_cases hlow : base.low = (4 : BitVec 3)
    · have index : regNum false (4 : BitVec 3) = RegNum.stackPointer := rfl
      simp only [Address.operandBytes, if_pos hlow, List.cons_append, takeOperands,
        (extract_modrm _ _ _).1, (extract_modrm _ _ _).2.1, (extract_modrm _ _ _).2.2, if_neg mode,
        if_true, (extract_scaleByte _ _ _).1, (extract_scaleByte _ _ _).2.1,
        (extract_scaleByte _ _ _).2.2, hr, hi, hb, regNum_high_low, hd, index]
      rfl
    · simp only [Address.operandBytes, if_neg hlow, List.cons_append, takeOperands,
        (extract_modrm _ _ _).1, (extract_modrm _ _ _).2.1, (extract_modrm _ _ _).2.2, if_neg mode,
        hr, hb, regNum_high_low, hd]
      rfl

theorem takeOperands_operandBytes {rex : Rex} (reg : RegNum) {m : RegMem} (h : m.Encodable)
    (hr : rex.reg = reg.high) (hi : rex.index = m.indexHigh) (hb : rex.base = m.baseHigh) :
    takeOperands rex (m.operandBytes reg.low ++ rest) = some (reg, m, rest) := by
  cases m with
  | reg r =>
    have hb : rex.base = r.high := hb
    have mode : (3#2 : BitVec 2).toNat = 3 := rfl
    simp only [RegMem.operandBytes, List.cons_append, List.nil_append, takeOperands,
      (extract_modrm _ _ _).1, (extract_modrm _ _ _).2.1, (extract_modrm _ _ _).2.2, hr, hb,
      regNum_high_low]
    rfl
  | mem a => exact takeOperands_mem rest reg a h hr hi hb

/-! ## Prefixes -/

theorem Rex.take_rex {b : Byte} (h : b.extractLsb' 4 4 ≠ 4#4) (forced wide reg index base : Bool) :
    Rex.take (rex forced wide reg index base ++ b :: rest) =
      (⟨forced || wide || reg || index || base, wide, reg, index, base⟩, b :: rest) := by
  cases forced <;> cases wide <;> cases reg <;> cases index <;> cases base <;>
    first
    | exact if_neg h
    | rfl

theorem decode_of_plain {b : Byte} (h1 : b.toNat ≠ 0xF2) (h2 : b.toNat ≠ 0xF3)
    (h3 : b.toNat ≠ 0x66) :
    decode (b :: rest) = decodePlain (Rex.take (b :: rest)).1 (Rex.take (b :: rest)).2 := by
  unfold decode
  split
  · contradiction
  · next heq =>
    cases heq
    split <;> first | contradiction | rfl

theorem decode_rex {b : Byte} (h : b.extractLsb' 4 4 ≠ 4#4) (h1 : b.toNat ≠ 0xF2)
    (h2 : b.toNat ≠ 0xF3) (h3 : b.toNat ≠ 0x66) (forced wide reg index base : Bool) :
    decode (rex forced wide reg index base ++ b :: rest) =
      decodePlain ⟨forced || wide || reg || index || base, wide, reg, index, base⟩ (b :: rest) := by
  have plain : decode (rex forced wide reg index base ++ b :: rest) =
      decodePlain (Rex.take (rex forced wide reg index base ++ b :: rest)).1
        (Rex.take (rex forced wide reg index base ++ b :: rest)).2 := by
    by_cases hp : (forced || wide || reg || index || base) = true
    · rw [rex, if_pos hp]
      apply decode_of_plain <;> clear hp <;> revert forced wide reg index base <;> decide
    · rw [rex, if_neg hp]
      exact decode_of_plain rest h1 h2 h3
  rw [plain, Rex.take_rex rest h]

theorem decodeMarked_rex (table : Rex → Byte → List Byte → Decoded) (op : Byte)
    (wide reg index base : Bool) :
    decodeMarked table (rex false wide reg index base ++ 0x0F :: op :: rest) =
      table ⟨wide || reg || index || base, wide, reg, index, base⟩ op rest := by
  rw [decodeMarked, Rex.take_rex (op :: rest) (b := 0x0F) (by decide)]
  rfl

/-! ## Instructions -/

variable {rest}

theorem decode_short {op : Byte} {forced wide : Bool} {reg : RegNum} {rm : RegMem}
    (hop : op.extractLsb' 4 4 ≠ 4#4 ∧ op.toNat ≠ 0xF2 ∧ op.toNat ≠ 0xF3 ∧ op.toNat ≠ 0x66)
    (short : ∀ rex rest, decodePlain rex (op :: rest) = decodeShort rex op rest) :
    decode (withOperands [] forced wide [op] reg rm ++ rest) =
      decodeShort ⟨forced || wide || reg.high || rm.indexHigh || rm.baseHigh, wide, reg.high,
        rm.indexHigh, rm.baseHigh⟩ op (rm.operandBytes reg.low ++ rest) := by
  simp only [withOperands, List.nil_append, List.append_assoc, List.cons_append]
  rw [decode_rex _ hop.1 hop.2.1 hop.2.2.1 hop.2.2.2, short]

theorem decode_long {op : Byte} {forced wide : Bool} {reg : RegNum} {rm : RegMem}
    (long : op.extractLsb' 4 4 ≠ 8#4) :
    decode (withOperands [] forced wide [0x0F, op] reg rm ++ rest) =
      decodeLong ⟨forced || wide || reg.high || rm.indexHigh || rm.baseHigh, wide, reg.high,
        rm.indexHigh, rm.baseHigh⟩ op (rm.operandBytes reg.low ++ rest) := by
  simp only [withOperands, List.nil_append, List.append_assoc, List.cons_append]
  rw [decode_rex _ (by decide) (by decide) (by decide) (by decide)]
  exact if_neg long

theorem decode_scalar {p : Precision} {op : Byte} {wide : Bool} {reg : RegNum} {rm : RegMem} :
    decode (withOperands [scalarMark p] false wide [0x0F, op] reg rm ++ rest) =
      decodeScalar p ⟨wide || reg.high || rm.indexHigh || rm.baseHigh, wide, reg.high,
        rm.indexHigh, rm.baseHigh⟩ op (rm.operandBytes reg.low ++ rest) := by
  simp only [withOperands, List.append_assoc, List.cons_append, List.nil_append]
  cases p <;> exact decodeMarked_rex _ _ _ _ _ _ _

theorem decode_packed {op : Byte} {wide : Bool} {reg : RegNum} {rm : RegMem} :
    decode (withOperands [0x66] false wide [0x0F, op] reg rm ++ rest) =
      decodePacked ⟨wide || reg.high || rm.indexHigh || rm.baseHigh, wide, reg.high,
        rm.indexHigh, rm.baseHigh⟩ op (rm.operandBytes reg.low ++ rest) := by
  simp only [withOperands, List.append_assoc, List.cons_append, List.nil_append]
  exact decodeMarked_rex _ _ _ _ _ _ _

theorem decode_withNumber {wide : Bool} {opcode : BitVec 5} {r : RegNum}
    (h : opcode = 0x17 ∨ opcode = 0x0A ∨ opcode = 0x0B) :
    decode (withNumber wide opcode r ++ rest) =
      decodePlain ⟨wide || r.high, wide, false, false, r.high⟩
        ((opcode.setWidth 8 <<< 3 ||| r.low.setWidth 8) :: rest) := by
  have hop : ∀ low : BitVec 3, ∀ op : Byte, op = opcode.setWidth 8 <<< 3 ||| low.setWidth 8 →
      op.extractLsb' 4 4 ≠ 4#4 ∧ op.toNat ≠ 0xF2 ∧ op.toNat ≠ 0xF3 ∧ op.toNat ≠ 0x66 := by
    rintro low op rfl
    rcases h with rfl | rfl | rfl <;> decide +revert
  obtain ⟨h1, h2, h3, h4⟩ := hop r.low _ rfl
  simp only [withNumber, List.append_assoc, List.cons_append, List.nil_append]
  rw [decode_rex _ h1 h2 h3 h4]
  simp only [Bool.false_or, Bool.or_false]

/-- The operand of an instruction that is not refused can be encoded. -/
theorem encodable_of_refused? {i : Instruction} (h : i.refused? = none) {position : Nat}
    {a : Address} (hm : i.memory? = some (position, a)) : a.Encodable := by
  rw [Instruction.refused?, hm] at h
  simpa using h

theorem operand_encodable {i : Instruction} (h : i.refused? = none) {rm : RegMem} (position : Nat)
    (hm : ∀ a, rm = .mem a → i.memory? = some (position, a)) : rm.Encodable := by
  cases rm with
  | reg => trivial
  | mem a => exact encodable_of_refused? h (hm a rfl)

theorem namesByte_forced (r : RegNum) (wide reg index base : Bool) :
    Rex.namesByte ⟨needsByteForm r || wide || reg || index || base, wide, reg, index, base⟩ r =
      true := by
  simp only [Rex.namesByte]
  cases needsByteForm r <;> simp

theorem extract_setcc (c : Condition) :
    ((0x90 : Byte) ||| c.code.setWidth 8).extractLsb' 4 4 = 9#4 ∧
      ((0x90 : Byte) ||| c.code.setWidth 8).extractLsb' 0 4 = c.code := by
  cases c <;> decide

theorem extract_jumpIf (c : Condition) :
    ((0x80 : Byte) ||| c.code.setWidth 8).extractLsb' 4 4 = 8#4 ∧
      ((0x80 : Byte) ||| c.code.setWidth 8).extractLsb' 0 4 = c.code := by
  cases c <;> decide

theorem namesByte_both (r q : RegNum) (wide reg index base : Bool) :
    (Rex.namesByte ⟨needsByteForm r || needsByteForm q || wide || reg || index || base, wide, reg,
        index, base⟩ r &&
      Rex.namesByte ⟨needsByteForm r || needsByteForm q || wide || reg || index || base, wide, reg,
        index, base⟩ q) = true := by
  simp only [Rex.namesByte]
  cases needsByteForm r <;> cases needsByteForm q <;> simp

theorem fitsByte_eq {v : BitVec 32} (h : fitsByte v = true) : (v.setWidth 8).signExtend 32 = v :=
  beq_iff_eq.1 h

@[simp] theorem AluOp.ofField?_field (op : AluOp) : AluOp.ofField? op.field = some op := by
  cases op <;> rfl

@[simp] theorem ShiftOp.ofField?_field (op : ShiftOp) : ShiftOp.ofField? op.field = some op := by
  cases op <;> rfl

theorem guard_true {p : Prop} [Decidable p] (h : p) : (guard p : Option Unit) = some () := if_pos h

/-- The registers a field of three bits can name. The tables open on a literal opcode byte only. -/
theorem field_cases (low : BitVec 3) :
    low = 0 ∨ low = 1 ∨ low = 2 ∨ low = 3 ∨ low = 4 ∨ low = 5 ∨ low = 6 ∨ low = 7 := by
  decide +revert

theorem decode_movImm (opcode : Byte) (low : BitVec 3) (rex : Rex) (bytes : List Byte)
    (h : opcode = (0x17 : BitVec 5).setWidth 8 <<< 3 ||| low.setWidth 8) :
    decodePlain rex (opcode :: bytes) =
      if rex.wide then (takeNumber 64 8 bytes).map fun (v, rest) =>
        (.movFull (regNum rex.base low) v, rest)
      else (takeNumber 32 4 bytes).map fun (v, rest) =>
        (.movUnsigned (regNum rex.base low) v, rest) := by
  subst h
  rcases field_cases low with rfl | rfl | rfl | rfl | rfl | rfl | rfl | rfl <;>
  · show (if rex.wide then _ else _) = _
    split <;> cases takeNumber _ _ bytes <;> rfl

theorem decode_push (low : BitVec 3) (rex : Rex) (hw : rex.wide = false) (bytes : List Byte) :
    decodePlain rex (((0x0A : BitVec 5).setWidth 8 <<< 3 ||| low.setWidth 8) :: bytes) =
      some (.push (regNum rex.base low), bytes) := by
  rcases field_cases low with rfl | rfl | rfl | rfl | rfl | rfl | rfl | rfl <;>
    exact if_neg (by simp [hw])

theorem decode_pop (low : BitVec 3) (rex : Rex) (hw : rex.wide = false) (bytes : List Byte) :
    decodePlain rex (((0x0B : BitVec 5).setWidth 8 <<< 3 ||| low.setWidth 8) :: bytes) =
      some (.pop (regNum rex.base low), bytes) := by
  rcases field_cases low with rfl | rfl | rfl | rfl | rfl | rfl | rfl | rfl <;>
    exact if_neg (by simp [hw])

theorem decode_jump (rex : Rex) (bytes : List Byte) :
    decodePlain rex (0xE9 :: bytes) =
      (takeNumber 32 4 bytes).map fun (v, rest) => (.jump v, rest) := by
  cases h : takeNumber 32 4 bytes <;> simp [decodePlain, h]

theorem decode_encode {i : Instruction} (h : i.refused? = none) :
    decode (i.encode ++ rest) = some (i, rest) := by
  cases i with
  | mov dst src =>
    have hs : src.Encodable := operand_encodable h 1 (by rintro a rfl; rfl)
    refine (decode_short (by decide) fun _ _ => rfl).trans ?_
    rw [decodeShort, takeOperands_operandBytes _ dst hs rfl rfl rfl]
    rfl
  | store dst src =>
    have hs : dst.Encodable := operand_encodable h 0 (by rintro a rfl; rfl)
    refine (decode_short (by decide) fun _ _ => rfl).trans ?_
    rw [decodeShort, takeOperands_operandBytes _ src hs rfl rfl rfl]
    rfl
  | movUnsigned dst value =>
    rw [Instruction.encode, List.append_assoc, decode_withNumber (.inl rfl),
      decode_movImm _ dst.low _ _ rfl, takeNumber_leBytes rest value 4 rfl]
    simp
  | movSigned dst value =>
    have hs : dst.Encodable := operand_encodable h 0 (by rintro a rfl; rfl)
    rw [Instruction.encode, List.append_assoc]
    refine (decode_short (by decide) fun _ _ => rfl).trans ?_
    rw [decodeShort, takeOperands_operandBytes _ 0 hs rfl rfl rfl]
    simp [takeNumber_leBytes, guard]
  | movFull dst value =>
    rw [Instruction.encode, List.append_assoc, decode_withNumber (.inl rfl),
      decode_movImm _ dst.low _ _ rfl, takeNumber_leBytes rest value 8 rfl]
    simp
  | extend kind dst src =>
    have hs : src.Encodable := operand_encodable h 1 (by rintro a rfl; rfl)
    cases kind with
    | sx8 | sx16 | zx16 =>
      refine (decode_long (by decide)).trans ?_
      rw [decodeLong, takeOperands_operandBytes _ dst hs rfl rfl rfl]
      rfl
    | sx32 | zx32 =>
      refine (decode_short (by decide) fun _ _ => rfl).trans ?_
      rw [decodeShort, takeOperands_operandBytes _ dst hs rfl rfl rfl]
      rfl
    | zx8 =>
      refine (decode_long (by decide)).trans ?_
      rw [decodeLong, takeOperands_operandBytes _ dst hs rfl rfl rfl]
      cases src with
      | reg r =>
        show Option.bind (guard (_ = true)) _ = _
        rw [guard_true (namesByte_forced ..)]
        rfl
      | mem a => rfl
  | alu op dst src =>
    have hs : src.Encodable := operand_encodable h 1 (by rintro a rfl; rfl)
    cases op <;>
    · refine (decode_short (by decide) fun _ _ => rfl).trans ?_
      rw [decodeShort, takeOperands_operandBytes _ dst hs rfl rfl rfl]
      rfl
  | aluImm op dst value =>
    rw [Instruction.encode]
    split
    · next hv =>
      rw [List.append_assoc]
      refine (decode_short (by decide) fun _ _ => rfl).trans ?_
      rw [decodeShort, takeOperands_operandBytes _ op.field (m := .reg dst) trivial rfl rfl rfl]
      simp [takeNumber_byte, fitsByte_eq hv]
    · rw [List.append_assoc]
      refine (decode_short (by decide) fun _ _ => rfl).trans ?_
      rw [decodeShort, takeOperands_operandBytes _ op.field (m := .reg dst) trivial rfl rfl rfl]
      simp [takeNumber_leBytes]
  | imul dst src =>
    have hs : src.Encodable := operand_encodable h 1 (by rintro a rfl; rfl)
    refine (decode_long (by decide)).trans ?_
    rw [decodeLong, takeOperands_operandBytes _ dst hs rfl rfl rfl]
    rfl
  | imulImm dst src value =>
    have hs : src.Encodable := operand_encodable h 1 (by rintro a rfl; rfl)
    rw [Instruction.encode, List.append_assoc]
    refine (decode_short (by decide) fun _ _ => rfl).trans ?_
    rw [decodeShort, takeOperands_operandBytes _ dst hs rfl rfl rfl]
    simp [takeNumber_leBytes]
  | div signed src =>
    have hs : src.Encodable := operand_encodable h 0 (by rintro a rfl; rfl)
    cases signed <;>
    · refine (decode_short (by decide) fun _ _ => rfl).trans ?_
      rw [decodeShort, takeOperands_operandBytes _ _ hs rfl rfl rfl]
      rfl
  | cqo => rfl
  | shiftCl op dst =>
    refine (decode_short (by decide) fun _ _ => rfl).trans ?_
    rw [decodeShort, takeOperands_operandBytes _ op.field (m := .reg dst) trivial rfl rfl rfl]
    cases op <;> rfl
  | shiftImm op dst count =>
    rw [Instruction.encode, List.append_assoc]
    refine (decode_short (by decide) fun _ _ => rfl).trans ?_
    rw [decodeShort, takeOperands_operandBytes _ op.field (m := .reg dst) trivial rfl rfl rfl]
    simp [takeNumber_byte]
  | test a b =>
    refine (decode_short (by decide) fun _ _ => rfl).trans ?_
    rw [decodeShort, takeOperands_operandBytes _ b (m := .reg a) trivial rfl rfl rfl]
    rfl
  | setcc c dst =>
    refine (decode_long (by rw [(extract_setcc c).1]; decide)).trans ?_
    rw [decodeLong, takeOperands_operandBytes _ 0 (m := .reg dst) trivial rfl rfl rfl]
    cases c <;>
    · show Option.bind (guard (_ ∧ _ ∧ _)) _ = _
      rw [guard_true ⟨by decide, rfl, namesByte_forced ..⟩]
      rfl
  | and8 dst src =>
    refine (decode_short (by decide) fun _ _ => rfl).trans ?_
    rw [decodeShort, takeOperands_operandBytes _ src (m := .reg dst) trivial rfl rfl rfl]
    show Option.bind (guard (_ = true)) _ = _
    rw [guard_true (namesByte_both ..)]
    rfl
  | or8 dst src =>
    refine (decode_short (by decide) fun _ _ => rfl).trans ?_
    rw [decodeShort, takeOperands_operandBytes _ src (m := .reg dst) trivial rfl rfl rfl]
    show Option.bind (guard (_ = true)) _ = _
    rw [guard_true (namesByte_both ..)]
    rfl
  | floatOp op p dst src =>
    have hs : src.Encodable := operand_encodable h 1 (by rintro a rfl; rfl)
    refine decode_scalar.trans ?_
    rw [decodeScalar, takeOperands_operandBytes _ dst hs rfl rfl rfl]
    cases op <;> rfl
  | ucomis p a b =>
    have hs : b.Encodable := operand_encodable h 1 (by rintro a rfl; rfl)
    cases p with
    | single =>
      refine (decode_long (by decide)).trans ?_
      rw [decodeLong, takeOperands_operandBytes _ a hs rfl rfl rfl]
      rfl
    | double =>
      refine decode_packed.trans ?_
      rw [decodePacked, takeOperands_operandBytes _ a hs rfl rfl rfl]
      rfl
  | movaps dst src =>
    refine (decode_long (by decide)).trans ?_
    rw [decodeLong, takeOperands_operandBytes _ dst (m := .reg src) trivial rfl rfl rfl]
    rfl
  | loadFloat p dst src =>
    have hs : (RegMem.mem src).Encodable := encodable_of_refused? h rfl
    refine decode_scalar.trans ?_
    rw [decodeScalar, takeOperands_operandBytes _ dst hs rfl rfl rfl]
    rfl
  | storeFloat dst src =>
    have hs : (RegMem.mem dst).Encodable := encodable_of_refused? h rfl
    refine (decode_scalar (p := .double)).trans ?_
    rw [decodeScalar, takeOperands_operandBytes _ src hs rfl rfl rfl]
    rfl
  | xorps dst src =>
    refine (decode_long (by decide)).trans ?_
    rw [decodeLong, takeOperands_operandBytes _ dst (m := .reg src) trivial rfl rfl rfl]
    rfl
  | movBits p dst src =>
    refine decode_packed.trans ?_
    rw [decodePacked, takeOperands_operandBytes _ dst (m := .reg src) trivial rfl rfl rfl]
    cases p <;> rfl
  | intToFloat p dst src =>
    have hs : src.Encodable := operand_encodable h 1 (by rintro a rfl; rfl)
    refine decode_scalar.trans ?_
    rw [decodeScalar, takeOperands_operandBytes _ dst hs rfl rfl rfl]
    rfl
  | floatToInt p dst src =>
    have hs : src.Encodable := operand_encodable h 1 (by rintro a rfl; rfl)
    refine decode_scalar.trans ?_
    rw [decodeScalar, takeOperands_operandBytes _ dst hs rfl rfl rfl]
    rfl
  | convertFloat p dst src =>
    have hs : src.Encodable := operand_encodable h 1 (by rintro a rfl; rfl)
    cases p with
    | single =>
      refine (decode_scalar (p := .double)).trans ?_
      rw [decodeScalar, takeOperands_operandBytes _ dst hs rfl rfl rfl]
      rfl
    | double =>
      refine (decode_scalar (p := .single)).trans ?_
      rw [decodeScalar, takeOperands_operandBytes _ dst hs rfl rfl rfl]
      rfl
  | push r =>
    rw [Instruction.encode, decode_withNumber (.inr (.inl rfl)), decode_push _ _ rfl,
      regNum_high_low]
  | pop r =>
    rw [Instruction.encode, decode_withNumber (.inr (.inr rfl)), decode_pop _ _ rfl,
      regNum_high_low]
  | ret => rfl
  | callReg target =>
    refine (decode_short (by decide) fun _ _ => rfl).trans ?_
    rw [decodeShort, takeOperands_operandBytes _ 2 (m := .reg target) trivial rfl rfl rfl]
    rfl
  | jump displacement =>
    refine (decode_rex _ (by decide) (by decide) (by decide) (by decide)
      false false false false false).trans ?_
    exact (decode_jump _ _).trans
      (congrArg (Option.map _) (takeNumber_leBytes rest displacement 4 rfl))
  | jumpIf c displacement =>
    refine (decode_rex (b := 0x0F) _ (by decide) (by decide) (by decide) (by decide)
      false false false false false).trans ?_
    refine (if_pos (extract_jumpIf c).1).trans ?_
    rw [(extract_jumpIf c).2, Condition.ofCode?_code, List.append_eq,
      takeNumber_leBytes rest displacement 4 rfl]
    rfl
  | nop => rfl

/-! ## Lengths -/

theorem length_rex (forced wide reg index base : Bool) :
    (rex forced wide reg index base).length ≤ 1 := by
  unfold rex
  split <;> simp

theorem length_operandBytes (rm : RegMem) (field : BitVec 3) :
    0 < (rm.operandBytes field).length ∧ (rm.operandBytes field).length ≤ 6 := by
  cases rm with
  | reg r => simp [RegMem.operandBytes]
  | mem a =>
    have disp : a.dispBytes.length ≤ 4 := by
      unfold Address.dispBytes
      split <;> simp
    simp only [RegMem.operandBytes, Address.operandBytes]
    split
    · simp only [List.length_cons]
      omega
    · split <;>
      · simp only [List.length_cons]
        omega

theorem length_withOperands (mandatory : List Byte) (forced wide : Bool) (opcode : List Byte)
    (reg : RegNum) (rm : RegMem) :
    0 < (withOperands mandatory forced wide opcode reg rm).length ∧
      (withOperands mandatory forced wide opcode reg rm).length ≤
        mandatory.length + opcode.length + 7 := by
  have hr := length_rex forced wide reg.high rm.indexHigh rm.baseHigh
  have ho := length_operandBytes rm reg.low
  simp only [withOperands, List.length_append]
  omega

theorem length_withNumber (wide : Bool) (opcode : BitVec 5) (r : RegNum) :
    0 < (withNumber wide opcode r).length ∧ (withNumber wide opcode r).length ≤ 2 := by
  have hr := length_rex false wide false false r.high
  simp only [withNumber, List.length_append, List.length_singleton]
  omega

theorem length_encode (i : Instruction) :
    0 < i.encode.length ∧ i.encode.length ≤ maxInstructionLength := by
  have operands := length_withOperands
  have number := length_withNumber
  unfold maxInstructionLength
  cases i with
  | extend kind dst src =>
    cases kind <;>
    · refine ⟨(operands ..).1, Nat.le_trans (operands ..).2 ?_⟩
      simp
  | aluImm op dst value =>
    have := operands [] false true [0x83] op.field (.reg dst)
    have := operands [] false true [0x81] op.field (.reg dst)
    simp only [Instruction.encode, wideForm]
    split <;>
    · simp only [List.length_append, List.length_cons, List.length_nil, length_leBytes] at *
      omega
  | movUnsigned dst value =>
    have := number false 0x17 dst
    simp only [Instruction.encode, List.length_append, length_leBytes]
    omega
  | movFull dst value =>
    have := number true 0x17 dst
    simp only [Instruction.encode, List.length_append, length_leBytes]
    omega
  | movSigned dst value =>
    have := operands [] false true [0xC7] 0 dst
    simp only [Instruction.encode, wideForm, List.length_append, length_leBytes] at *
    simp only [List.length_cons, List.length_nil] at *
    omega
  | imulImm dst src value =>
    have := operands [] false true [0x69] dst src
    simp only [Instruction.encode, wideForm, List.length_append, length_leBytes] at *
    simp only [List.length_cons, List.length_nil] at *
    omega
  | shiftImm op dst count =>
    have := operands [] false true [0xC1] op.field (.reg dst)
    simp only [Instruction.encode, wideForm, List.length_append] at *
    simp only [List.length_cons, List.length_nil] at *
    omega
  | push r => exact ⟨(number ..).1, Nat.le_trans (number ..).2 (by decide)⟩
  | pop r => exact ⟨(number ..).1, Nat.le_trans (number ..).2 (by decide)⟩
  | cqo | ret | nop | jump | jumpIf => simp [Instruction.encode]
  | ucomis p a b =>
    cases p <;> exact ⟨(operands ..).1, Nat.le_trans (operands ..).2 (by simp [packedMark])⟩
  | convertFloat p dst src =>
    cases p <;> exact ⟨(operands ..).1, Nat.le_trans (operands ..).2 (by simp)⟩
  | _ => exact ⟨(operands ..).1, Nat.le_trans (operands ..).2 (by simp)⟩

/-- A reader that takes the encoding of an instruction takes it anywhere in the code. -/
theorem readAt_of_append {α : Type} {read : List Byte → Option (α × List Byte)} {x : α}
    {code : Array Byte} {before after : List Byte} {i : Instruction}
    (h : ∀ rest, read (i.encode ++ rest) = some (x, rest))
    (hcode : code.toList = before ++ (i.encode ++ after)) :
    readAt read code before.length = some (x, i.encode.length) := by
  have hlen := (length_encode i).2
  have window : (code.extract before.length (before.length + maxInstructionLength)).toList =
      i.encode ++ after.take (maxInstructionLength - i.encode.length) := by
    rw [Array.toList_extract, List.extract_eq_take_drop, hcode, List.drop_left' rfl,
      Nat.add_sub_cancel_left, List.take_append, List.take_of_length_le hlen]
  simp only [readAt, window, h, Option.map_some, List.length_append, Nat.add_sub_cancel]

theorem decodeAt_of_append {code : Array Byte} {before after : List Byte} {i : Instruction}
    (h : i.refused? = none) (hcode : code.toList = before ++ (i.encode ++ after)) :
    decodeAt code before.length = some (i, i.encode.length) :=
  readAt_of_append (fun _ => decode_encode h) hcode

end NativeExpr.X64
