import NativeExpr.Proofs.Lowering.Twins

/-!
# Lowering in step

Every function of lowering goes the same way for two kindred graphs, and for one graph in
buffers of different capacity. The lemmas follow the functions of lowering in their order.
-/
namespace NativeExpr

namespace Lowering

open X64

variable {α : Type} {Known : NodeId → Prop} {I : Assembler → Prop} [Assembler.Invariant I]
variable {ctx ctx' : Context} {gen gen' : NodeId → Lower Unit}
variable {id lhs rhs value cond thenValue elseValue base index : NodeId}

/-! ## Arithmetic -/

omit [Assembler.Invariant I] in
theorem inStep_arrange (commutative : Bool) (hl : Known lhs) (hr : Known rhs) :
    InStep (Twin Known I) (fun p => Known p.1 ∧ Known p.2) (arrange commutative lhs rhs)
      (arrange commutative lhs rhs) :=
  have swap : InStep (Twin Known I) Whatever (prefersSwap lhs rhs) (prefersSwap lhs rhs) :=
    .bind (inStep_isImmediate _) fun _ _ => .ite
      (.bind (inStep_isImmediate _) fun _ _ => .of_pure trivial)
      (.bind (inStep_isReusable _) fun _ _ => .bind (inStep_isReusable _) fun _ _ =>
        .of_pure trivial)
  .bind swap fun _ _ => .ite (.of_pure ⟨hr, hl⟩) (.of_pure ⟨hl, hr⟩)

section

variable (kin : ctx.Kindred Known ctx')
variable (h : ∀ x, Known x → InStep (Twin Known I) Whatever (gen x) (gen' x))
include kin h

theorem inStep_lowerBinary (hl : Known lhs) (hr : Known rhs) (commutative : Bool)
    {instr : Reg → Operand → Asm Unit} (hi : ∀ dst src, Assembler.Plain (instr dst src)) :
    InStep (Twin Known I) Whatever (lowerBinary ctx gen id lhs rhs commutative instr)
      (lowerBinary ctx' gen' id lhs rhs commutative instr) :=
  .bind (h lhs hl) fun _ _ => .bind (h rhs hr) fun _ _ =>
    .bind (inStep_arrange _ hl hr) fun _ ⟨ha, hb⟩ =>
      .bind (inStep_withLocked _ (inStep_takeOrCopy kin ha _)) fun _ _ =>
        .bind (inStep_operand _) fun _ _ => .bind (inStep_plain (hi _ _)) fun _ _ =>
          .bind (inStep_consume hb) fun _ _ => .of_pure trivial

theorem inStep_lowerInteger (hid : Known id) (op : IntegerOp) (widens : Bool) (hl : Known lhs)
    (hr : Known rhs) (ty : ScalarType) :
    InStep (Twin Known I) Whatever (lowerInteger ctx gen id op widens lhs rhs ty)
      (lowerInteger ctx' gen' id op widens lhs rhs ty) := by
  have instr (dst : Reg) (src : Operand) : Assembler.Plain (op.emit dst src) := by
    cases op with
    | alu op => exact Assembler.plain_alu op
    | mul => exact Assembler.plain_imul
  exact .bind (inStep_lowerBinary kin h hl hr _ instr) fun dst _ =>
    .ite (.bind (inStep_normalize _ _) fun _ _ => inStep_define hid _) (inStep_define hid _)

end

/-- An integer constant goes through the scratch register, another operand stays. -/
theorem inStep_integerSource (value : NodeId) :
    InStep (Twin Known I) Whatever (integerSource value) (integerSource value) := by
  refine .bind (inStep_operand value) fun o _ => ?_
  split
  · exact .bind (inStep_plain (Assembler.plain_movImm _)) fun _ _ => .of_pure trivial
  · exact .of_pure trivial

theorem inStep_lowerDivision
    (h : ∀ x, Known x → InStep (Twin Known I) Whatever (gen x) (gen' x)) (hid : Known id)
    (quotient : Bool) (hl : Known lhs) (hr : Known rhs) (ty : ScalarType) :
    InStep (Twin Known I) Whatever (lowerDivision gen id quotient lhs rhs ty)
      (lowerDivision gen' id quotient lhs rhs ty) := by
  have temp : RegisterFile.Admissible Known .temp := RegisterFile.admissible_temp
  refine .bind (h lhs hl) fun _ _ => .bind (h rhs hr) fun _ _ => .bind (inStep_evict _) fun _ _ =>
    .bind (inStep_evict _) fun _ _ => .bind (inStep_take temp) fun _ _ =>
      .bind (inStep_take temp) fun _ _ => .bind (inStep_integerSource rhs) fun _ _ =>
        .bind (inStep_operand lhs) fun _ _ => .bind (inStep_plain Assembler.plain_mov) fun _ _ => ?_
  refine .ite (.bind (inStep_plain Assembler.plain_cqo) fun _ _ => ?_)
    (.bind (inStep_plain (Assembler.plain_movImm _)) fun _ _ => ?_) <;>
  exact .bind (inStep_plain (Assembler.plain_div _)) fun _ _ => .bind (inStep_consume hl) fun _ _ =>
    .bind (inStep_consume hr) fun _ _ => .bind (inStep_free _) fun _ _ =>
      .bind (inStep_normalize _ _) fun _ _ => inStep_define hid _

section

variable (kin : ctx.Kindred Known ctx')
variable (h : ∀ x, Known x → InStep (Twin Known I) Whatever (gen x) (gen' x))
include kin h

theorem inStep_lowerShift (hid : Known id) (left : Bool) (hl : Known lhs) (hr : Known rhs)
    (ty : ScalarType) :
    InStep (Twin Known I) Whatever (lowerShift ctx gen id left lhs rhs ty)
      (lowerShift ctx' gen' id left lhs rhs ty) := by
  refine .bind (h lhs hl) fun _ _ => .bind (h rhs hr) fun _ _ =>
    .bind (inStep_storage rhs) fun count _ => ?_
  have rest (m m' : Lower Reg) (hm : InStep (Twin Known I) Whatever m m') :
      InStep (Twin Known I) Whatever
        (do
          let dst ← m
          if left then normalize dst ty
          define id dst)
        (do
          let dst ← m'
          if left then normalize dst ty
          define id dst) :=
    .bind hm fun _ _ => .ite (.bind (inStep_normalize _ _) fun _ _ => inStep_define hid _)
      (inStep_define hid _)
  cases count with
  | immediate count =>
    exact .bind (inStep_takeOrCopy kin hl _) fun _ _ =>
      .bind (inStep_plain (Assembler.plain_shiftImm _ _)) fun _ _ =>
        .bind (inStep_consume hr) fun _ _ => rest _ _ (.of_pure trivial)
  | register | stack =>
    exact .bind (inStep_evict _) fun _ _ =>
      .bind (inStep_take RegisterFile.admissible_temp) fun _ _ =>
      .bind (inStep_operand _) fun _ _ => .bind (inStep_plain Assembler.plain_mov) fun _ _ =>
        .bind (inStep_consume hr) fun _ _ => .bind (inStep_takeOrCopy kin hl _) fun _ _ =>
          .bind (inStep_plain (Assembler.plain_shiftCl _)) fun _ _ =>
            .bind (inStep_free _) fun _ _ => rest _ _ (.of_pure trivial)

theorem inStep_lowerFloat (hid : Known id) (op : ArithOp) (hl : Known lhs) (hr : Known rhs)
    (ty : ScalarType) (p : Precision) :
    InStep (Twin Known I) Whatever (lowerFloat ctx gen id op lhs rhs ty p)
      (lowerFloat ctx' gen' id op lhs rhs ty p) := by
  unfold lowerFloat
  split
  · exact .of_throw not_false
  · exact .bind (inStep_lowerBinary kin h hl hr _ fun _ _ => Assembler.plain_floatOp _ _)
      fun _ _ => inStep_define hid _

theorem inStep_lowerArith (hid : Known id) (op : ArithOp) (hl : Known lhs) (hr : Known rhs)
    (ty : ScalarType) :
    InStep (Twin Known I) Whatever (lowerArith ctx gen id op lhs rhs ty)
      (lowerArith ctx' gen' id op lhs rhs ty) := by
  unfold lowerArith
  split
  · exact inStep_lowerFloat kin h hid _ hl hr _ _
  · cases op with
    | add | sub | mul => exact inStep_lowerInteger kin h hid _ _ hl hr _
    | div | rem => exact inStep_lowerDivision h hid _ hl hr _

theorem inStep_lowerLogic (hid : Known id) (op : LogicOp) (hl : Known lhs) (hr : Known rhs)
    (ty : ScalarType) :
    InStep (Twin Known I) Whatever (lowerLogic ctx gen id op lhs rhs ty)
      (lowerLogic ctx' gen' id op lhs rhs ty) := by
  cases op with
  | and | or | xor => exact inStep_lowerInteger kin h hid _ _ hl hr _
  | shl | shr => exact inStep_lowerShift kin h hid _ hl hr _

end

theorem inStep_floatRegister (p : Precision) (id : NodeId) :
    InStep (Twin Known I) Whatever (floatRegister p id) (floatRegister p id) := by
  refine .bind (inStep_operand id) fun o _ => ?_
  split
  · exact .of_pure trivial
  · exact .bind (inStep_plain (Assembler.plain_movFloat _)) fun _ _ => .of_pure trivial

theorem inStep_emitComparison (kin : ctx.Kindred Known ctx') (pred : Predicate) (hl : Known lhs)
    (rhs : NodeId) :
    InStep (Twin Known I) Whatever (emitComparison ctx pred lhs rhs)
      (emitComparison ctx' pred lhs rhs) := by
  refine .bind (inStep_typeOf kin hl) fun ty _ => ?_
  split
  · exact .bind (inStep_generalRegister _) fun _ _ => .bind (inStep_operand _) fun _ _ =>
      .bind (inStep_plain (Assembler.plain_alu _)) fun _ _ => .of_pure trivial
  · exact .bind (inStep_floatRegister _ _) fun _ _ => .bind (inStep_operand _) fun _ _ =>
      .bind (inStep_plain (Assembler.plain_ucomis _)) fun _ _ => .of_pure trivial

section

variable (kin : ctx.Kindred Known ctx')
variable (h : ∀ x, Known x → InStep (Twin Known I) Whatever (gen x) (gen' x))
include kin h

theorem inStep_lowerCompare (hid : Known id) (pred : Predicate) (hl : Known lhs)
    (hr : Known rhs) :
    InStep (Twin Known I) Whatever (lowerCompare ctx gen id pred lhs rhs)
      (lowerCompare ctx' gen' id pred lhs rhs) := by
  refine .bind (h lhs hl) fun _ _ => .bind (h rhs hr) fun _ _ =>
    .bind (inStep_typeOf kin hl) fun ty _ =>
      .bind (inStep_withLocked _ (inStep_withLocked _ (inStep_allocResult kin _ _))) fun dst _ =>
        .bind (inStep_plain (Assembler.plain_movImm _)) fun _ _ =>
          .bind (inStep_emitComparison kin _ hl _) fun cond _ => ?_
  have rest : InStep (Twin Known I) Whatever
      (do
        consume lhs
        consume rhs
        define id dst)
      (do
        consume lhs
        consume rhs
        define id dst) :=
    .bind (inStep_consume hl) fun _ _ => .bind (inStep_consume hr) fun _ _ => inStep_define hid _
  have setcc (cond : Condition) (r : Reg) : InStep (Twin Known I) Whatever
      (emit (Assembler.setcc cond r)) (emit (Assembler.setcc cond r)) :=
    inStep_plain (Assembler.plain_setcc _)
  split
  · exact .bind (setcc _ _) fun _ _ => .bind (setcc _ _) fun _ _ =>
      .bind (inStep_plain Assembler.plain_and8) fun _ _ => rest
  · exact .bind (setcc _ _) fun _ _ => .bind (setcc _ _) fun _ _ =>
      .bind (inStep_plain Assembler.plain_or8) fun _ _ => rest
  · exact .bind (setcc _ _) fun _ _ => rest

/-! ## Conversions -/

omit h in
theorem inStep_lowerConversion (hid : Known id) (hv : Known value) (c : RegClass)
    {body : Reg → Lower Unit} (hb : ∀ dst, InStep (Twin Known I) Whatever (body dst) (body dst)) :
    InStep (Twin Known I) Whatever (lowerConversion ctx id value c body)
      (lowerConversion ctx' id value c body) :=
  .bind (inStep_withLocked _ (inStep_allocResult kin _ _)) fun _ _ => .bind (hb _) fun _ _ =>
    .bind (inStep_consume hv) fun _ _ => inStep_define hid _

theorem inStep_lowerCast (hid : Known id) (hv : Known value) (target : ScalarType) :
    InStep (Twin Known I) Whatever (lowerCast ctx gen id value target)
      (lowerCast ctx' gen' id value target) := by
  refine .bind (h value hv) fun _ _ => .bind (inStep_typeOf kin hv) fun source _ =>
    .ite (.of_throw not_false) ?_
  split
  · exact .bind (inStep_takeOrCopy kin hv _) fun _ _ => .ite
      (.bind (inStep_plain Assembler.plain_test) fun _ _ =>
        .bind (inStep_plain (Assembler.plain_setcc _)) fun _ _ =>
          .bind (inStep_plain (Assembler.plain_extend _)) fun _ _ => inStep_define hid _)
      (.bind (inStep_normalize _ _) fun _ _ => inStep_define hid _)
  · exact inStep_lowerConversion kin hid hv _ fun _ => .bind (inStep_integerSource _) fun _ _ =>
      inStep_plain (Assembler.plain_intToFloat _)
  · exact inStep_lowerConversion kin hid hv _ fun _ => .bind (inStep_operand _) fun _ _ =>
      .bind (inStep_plain (Assembler.plain_floatToInt _)) fun _ _ => inStep_normalize _ _
  · exact .ite (.bind (inStep_takeOrCopy kin hv _) fun _ _ => inStep_define hid _)
      (inStep_lowerConversion kin hid hv _ fun _ => .bind (inStep_operand _) fun _ _ =>
        inStep_plain (Assembler.plain_convertFloat _))

end

/-! ## Loads -/

theorem inStep_emitLoad (dst : Reg) (ty : ScalarType) (address : Mem) :
    InStep (Twin Known I) Whatever (emitLoad dst ty address) (emitLoad dst ty address) := by
  unfold emitLoad
  split
  · exact inStep_plain (Assembler.plain_movFloat _)
  · exact inStep_plain (Assembler.plain_load _)

theorem inStep_elementOperand (base index : NodeId) (size : Nat) :
    InStep (Twin Known I) Whatever (elementOperand base index size)
      (elementOperand base index size) := by
  refine .bind (inStep_operand _) fun b _ => .bind (inStep_operand _) fun i _ => ?_
  have add : InStep (Twin Known I) Whatever
      (do
        emit (Assembler.alu .add .scratch b)
        return Mem.baseDisp .scratch 0)
      (do
        emit (Assembler.alu .add .scratch b)
        return Mem.baseDisp .scratch 0) :=
    .bind (inStep_plain (Assembler.plain_alu _)) fun _ _ => .of_pure trivial
  extract_lets folded
  split
  · exact .bind (inStep_generalRegister _) fun _ _ => .of_pure trivial
  · split
    · exact .of_pure trivial
    · exact .bind (inStep_plain Assembler.plain_mov) fun _ _ => .of_pure trivial
    · exact .bind (inStep_plain Assembler.plain_mov) fun _ _ =>
        .ite (.bind (inStep_plain (Assembler.plain_shiftImm _ _)) fun _ _ => add) add

section

variable (kin : ctx.Kindred Known ctx')
variable (h : ∀ x, Known x → InStep (Twin Known I) Whatever (gen x) (gen' x))
include kin h

theorem inStep_lowerField (hid : Known id) (hb : Known base) (offset : Int) (ty : ScalarType) :
    InStep (Twin Known I) Whatever (lowerField ctx gen id base offset ty)
      (lowerField ctx' gen' id base offset ty) :=
  .bind (h base hb) fun _ _ =>
    .bind (inStep_withLocked _ (inStep_allocResult kin _ _)) fun _ _ =>
      .bind (inStep_generalRegister _) fun _ _ => .bind (inStep_emitLoad _ _ _) fun _ _ =>
        .bind (inStep_consume hb) fun _ _ => inStep_define hid _

theorem inStep_lowerElement (hid : Known id) (hb : Known base) (hi : Known index)
    (ty : ScalarType) :
    InStep (Twin Known I) Whatever (lowerElement ctx gen id base index ty)
      (lowerElement ctx' gen' id base index ty) :=
  .bind (h base hb) fun _ _ => .bind (h index hi) fun _ _ =>
    .bind (inStep_withLocked _ (inStep_withLocked _ (inStep_allocResult kin _ _))) fun _ _ =>
      .bind (inStep_elementOperand _ _ _) fun _ _ => .bind (inStep_emitLoad _ _ _) fun _ _ =>
        .bind (inStep_consume hb) fun _ _ => .bind (inStep_consume hi) fun _ _ =>
          inStep_define hid _

end

/-! ## Calls -/

theorem inStep_spillCallerSaved :
    InStep (Twin Known I) Whatever spillCallerSaved spillCallerSaved := by
  refine .of_get (fun s s' twin => ?_) (fun _ _ => rfl) fun _ _ => rfl
  rw [twin.regs]
  refine .bind (.forM fun _ _ => .ite (inStep_evict _) .nothing) fun _ _ => ?_
  refine .of_get (fun s s' twin => ?_) (fun _ _ => rfl) fun _ _ => rfl
  rw [twin.regs]
  exact .forM fun _ _ => inStep_evict _

theorem inStep_storeOutgoing (arg : NodeId) (ty : ScalarType) (slot : Mem) :
    InStep (Twin Known I) Whatever (storeOutgoing arg ty slot) (storeOutgoing arg ty slot) := by
  refine .bind (inStep_operand _) fun o _ => ?_
  split
  · exact .ite (inStep_plain Assembler.plain_storeFloat) (inStep_plain Assembler.plain_store)
  · exact inStep_plain (Assembler.plain_storeImm _)
  · exact .bind (inStep_plain (Assembler.plain_load _)) fun _ _ =>
      inStep_plain Assembler.plain_store

theorem inStep_storeStackArg (p : NodeId × ScalarType × ArgLocation) :
    InStep (Twin Known I) Whatever (storeStackArg p) (storeStackArg p) := by
  obtain ⟨arg, ty, location⟩ := p
  cases location with
  | stack offset => exact inStep_storeOutgoing _ _ _
  | register r => exact .nothing

theorem inStep_moveRegisterArg (p : NodeId × ScalarType × ArgLocation) :
    InStep (Twin Known I) Whatever (moveRegisterArg p) (moveRegisterArg p) := by
  obtain ⟨arg, ty, location⟩ := p
  cases location with
  | register r => exact .bind (inStep_operand _) fun _ _ => inStep_copyTo _ _ _
  | stack offset => exact .nothing

theorem inStep_adjustStack (op : AluOp) (bytes : Nat) :
    InStep (Twin Known I) Whatever (adjustStack op bytes) (adjustStack op bytes) :=
  .ite (inStep_plain (Assembler.plain_alu _)) .nothing

section

variable (kin : ctx.Kindred Known ctx')
variable (h : ∀ x, Known x → InStep (Twin Known I) Whatever (gen x) (gen' x))
include kin h

theorem inStep_lowerCall (hid : Known id) (target : Word) {args : List NodeId}
    (ha : ∀ x ∈ args, Known x) (ret : ScalarType) :
    InStep (Twin Known I) Whatever (lowerCall ctx gen id target args ret)
      (lowerCall ctx' gen' id target args ret) :=
  .bind (.forM fun x hx => h x (ha x hx)) fun _ _ => .bind inStep_spillCallerSaved fun _ _ =>
    .bind (.mapM fun x hx => inStep_typeOf kin (ha x hx)) fun _ _ =>
      .bind (inStep_adjustStack _ _) fun _ _ =>
        .bind (.forM fun _ _ => inStep_storeStackArg _) fun _ _ =>
          .bind (.forM fun _ _ => inStep_moveRegisterArg _) fun _ _ =>
            .bind (inStep_plain (Assembler.plain_movImm _)) fun _ _ =>
              .bind (inStep_plain Assembler.plain_callReg) fun _ _ =>
                .bind (inStep_adjustStack _ _) fun _ _ =>
                  .bind (.forM fun x hx => inStep_consume (ha x hx)) fun _ _ =>
                    .bind (inStep_take RegisterFile.admissible_temp) fun _ _ =>
                      .bind (inStep_normalize _ _) fun _ _ =>
                        .bind (inStep_modifyFrame fun f => { f with makesCalls := true }) fun _ _ =>
                          .bind (inStep_modifyStats _) fun _ _ => inStep_define hid _

/-! ## Conditionals -/

/-- Whether all values that a branch reads are known. -/
def Branch.Within (Known : NodeId → Prop) : Branch → Prop
  | .fused cond _ lhs rhs => Known cond ∧ Known lhs ∧ Known rhs
  | .test cond => Known cond

omit [Assembler.Invariant I] h in
theorem inStep_fusible? (hc : Known cond) :
    InStep (Twin Known I) (fun f => ∀ p, f = some p → Known p.2.1 ∧ Known p.2.2)
      (fusible? ctx cond) (fusible? ctx' cond) := by
  refine .bind (inStep_assignment _) fun a _ => ?_
  rw [kin.fuse]
  refine .ite (.bind (inStep_node kin hc) fun n hn => ?_) (.of_pure nofun)
  have operands := kin.operands hc hn
  rw [Node.operands] at operands
  split
  · next pred lhs rhs same =>
    rw [same] at operands
    have hl := operands lhs (List.mem_cons_self ..)
    have hr := operands rhs (List.mem_cons_of_mem _ (List.mem_cons_self ..))
    refine .bind (inStep_typeOf kin hl) fun ty _ => .of_pure fun p hp => ?_
    split at hp
    · cases hp
      exact ⟨hl, hr⟩
    · cases hp
  · exact .of_pure nofun

omit [Assembler.Invariant I] in
theorem inStep_prepareBranch (hc : Known cond) :
    InStep (Twin Known I) (Branch.Within Known) (prepareBranch ctx gen cond)
      (prepareBranch ctx' gen' cond) := by
  refine .bind (inStep_fusible? kin hc) fun fused known => ?_
  split
  · next pred lhs rhs =>
    obtain ⟨hl, hr⟩ := known _ rfl
    exact .bind (h lhs hl) fun _ _ => .bind (h rhs hr) fun _ _ => .of_pure ⟨hc, hl, hr⟩
  · exact .bind (h cond hc) fun _ _ => .of_pure hc

omit h in
theorem inStep_emitBranchCondition {b : Branch} (hb : b.Within Known) :
    InStep (Twin Known I) Whatever (emitBranchCondition ctx b) (emitBranchCondition ctx' b) := by
  cases b with
  | fused cond pred lhs rhs =>
    obtain ⟨hc, hl, hr⟩ := hb
    exact .bind (inStep_emitComparison kin _ hl _) fun _ _ => .bind (inStep_consume hl) fun _ _ =>
      .bind (inStep_consume hr) fun _ _ => .bind (inStep_removeUse hc) fun _ _ =>
        .bind (inStep_note _ _) fun _ _ => .bind (inStep_modifyStats _) fun _ _ =>
          .of_pure trivial
  | test cond =>
    exact .bind (inStep_generalRegister _) fun _ _ =>
      .bind (inStep_plain Assembler.plain_test) fun _ _ =>
        .bind (inStep_consume hb) fun _ _ => .of_pure trivial

end

theorem inStep_reload (saved : Assignment) (hid : Known id) :
    InStep (Twin Known I) Whatever (reload saved id) (reload saved id) := by
  refine .bind (inStep_assignment _) fun current _ => ?_
  split
  · refine .ite .nothing (.bind (inStep_take (RegisterFile.admissible_value hid)) fun _ _ => ?_)
    split
    · exact .bind (inStep_plain (Assembler.plain_movFloat _)) fun _ _ => inStep_setStorage hid _
    · exact .bind (inStep_plain (Assembler.plain_load _)) fun _ _ => inStep_setStorage hid _
  · exact .nothing

/-- There is nothing to reload for an entry without a register. -/
theorem reload_unused (id : NodeId) : reload .unused id = pure () := by
  funext s
  rfl

/-- A loop over a longer range is the same if there is nothing to do at the end of it. -/
theorem forM_range_of_le {f : Nat → Lower Unit} {n n' : Nat} (le : n ≤ n')
    (rest : ∀ id, n ≤ id → id < n' → f id = pure ()) :
    (List.range n').forM f = (List.range n).forM f := by
  induction n', le using Nat.le_induction with
  | base => rfl
  | succ n' le ih =>
    rw [← ih fun id low high => rest id low (Nat.lt_succ_of_lt high), List.range_succ]
    refine (List.forM_append (f := f)).trans ?_
    show ((List.range n').forM f >>= fun _ => f n' >>= fun _ => pure ()) = _
    rw [rest n' le (Nat.lt_succ_self n')]
    exact bind_pure_unit

theorem inStep_lowerArm {before before' : ValueTable} (covers : before.Covers Known before')
    (h : ∀ x, Known x → InStep (Twin Known I) Whatever (gen x) (gen' x)) {arm : NodeId}
    (ha : Known arm) (result : Reg) (ty : ScalarType) :
    InStep (Twin Known I) Whatever (lowerArm gen arm result ty before)
      (lowerArm gen' arm result ty before') := by
  refine .bind (h arm ha) fun _ _ => .bind (inStep_operand _) fun _ _ =>
    .bind (inStep_copyTo _ _ _) fun _ _ => .bind (inStep_consume ha) fun _ _ =>
      .bind (inStep_take RegisterFile.admissible_temp) fun _ _ => ?_
  rw [forM_range_of_le covers.size_le fun id outside _ => by
    rw [covers.unused outside, reload_unused]]
  refine .forM fun id hid => ?_
  rw [covers.entry_eq]
  exact inStep_reload _ (covers.known id (List.mem_range.1 hid))

omit [Assembler.Invariant I] in
theorem inStep_mergeUses {before before' : ValueTable} (same : before'.entry id = before.entry id)
    {thenUses thenUses' : Array Nat} (uses : thenUses'.getD id 0 = thenUses.getD id 0)
    (hid : Known id) :
    InStep (Twin Known I) Whatever (mergeUses before thenUses id)
      (mergeUses before' thenUses' id) := by
  unfold mergeUses
  rw [same, uses]
  refine .bind (inStep_assignment _) fun current _ => .ite .nothing
    (.bind (inStep_note _ _) fun _ _ =>
      .bind (inStep_modifyValues fun _ _ covers => covers.update hid _) fun _ _ =>
        .ite (inStep_release current id) .nothing)

/-- There is nothing to combine for an entry that neither arm read. -/
theorem mergeUses_unused {before : ValueTable} {thenUses : Array Nat}
    (same : thenUses.getD id 0 = (before.entry id).usesLeft) :
    mergeUses before thenUses id = pure () := by
  funext s
  unfold mergeUses
  rw [same]
  show (if (before.entry id).usesLeft = (before.entry id).usesLeft then pure ()
    else _ : Lower Unit) s = _
  rw [if_pos rfl]

theorem inStep_lowerSelect (kin : ctx.Kindred Known ctx')
    (h : ∀ x, Known x → InStep (Twin Known I) Whatever (gen x) (gen' x)) (hid : Known id)
    (hc : Known cond) (ht : Known thenValue) (he : Known elseValue) (ty : ScalarType) :
    InStep (Twin Known I) Whatever (lowerSelect ctx gen id cond thenValue elseValue ty)
      (lowerSelect ctx' gen' id cond thenValue elseValue ty) := by
  refine .of_get (fun s s' twin => ?_) (fun _ _ => rfl) fun _ _ => rfl
  obtain ⟨shared, known⟩ := kin.shared ht he (remainingUses s.mark.tables.values)
  dsimp only
  rw [show remainingUses s'.mark.tables.values = remainingUses s.mark.tables.values from
    twin.values.remainingUses_eq, shared]
  refine .bind (.forM fun x hx => h x (known x hx)) fun _ _ =>
    .bind (inStep_modifyStats _) fun _ _ => .bind (inStep_prepareBranch kin h hc) fun _ hb =>
      .bind (inStep_allocResult kin _ _) fun result _ => .bind (inStep_free _) fun _ _ =>
        .bind (inStep_emitBranchCondition kin hb) fun toElse _ => ?_
  refine .of_get (fun s₁ s₁' twin₁ => ?_) (fun _ _ => rfl) fun _ _ => rfl
  have covers := twin₁.values
  have label : InStep (Twin Known I) Whatever (emit Assembler.createLabel)
      (emit Assembler.createLabel) := inStep_emit Assembler.inStep_createLabel
  have bind (l : Nat) : InStep (Twin Known I) Whatever (emit (Assembler.bindLabel l))
      (emit (Assembler.bindLabel l)) := inStep_emit (Assembler.inStep_bindLabel l)
  refine .bind label fun _ _ => .bind label fun _ _ =>
    .bind (inStep_emit (Assembler.inStep_jumpIf _ _)) fun _ _ =>
      .bind (inStep_note _ _) fun _ _ => .bind (inStep_lowerArm covers h ht _ _) fun _ _ => ?_
  refine .of_get (fun s₂ s₂' twin₂ => ?_) (fun _ _ => rfl) fun _ _ => rfl
  have uses (x : NodeId) : s₂'.values.useCounts.getD x 0 = s₂.values.useCounts.getD x 0 := by
    rw [ValueTable.getD_useCounts, ValueTable.getD_useCounts, twin₂.values.entry_eq]
  -- an entry of the larger graph is read in neither arm
  have merged : InStep (Twin Known I) Whatever
      ((List.range s₁.values.size).forM (mergeUses s₁.values s₂.values.useCounts))
      ((List.range s₁'.values.size).forM (mergeUses s₁'.values s₂'.values.useCounts)) := by
    rw [forM_range_of_le covers.size_le fun x outside inside => mergeUses_unused ?_]
    · refine .forM fun x hx => ?_
      exact inStep_mergeUses (covers.entry_eq x) (uses x) (covers.known x (List.mem_range.1 hx))
    · have unknown : ¬ Known x := fun known =>
        Nat.not_lt.2 outside (covers.inside x known inside)
      have unread : s₂.values.size ≤ x := Nat.not_lt.1 fun lt => unknown (twin₂.values.known x lt)
      rw [uses, ValueTable.getD_useCounts, ValueTable.entry_of_le unread, covers.unused outside]
  refine .bind (inStep_emit (Assembler.inStep_jump _)) fun _ _ =>
    .bind (.of_modify (fun t t' twin => ?_) (fun _ => rfl) (fun _ _ => rfl) fun _ _ => rfl)
      fun _ _ => .bind (bind _) fun _ _ => .bind (inStep_lowerArm covers h he _ _) fun _ _ =>
        .of_get (fun _ _ _ => .bind (bind _) fun _ _ => .bind merged fun _ _ =>
          .bind (inStep_modifyStats _) fun _ _ => .of_get (fun _ _ _ =>
            .bind (inStep_note _ _) fun _ _ => inStep_define hid _) (fun _ _ => rfl) fun _ _ => rfl)
          (fun _ _ => rfl) fun _ _ => rfl
  have regs : t'.regs.restore s₁'.regs.snapshot = t.regs.restore s₁.regs.snapshot := by
    rw [twin₁.regs, twin.regs]
  exact ⟨twin.asm, regs, twin.frame, twin.stats, covers, twin₁.held,
    twin.assembled⟩

/-! ## Functions -/

theorem inStep_lowerImmediate (hid : Known id) (value : Literal) (ty : ScalarType) :
    InStep (Twin Known I) Whatever (lowerImmediate id value ty) (lowerImmediate id value ty) := by
  have owned : RegisterFile.Admissible Known (.value id) := RegisterFile.admissible_value hid
  cases value with
  | int v =>
    exact .ite (inStep_setStorage hid _) (.bind (inStep_alloc owned _ _) fun _ _ =>
      .bind (inStep_plain (Assembler.plain_movImm _)) fun _ _ => inStep_setStorage hid _)
  | float pattern =>
    exact .bind (inStep_alloc owned _ _) fun _ _ => .ite
      (.bind (inStep_plain Assembler.plain_xorps) fun _ _ => inStep_setStorage hid _)
      (.bind (inStep_plain (Assembler.plain_movImm _)) fun _ _ =>
        .bind (inStep_plain (Assembler.plain_movBits _)) fun _ _ => inStep_setStorage hid _)

theorem inStep_lowerNode (kin : ctx.Kindred Known ctx')
    (h : ∀ x, Known x → InStep (Twin Known I) Whatever (gen x) (gen' x)) (hid : Known id)
    {n : Node} (operands : ∀ x ∈ n.operands, Known x) :
    InStep (Twin Known I) Whatever (lowerNode ctx gen id n) (lowerNode ctx' gen' id n) := by
  obtain ⟨kind, ty⟩ := n
  have pair {a b : NodeId} (h : ∀ x ∈ [a, b], Known x) : Known a ∧ Known b :=
    ⟨h a (List.mem_cons_self ..), h b (List.mem_cons_of_mem _ (List.mem_cons_self ..))⟩
  cases kind with
  | immediate value => exact inStep_lowerImmediate hid ..
  | parameter index => exact .of_throw not_false
  | arith op lhs rhs =>
    obtain ⟨hl, hr⟩ := pair operands
    exact inStep_lowerArith kin h hid _ hl hr _
  | logic op lhs rhs =>
    obtain ⟨hl, hr⟩ := pair operands
    exact inStep_lowerLogic kin h hid _ hl hr _
  | compare pred lhs rhs =>
    obtain ⟨hl, hr⟩ := pair operands
    exact inStep_lowerCompare kin h hid _ hl hr
  | select cond thenValue elseValue =>
    obtain ⟨hc, arms⟩ := List.forall_mem_cons.1 operands
    obtain ⟨ha, hb⟩ := pair arms
    exact inStep_lowerSelect kin h hid hc ha hb _
  | field base offset =>
    exact inStep_lowerField kin h hid (operands base (List.mem_cons_self ..)) _ _
  | element base index =>
    obtain ⟨hb, hi⟩ := pair operands
    exact inStep_lowerElement kin h hid hb hi _
  | call target args => exact inStep_lowerCall kin h hid _ operands _
  | cast value => exact inStep_lowerCast kin h hid (operands value (List.mem_cons_self ..)) _

theorem inStep_gen (kin : ctx.Kindred Known ctx') (depth : Nat) (hid : Known id) :
    InStep (Twin Known I) Whatever (Lowering.gen ctx depth id) (Lowering.gen ctx' depth id) := by
  induction depth generalizing id with
  | zero => exact .of_throw not_false
  | succ depth ih =>
    have answered : InStep (Twin Known I) Whatever (noteTables (.answered id))
        (noteTables (.answered id)) := inStep_noteTables _
    exact .bind (inStep_noteTables _) fun _ _ => .bind (inStep_assignment _) fun _ _ =>
      .ite answered (.bind (inStep_node kin hid) fun _ hn =>
        .bind (inStep_lowerNode kin (fun _ => ih) hid (kin.operands hid hn)) fun _ _ =>
          .bind (inStep_note _ _) fun _ _ => .bind (inStep_modifyStats _) fun _ _ => answered)

section

variable [Assembler.Steady I]
omit [Assembler.Invariant I]

theorem inStep_bindInPlace {p : Incoming} (hp : Known p.id) :
    InStep (Twin Known I) Whatever (bindInPlace p) (bindInPlace p) := by
  unfold bindInPlace
  split
  · refine .of_get (fun s s' twin => ?_) (fun _ _ => rfl) fun _ _ => rfl
    rw [twin.regs]
    exact .ite (.bind (inStep_take (RegisterFile.admissible_value hp)) fun _ _ =>
      .bind (inStep_setStorage hp _) fun _ _ => inStep_normalize _ _) .nothing
  · exact .bind (inStep_modifyFrame fun f => { f with usesStackParams := true }) fun _ _ =>
      .ite (inStep_setStorage hp _) .nothing

theorem inStep_bindMoved {p : Incoming} (hp : Known p.id) :
    InStep (Twin Known I) Whatever (bindMoved p) (bindMoved p) := by
  unfold bindMoved
  split
  · refine .of_get (fun s s' twin => ?_) (fun _ _ => rfl) fun _ _ => rfl
    rw [twin.regs]
    exact .ite .nothing (.bind (inStep_alloc (RegisterFile.admissible_value hp) _ _) fun _ _ =>
      .bind (inStep_copyTo _ _ _) fun _ _ => .bind (inStep_normalize _ _) fun _ _ =>
        inStep_setStorage hp _)
  · exact .nothing

theorem inStep_bindNarrow {p : Incoming} (hp : Known p.id) :
    InStep (Twin Known I) Whatever (bindNarrow p) (bindNarrow p) := by
  unfold bindNarrow
  split
  · exact .bind (inStep_alloc (RegisterFile.admissible_value hp) _ _) fun _ _ =>
      .bind (inStep_plain (Assembler.plain_load _)) fun _ _ => inStep_setStorage hp _
  · exact .nothing

theorem inStep_bindParameters (kin : ctx.Kindred Known ctx') :
    InStep (Twin Known I) Whatever (bindParameters ctx) (bindParameters ctx') := by
  refine .of_get (fun s s' twin => ?_) (fun _ _ => rfl) fun _ _ => rfl
  obtain ⟨same, known⟩ := kin.incoming twin.values
  dsimp only
  rw [same]
  exact .bind (.forM fun p hp => inStep_bindInPlace (known p hp)) fun _ _ =>
    .bind (.forM fun p hp => inStep_bindMoved (known p hp)) fun _ _ =>
      .forM fun p hp => inStep_bindNarrow (known p hp)

end

theorem inStep_lowerReturn (kin : ctx.Kindred Known ctx') (hr : Known ctx.root) :
    InStep (Twin Known I) Whatever (lowerReturn ctx) (lowerReturn ctx') := by
  unfold lowerReturn
  rw [kin.root]
  exact .bind (inStep_typeOf kin hr) fun _ _ => .bind (inStep_operand _) fun _ _ =>
    .bind (inStep_copyTo _ _ _) fun _ _ => inStep_consume hr

theorem inStep_lowerBody (kin : ctx.Kindred Known ctx') (hr : Known ctx.root) :
    InStep (Twin Known I) Whatever (lowerBody ctx) (lowerBody ctx') := by
  unfold lowerBody
  rw [kin.root]
  exact .bind (inStep_bindParameters kin) fun _ _ => .bind (inStep_gen kin _ hr) fun _ _ =>
    inStep_lowerReturn kin hr

end Lowering

end NativeExpr
