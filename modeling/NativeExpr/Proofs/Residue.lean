import NativeExpr.Proofs.Assembling
import NativeExpr.Proofs.Encoding

/-!
# What failed calls leave behind

Calls of the assembler come in any order and some of them fail. A call that fails appends nothing.
If it fails before it encodes an instruction, over the class or the number of a register, a label
or raw code without room, the calls after it go as if it had never been made, and so they do
if an instruction finds no room and none has been refused before. What was written of an instruction
that is refused for its index stays: the next instruction is appended with it in front.
-/
namespace NativeExpr.X64.Assembler

open NativeExpr

/-! ## Calls -/

/-- What the assembler can be asked to encode. -/
inductive Operation
  | movImm (dst : Reg) (value : Word)
  | mov (dst : Reg) (src : Operand)
  | store (m : Mem) (src : Reg)
  | storeImm (m : Mem) (value : BitVec 32)
  | extend (kind : Extension) (dst src : Reg)
  | load (kind : Option Extension) (dst : Reg) (m : Mem)
  | alu (op : AluOp) (dst : Reg) (src : Operand)
  | imul (dst : Reg) (src : Operand)
  | div (signed : Bool) (src : Operand)
  | cqo
  | shiftCl (op : ShiftOp) (dst : Reg)
  | shiftImm (op : ShiftOp) (dst : Reg) (count : Nat)
  | test (a b : Reg)
  | setcc (cond : Condition) (dst : Reg)
  | and8 (dst src : Reg)
  | or8 (dst src : Reg)
  | floatOp (op : FloatOp) (p : Precision) (dst : Reg) (src : Operand)
  | ucomis (p : Precision) (a : Reg) (b : Operand)
  | movFloat (p : Precision) (dst : Reg) (src : Operand)
  | storeFloat (m : Mem) (src : Reg)
  | xorps (dst : Reg)
  | movBits (p : Precision) (dst src : Reg)
  | intToFloat (p : Precision) (dst : Reg) (src : Operand)
  | floatToInt (p : Precision) (dst : Reg) (src : Operand)
  | convertFloat (p : Precision) (dst : Reg) (src : Operand)
  | push (r : Reg)
  | pop (r : Reg)
  | ret
  | callReg (target : Reg)
  deriving DecidableEq, Repr

/-- A call of the assembler. -/
inductive Request
  | encode (op : Operation)
  | createLabel
  | bindLabel (label : Nat)
  | jump (label : Nat)
  | jumpIf (cond : Condition) (label : Nat)
  | emitRaw (bytes : List Byte)
  deriving DecidableEq, Repr

def Operation.perform : Operation → Asm Unit
  | movImm dst value => Assembler.movImm dst value
  | mov dst src => Assembler.mov dst src
  | store m src => Assembler.store m src
  | storeImm m value => Assembler.storeImm m value
  | extend kind dst src => Assembler.extend kind dst src
  | load kind dst m => Assembler.load kind dst m
  | alu op dst src => Assembler.alu op dst src
  | imul dst src => Assembler.imul dst src
  | div signed src => Assembler.div signed src
  | cqo => Assembler.cqo
  | shiftCl op dst => Assembler.shiftCl op dst
  | shiftImm op dst count => Assembler.shiftImm op dst count
  | test a b => Assembler.test a b
  | setcc cond dst => Assembler.setcc cond dst
  | and8 dst src => Assembler.and8 dst src
  | or8 dst src => Assembler.or8 dst src
  | floatOp op p dst src => Assembler.floatOp op p dst src
  | ucomis p a b => Assembler.ucomis p a b
  | movFloat p dst src => Assembler.movFloat p dst src
  | storeFloat m src => Assembler.storeFloat m src
  | xorps dst => Assembler.xorps dst
  | movBits p dst src => Assembler.movBits p dst src
  | intToFloat p dst src => Assembler.intToFloat p dst src
  | floatToInt p dst src => Assembler.floatToInt p dst src
  | convertFloat p dst src => Assembler.convertFloat p dst src
  | push r => Assembler.push r
  | pop r => Assembler.pop r
  | ret => Assembler.ret
  | callReg target => Assembler.callReg target

/-- Makes a call. Only a new label has a number to answer with. -/
def Request.perform : Request → Asm (Option Nat)
  | encode op => do
    op.perform
    return none
  | createLabel => some <$> Assembler.createLabel
  | bindLabel label => do
    Assembler.bindLabel label
    return none
  | jump label => do
    Assembler.jump label
    return none
  | jumpIf cond label => do
    Assembler.jumpIf cond label
    return none
  | emitRaw bytes => do
    Assembler.emitRaw bytes
    return none

/-- Whether all registers and operands of a call are fine, and it comes to encoding an
instruction. -/
def Request.Encodes (q : Request) (i : Instruction) : Prop :=
  q.perform = do
    emit i
    return none

/-- Whether a call does not come to encoding an instruction. -/
def Request.Quiet (q : Request) : Prop := ∀ i, ¬ q.Encodes i

/-- Whether a call comes to encoding an instruction that is refused for its index. -/
def Request.Refused (q : Request) : Prop := ∃ i, q.Encodes i ∧ i.refused? ≠ none

def answer (a : Assembler) (q : Request) : Except CompileError (Option Nat) :=
  match q.perform a with
  | .ok x _ => .ok x
  | .error e _ => .error e

/-- The assembler after a call, whether it succeeds or fails. -/
def after (a : Assembler) (q : Request) : Assembler :=
  match q.perform a with
  | .ok _ a' => a'
  | .error _ a' => a'

def run (a : Assembler) (qs : List Request) : Assembler := qs.foldl after a

def appended (a : Assembler) (q : Request) : List Byte :=
  (a.after q).buffer.bytes.toList.drop a.size

/-- What the calls answer and append, one after the other. -/
def transcript (a : Assembler) : List Request → List (Except CompileError (Option Nat) × List Byte)
  | [] => []
  | q :: qs => (a.answer q, a.appended q) :: (a.after q).transcript qs

variable {a b : Assembler} {q : Request} {qs : List Request} {i : Instruction} {e : CompileError}

/-! ## One call -/

/-- An operation of the code buffer that succeeds only appends, and one that fails does not change
the buffer. -/
def Appends {α : Type} (m : CodeBuffer.Emit α) : Prop :=
  ∀ b, Yields m b (fun _ b' => ∃ bytes, b'.bytes.toList = b.bytes.toList ++ bytes)
    fun _ b' => b' = b

theorem appends_emit (bytes : List Byte) : Appends (CodeBuffer.emit bytes) := by
  intro b
  unfold Yields CodeBuffer.emit
  by_cases full : b.capacity < b.size + bytes.length
  · simp [full]
  · simp only [if_neg full]
    exact ⟨bytes, b.toList_append bytes⟩

theorem appends_createLabel : Appends CodeBuffer.createLabel :=
  fun _ => ⟨[], (List.append_nil _).symm⟩

theorem appends_bindLabel (label : Nat) : Appends (CodeBuffer.bindLabel label) := by
  intro b
  unfold Yields CodeBuffer.bindLabel
  by_cases twice : b.isBound label = true
  · simp [twice]
  · by_cases known : label < b.labels.size
    · simp [twice, known]
    · simp [twice, known]

theorem appends_emitBranch (opcode : List Byte) (label : Nat) :
    Appends (CodeBuffer.emitBranch opcode label) :=
  fun b => .seq (appends_emit _ b) fun _ _ h => .of_modify h

theorem Appends.map {α β : Type} {m : CodeBuffer.Emit α} (h : Appends m) (f : α → β) :
    Appends (do return f (← m)) := fun b => .seq (h b) fun _ _ more => .of_pure more

/-- An operation of the code buffer, with so many instructions counted before it. -/
def counting {α : Type} (n : Nat) (m : CodeBuffer.Emit α) : Asm α :=
  fun a => onBuffer m { a with count := a.count + n }

theorem counting_map {α β : Type} (n : Nat) (m : CodeBuffer.Emit α) (f : α → β) :
    (do return f (← counting n m)) = counting n (do return f (← m)) := by
  funext a
  show EStateM.bind _ _ a = onBuffer (EStateM.bind m fun x => pure (f x)) _
  cases h : m a.buffer with
  | ok x buffer =>
    simp only [counting, onBuffer, EStateM.bind, h]
    rfl
  | error e buffer => simp only [counting, onBuffer, EStateM.bind, h]

theorem plain_perform (op : Operation) : Plain op.perform := by
  cases op with
  | movImm dst value => exact plain_movImm value
  | mov dst src => exact plain_mov
  | store m src => exact plain_store
  | storeImm m value => exact plain_storeImm value
  | extend kind dst src => exact plain_extend kind
  | load kind dst m => exact plain_load kind
  | alu op dst src => exact plain_alu op
  | imul dst src => exact plain_imul
  | div signed src => exact plain_div signed
  | cqo => exact plain_cqo
  | shiftCl op dst => exact plain_shiftCl op
  | shiftImm op dst count => exact plain_shiftImm op count
  | test a b => exact plain_test
  | setcc cond dst => exact plain_setcc cond
  | and8 dst src => exact plain_and8
  | or8 dst src => exact plain_or8
  | floatOp op p dst src => exact plain_floatOp op p
  | ucomis p a b => exact plain_ucomis p
  | movFloat p dst src => exact plain_movFloat p
  | storeFloat m src => exact plain_storeFloat
  | xorps dst => exact plain_xorps
  | movBits p dst src => exact plain_movBits p
  | intToFloat p dst src => exact plain_intToFloat p
  | floatToInt p dst src => exact plain_floatToInt p
  | convertFloat p dst src => exact plain_convertFloat p
  | push r => exact plain_push
  | pop r => exact plain_pop
  | ret => exact .emit (i := .ret) rfl
  | callReg target => exact plain_callReg

/-- An operation of the code buffer is all there is to a call, or the call comes to encoding an
instruction. -/
theorem Request.counting_or_encodes (q : Request) :
    (∃ (m : CodeBuffer.Emit (Option Nat)) (n : Nat), Appends m ∧ q.perform = counting n m) ∨
      ∃ i, q.Encodes i := by
  have mapped {α : Type} {m : CodeBuffer.Emit α} (appends : Appends m) (n : Nat)
      (f : α → Option Nat) : ∃ (m' : CodeBuffer.Emit (Option Nat)) (n' : Nat), Appends m' ∧
        (do return f (← counting n m)) = counting n' m' :=
    ⟨_, n, appends.map f, counting_map n m f⟩
  cases q with
  | encode op =>
    have plain := plain_perform op
    simp only [Encodes, perform]
    generalize op.perform = m at plain
    cases plain with
    | @refuse e => exact .inl ⟨throw e, 0, fun _ => rfl, rfl⟩
    | nothing => exact .inl ⟨pure none, 0, fun _ => ⟨[], (List.append_nil _).symm⟩, rfl⟩
    | @emit i => exact .inr ⟨i, rfl⟩
  | createLabel => exact .inl (mapped appends_createLabel 0 some)
  | bindLabel label => exact .inl (mapped (appends_bindLabel label) 0 fun _ => none)
  | jump label => exact .inl (mapped (appends_emitBranch _ label) 1 fun _ => none)
  | jumpIf cond label => exact .inl (mapped (appends_emitBranch _ label) 1 fun _ => none)
  | emitRaw bytes => exact .inl (mapped (appends_emit bytes) 0 fun _ => none)

/-- What was written of an instruction that is refused is kept. -/
theorem Request.Encodes.refused (encodes : q.Encodes i) {position : Nat}
    (refused : i.refused? = some position) (a : Assembler) :
    q.perform a = .error (.encoding (.stackPointerIndex position))
      { a with residue := a.residue ++ i.refusedBytes } := by
  rw [encodes]
  unfold emit
  rw [refused]
  rfl

/-- What was kept goes out in front of the next instruction, or is lost with it. -/
theorem Request.Encodes.encoded (encodes : q.Encodes i) (valid : i.refused? = none)
    (a : Assembler) :
    q.perform a =
      if a.buffer.capacity < a.size + (a.residue ++ i.encode).length then
        .error (.bufferOverflow (a.size + (a.residue ++ i.encode).length) a.buffer.capacity)
          { a with residue := [], count := a.count + 1 }
      else .ok none (a.withInstruction i) := by
  have emitted : emit i a = onBuffer (CodeBuffer.emit (a.residue ++ i.encode))
      ⟨a.buffer, [], a.count + 1⟩ := by
    unfold emit
    rw [valid]
    rfl
  rw [encodes]
  show EStateM.bind (emit i) (fun _ => pure none) a = _
  by_cases full : a.buffer.capacity < a.size + (a.residue ++ i.encode).length
  · rw [EStateM.bind, emitted, onBuffer_error (if_pos full), if_pos full]
    rfl
  · rw [EStateM.bind, emitted, onBuffer_ok (if_neg full), if_neg full]
    rfl

/-! ## Answers and what is left -/

theorem perform_eq (a : Assembler) (q : Request) :
    q.perform a =
      match a.answer q with
      | .ok x => .ok x (a.after q)
      | .error e => .error e (a.after q) := by
  unfold answer after
  cases q.perform a with
  | ok x a' => rfl
  | error e a' => rfl

/-- A call only appends, and a call that fails does not change the buffer. -/
theorem yields_perform (q : Request) (a : Assembler) :
    Yields q.perform a
      (fun _ a' => ∃ bytes, a'.buffer.bytes.toList = a.buffer.bytes.toList ++ bytes)
      fun _ a' => a'.buffer = a.buffer := by
  rcases q.counting_or_encodes with ⟨m, n, appends, performed⟩ | ⟨i, encodes⟩
  · have appended := appends a.buffer
    rw [performed]
    unfold Yields at appended ⊢
    unfold counting onBuffer
    dsimp only
    cases ran : m a.buffer with
    | ok x buffer => rwa [ran] at appended
    | error e' buffer => rwa [ran] at appended
  · unfold Yields
    cases valid : i.refused? with
    | some position => rw [encodes.refused valid]
    | none =>
      by_cases full : a.buffer.capacity < a.size + (a.residue ++ i.encode).length
      · rw [encodes.encoded valid, if_pos full]
      · rw [encodes.encoded valid, if_neg full]
        exact ⟨_, a.buffer.toList_append _⟩

theorem buffer_of_failure (failed : a.answer q = .error e) : (a.after q).buffer = a.buffer := by
  have performed := perform_eq a q
  rw [failed] at performed
  exact (yields_perform q a).error performed

theorem appended_eq {bytes : List Byte}
    (h : (a.after q).buffer.bytes.toList = a.buffer.bytes.toList ++ bytes) :
    a.appended q = bytes := by
  unfold appended
  rw [h]
  exact List.drop_left' Array.length_toList

theorem toList_after (a : Assembler) (q : Request) :
    (a.after q).buffer.bytes.toList = a.buffer.bytes.toList ++ a.appended q := by
  cases answered : a.answer q with
  | ok x =>
    have performed := perform_eq a q
    rw [answered] at performed
    obtain ⟨bytes, more⟩ := (yields_perform q a).ok performed
    rw [more, appended_eq more]
  | error e =>
    have more : (a.after q).buffer.bytes.toList = a.buffer.bytes.toList ++ [] := by
      rw [buffer_of_failure answered, List.append_nil]
    rw [more, appended_eq more]

/-- The code is what the calls appended, in their order. -/
theorem toList_run (a : Assembler) (qs : List Request) :
    (a.run qs).buffer.bytes.toList =
      a.buffer.bytes.toList ++ (a.transcript qs).flatMap Prod.snd := by
  induction qs generalizing a with
  | nil => simp [run, transcript]
  | cons q qs ih =>
    show ((a.after q).run qs).buffer.bytes.toList = _
    rw [ih, toList_after, transcript, List.flatMap_cons, List.append_assoc]

/-! ## Two assemblers side by side -/

/-- Two results with the same answer, and related states. -/
inductive Agree (R : Assembler → Assembler → Prop) :
    EStateM.Result CompileError Assembler (Option Nat) →
      EStateM.Result CompileError Assembler (Option Nat) → Prop
  | ok (x : Option Nat) {a b : Assembler} (related : R a b) : Agree R (.ok x a) (.ok x b)
  | error (e : CompileError) {a b : Assembler} (related : R a b) :
    Agree R (.error e a) (.error e b)

theorem Agree.after {R : Assembler → Assembler → Prop} (h : Agree R (q.perform a) (q.perform b)) :
    b.answer q = a.answer q ∧ R (a.after q) (b.after q) := by
  unfold answer Assembler.after
  generalize q.perform a = result at h ⊢
  generalize q.perform b = result' at h ⊢
  cases h with
  | ok x related => exact ⟨rfl, related⟩
  | error e related => exact ⟨rfl, related⟩

/-- Assemblers that differ at most in how many instructions they have counted. -/
structure SameCode (a b : Assembler) : Prop where
  buffer : b.buffer = a.buffer
  residue : b.residue = a.residue

theorem agree_counting {m : CodeBuffer.Emit (Option Nat)} {n : Nat} (same : b.buffer = a.buffer) :
    Agree (fun a' b' => b'.buffer = a'.buffer ∧ a'.residue = a.residue ∧ b'.residue = b.residue)
      (counting n m a) (counting n m b) := by
  unfold counting onBuffer
  dsimp only
  rw [same]
  cases m a.buffer with
  | ok x buffer => exact .ok x ⟨rfl, rfl, rfl⟩
  | error e buffer => exact .error e ⟨rfl, rfl, rfl⟩

theorem Request.Quiet.after (quiet : q.Quiet) (same : b.buffer = a.buffer) :
    b.answer q = a.answer q ∧ (b.after q).buffer = (a.after q).buffer ∧
      (a.after q).residue = a.residue ∧ (b.after q).residue = b.residue := by
  obtain ⟨m, n, -, performed⟩ := q.counting_or_encodes.resolve_right fun ⟨i, h⟩ => quiet i h
  have agree := agree_counting (n := n) (m := m) same
  rw [← performed] at agree
  exact agree.after

theorem SameCode.after (same : SameCode a b) (q : Request) :
    b.answer q = a.answer q ∧ SameCode (a.after q) (b.after q) := by
  rcases q.counting_or_encodes with ⟨m, n, -, performed⟩ | ⟨i, encodes⟩
  · have agree := agree_counting (n := n) (m := m) same.buffer
    rw [← performed] at agree
    obtain ⟨answer, buffer, before, residue⟩ := agree.after
    exact ⟨answer, buffer, by rw [residue, before, same.residue]⟩
  · apply Agree.after
    cases valid : i.refused? with
    | some position =>
      rw [encodes.refused valid, encodes.refused valid, same.residue]
      exact .error _ ⟨same.buffer, rfl⟩
    | none =>
      rw [encodes.encoded valid, encodes.encoded valid, size, size, same.buffer, same.residue]
      split
      · exact .error _ ⟨rfl, rfl⟩
      · refine .ok none ⟨?_, rfl⟩
        simp only [withInstruction, same.buffer, same.residue]

theorem appended_congr (same : b.buffer = a.buffer)
    (after : (b.after q).buffer = (a.after q).buffer) : b.appended q = a.appended q := by
  unfold appended size
  rw [same, after]

theorem SameCode.transcript (same : SameCode a b) (qs : List Request) :
    b.transcript qs = a.transcript qs := by
  induction qs generalizing a b with
  | nil => rfl
  | cons q qs ih =>
    obtain ⟨answer, next⟩ := same.after q
    simp only [Assembler.transcript]
    rw [answer, appended_congr same.buffer next.buffer, ih next]

/-- Calls that do not come to encoding see nothing of the residue. -/
theorem run_quiet (quiet : ∀ r ∈ qs, r.Quiet) (same : b.buffer = a.buffer) :
    b.transcript qs = a.transcript qs ∧ (b.run qs).buffer = (a.run qs).buffer ∧
      (a.run qs).residue = a.residue ∧ (b.run qs).residue = b.residue := by
  induction qs generalizing a b with
  | nil => exact ⟨rfl, same, rfl, rfl⟩
  | cons q qs ih =>
    obtain ⟨answer, buffer, residue, residue'⟩ := (quiet q List.mem_cons_self).after same
    obtain ⟨rest, last, keeps, keeps'⟩ := ih (fun r h => quiet r (List.mem_cons_of_mem q h)) buffer
    refine ⟨?_, last, keeps.trans residue, keeps'.trans residue'⟩
    simp only [transcript]
    rw [answer, appended_congr same buffer, rest]

/-! ## The residue -/

theorem Request.Encodes.residue (encodes : q.Encodes i) (valid : i.refused? = none) :
    (a.after q).residue = [] := by
  rw [after, encodes.encoded valid]
  by_cases full : a.buffer.capacity < a.size + (a.residue ++ i.encode).length
  · rw [if_pos full]
  · rw [if_neg full]
    rfl

theorem residue_after (accepted : ¬ q.Refused) (clean : a.residue = []) :
    (a.after q).residue = [] := by
  by_cases quiet : q.Quiet
  · exact (quiet.after (b := a) rfl).2.2.1.trans clean
  · obtain ⟨i, encodes⟩ := not_forall_not.1 quiet
    have valid : i.refused? = none := by
      by_contra refused
      exact accepted ⟨i, encodes, refused⟩
    exact encodes.residue valid

theorem residue_run (accepted : ∀ r ∈ qs, ¬ r.Refused) (clean : a.residue = []) :
    (a.run qs).residue = [] := by
  induction qs generalizing a with
  | nil => exact clean
  | cons q qs ih =>
    apply ih
    · exact fun r h => accepted r (List.mem_cons_of_mem q h)
    · exact residue_after (accepted q List.mem_cons_self) clean

/-! ## Failures -/

/-- An instruction that can be encoded is appended behind the residue. -/
theorem Request.Encodes.appended (encodes : q.Encodes i) (valid : i.refused? = none)
    (room : a.size + (a.residue ++ i.encode).length ≤ a.buffer.capacity) :
    a.answer q = .ok none ∧ a.appended q = a.residue ++ i.encode := by
  have performed := encodes.encoded valid a
  rw [if_neg (Nat.not_lt.2 room)] at performed
  constructor
  · rw [answer, performed]
  · apply appended_eq
    rw [after, performed]
    exact a.buffer.toList_append _

theorem Request.Encodes.room (encodes : q.Encodes i) (valid : i.refused? = none)
    {x : Option Nat} (done : a.answer q = .ok x) :
    a.size + (a.residue ++ i.encode).length ≤ a.buffer.capacity := by
  by_contra full
  rw [answer, encodes.encoded valid, if_pos (Nat.not_le.1 full)] at done
  cases done

theorem quiet_of_failure (failed : a.answer q = .error e) (room : ¬ e.IsOverflow)
    (index : ∀ position, e ≠ .encoding (.stackPointerIndex position)) : q.Quiet := by
  intro i encodes
  cases valid : i.refused? with
  | some position =>
    rw [answer, encodes.refused valid] at failed
    exact index position (Except.error.inj failed).symm
  | none =>
    rw [answer, encodes.encoded valid] at failed
    by_cases full : a.buffer.capacity < a.size + (a.residue ++ i.encode).length
    · rw [if_pos full] at failed
      cases failed
      exact room trivial
    · rw [if_neg full] at failed
      cases failed

theorem sameCode_of_quiet (quiet : q.Quiet) (failed : a.answer q = .error e) :
    SameCode a (a.after q) :=
  ⟨buffer_of_failure failed, (quiet.after (b := a) rfl).2.2.1⟩

/-- An instruction that finds no room takes the residue with it. -/
theorem sameCode_of_full (encodes : q.Encodes i) (valid : i.refused? = none)
    (failed : a.answer q = .error e) : SameCode { a with residue := [] } (a.after q) :=
  ⟨buffer_of_failure failed, encodes.residue valid⟩

theorem refusedBytes_ne_nil (i : Instruction) : i.refusedBytes ≠ [] := by
  intro empty
  have long := (length_encode (i.mapAddress fun a =>
    { a with base := 0, index := a.index.map fun x => (0, x.2) })).1
  rw [← Instruction.refusedBytes, empty] at long
  exact Nat.lt_irrefl 0 long

/-- Two assemblers with equal buffers append the same instruction behind different residues. -/
theorem appended_behind {j : Instruction} {r : Request} {left : List Byte}
    (encodes : r.Encodes j) (valid : j.refused? = none) (same : b.buffer = a.buffer)
    (more : b.residue = a.residue ++ left) (done : b.answer r = .ok none) :
    b.appended r = a.residue ++ left ++ j.encode ∧
      a.answer r = .ok none ∧ a.appended r = a.residue ++ j.encode := by
  have room := encodes.room valid done
  refine ⟨more ▸ (encodes.appended valid room).2, encodes.appended valid ?_⟩
  -- what fits with more in front of it fits without
  rw [more, size, same] at room
  simp only [size, List.length_append] at room ⊢
  omega

/-- A call that fails appends nothing. The calls after it go as if it had not been made if its
operands, registers or labels are at fault, if it does not come to encoding an instruction at all,
or if no instruction has been refused for its index by then. What was written of a refused one
is lost with an instruction that finds no room, and otherwise appended in front of the next. -/
theorem trace_of_failure (capacity : Nat) (earlier : List Request) (q : Request) (e : CompileError)
    (failed : ((new capacity).run earlier).answer q = .error e) :
    let a := (new capacity).run earlier
    let b := a.after q
    b.buffer = a.buffer ∧
      ((¬ e.IsOverflow ∧ ∀ position, e ≠ .encoding (.stackPointerIndex position)) ∨ q.Quiet ∨
          (∀ r ∈ q :: earlier, ¬ r.Refused) →
        ∀ later, b.transcript later = a.transcript later) ∧
      (∀ i, q.Encodes i → i.refused? = none →
        ∀ later, b.transcript later = { a with residue := [] }.transcript later) ∧
      ∀ i position, q.Encodes i → i.refused? = some position →
        e = .encoding (.stackPointerIndex position) ∧ i.refusedBytes ≠ [] ∧
          ∀ (between : List Request) (next : Request) (j : Instruction),
            (∀ r ∈ between, r.Quiet) → next.Encodes j → j.refused? = none →
            b.transcript between = a.transcript between ∧
              ((b.run between).answer next = .ok none →
                (b.run between).appended next = a.residue ++ i.refusedBytes ++ j.encode ∧
                  (a.run between).answer next = .ok none ∧
                    (a.run between).appended next = a.residue ++ j.encode) := by
  intro a b
  have buffer : b.buffer = a.buffer := buffer_of_failure failed
  refine ⟨buffer, ?_, ?_, ?_⟩
  · intro traceless later
    rcases traceless with ⟨room, index⟩ | quiet | accepted
    · exact (sameCode_of_quiet (quiet_of_failure failed room index) failed).transcript later
    · exact (sameCode_of_quiet quiet failed).transcript later
    -- with nothing refused so far there is no residue that the call could take along
    · have clean : a.residue = [] :=
        residue_run (fun r h => accepted r (List.mem_cons_of_mem q h)) rfl
      exact SameCode.transcript
        ⟨buffer, (residue_after (accepted q List.mem_cons_self) clean).trans clean.symm⟩ later
  · intro i encodes valid later
    exact (sameCode_of_full encodes valid failed).transcript later
  · intro i position encodes refused
    have performed := encodes.refused refused a
    have residue : b.residue = a.residue ++ i.refusedBytes := by
      show (a.after q).residue = _
      rw [after, performed]
    rw [answer, performed] at failed
    refine ⟨(Except.error.inj failed).symm, refusedBytes_ne_nil i, ?_⟩
    intro between next j quiet encodes' valid
    obtain ⟨transcripts, buffers, keeps, keeps'⟩ := run_quiet quiet buffer
    refine ⟨transcripts, fun done => ?_⟩
    rw [← keeps]
    exact appended_behind encodes' valid buffers (by rw [keeps', keeps, residue]) done

def stackIndexed : Request := .encode (.load none (.gp 0) (.indexed (.gp 1) (.gp 4) .one 0))

theorem trace_of_failure_stackIndexed :
    (new 64).answer stackIndexed = .error (.encoding (.stackPointerIndex 1)) ∧
      ((new 64).after stackIndexed).answer (.encode .ret) = .ok none ∧
      ((new 64).after stackIndexed).appended (.encode .ret) =
        (Instruction.mov 0 (.mem ⟨1, some (4, .one), 0⟩)).refusedBytes ++ Instruction.ret.encode ∧
      (new 64).appended (.encode .ret) = Instruction.ret.encode := by
  have failed : ((new 64).run []).answer stackIndexed =
      .error (.encoding (.stackPointerIndex 1)) := rfl
  have done : (((new 64).after stackIndexed).run []).answer (.encode .ret) = .ok none := rfl
  obtain ⟨-, -, -, refused⟩ := trace_of_failure 64 [] stackIndexed _ failed
  obtain ⟨-, -, next⟩ := refused (.mov 0 (.mem ⟨1, some (4, .one), 0⟩)) 1 rfl rfl
  obtain ⟨-, behind⟩ := next [] (.encode .ret) .ret (List.forall_mem_nil _) rfl rfl
  obtain ⟨leaked, -, direct⟩ := behind done
  exact ⟨failed, done, leaked, direct⟩

/-- A return goes out behind five bytes of a load that was refused before. -/
theorem not_traceless :
    (new 64).answer stackIndexed = .error (.encoding (.stackPointerIndex 1)) ∧
      ((new 64).after stackIndexed).transcript [.encode .ret] =
        [(.ok none, [0x48, 0x8B, 0x44, 0x00, 0x00, 0xC3])] ∧
      (new 64).transcript [.encode .ret] = [(.ok none, [0xC3])] := ⟨rfl, rfl, rfl⟩

end NativeExpr.X64.Assembler
