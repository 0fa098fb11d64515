import NativeExpr.Graph.Uses
import NativeExpr.Lowering.Arithmetic

/-!
# Conditionals

Only the selected arm of a conditional runs, so a node that is needed outside
the arm must not be generated in it. Before the branch the uses that come from
inside each arm are counted; nodes that are reached from an arm and have other
uses as well are generated ahead of the branch. Both arms start from one state,
leave their result in one register, and reload the values they spilled, so they
meet in one state. A comparison that only the condition reads becomes part of
the branch.
-/
namespace NativeExpr.Lowering

open NativeExpr X64

variable (ctx : Context) (gen : NodeId → Lower Unit)

/-- Reads still to come of a value that is not generated yet; none for others. -/
def remainingUses (values : ValueTable) (id : NodeId) : Nat :=
  let a := values.entry id
  if a.isGenerated then 0 else a.usesLeft

/-- Whether a node is reached from the arm whose internal uses are counted and
is needed outside it too. -/
def isShared (remaining : NodeId → Nat) (uses : Array Nat) (id : NodeId) : Bool :=
  let internal := uses.getD id 0
  0 < internal && internal < remaining id

/-- The nodes to be generated ahead of a branch between two arms, in order, given
the reads still to come of every node that is not generated yet. -/
def sharedNodes (g : Graph) (remaining : NodeId → Nat) (thenValue elseValue : NodeId) :
    List NodeId :=
  let thenUses := g.armUses remaining thenValue
  let elseUses := g.armUses remaining elseValue
  (List.range g.size).filter fun id =>
    isShared remaining thenUses id || isShared remaining elseUses id

/-- How the branch gets its condition. -/
inductive Branch
  /-- From a comparison made by the branch itself. -/
  | fused (cond : NodeId) (pred : Predicate) (lhs rhs : NodeId)
  /-- From a truth value. -/
  | test (cond : NodeId)

/-- The comparison that a branch can make itself: one read by nothing else and
decided by one condition. -/
def fusible? (cond : NodeId) : Lower (Option (Predicate × NodeId × NodeId)) := do
  let a ← assignment cond
  if ctx.fuse && !a.isGenerated && a.usesLeft == 1 then
    let n ← ctx.graph.node cond
    match n.kind with
    | .compare pred lhs rhs => do
      let ty ← ctx.graph.typeOf lhs
      return if isSingleCondition pred ty then some (pred, lhs, rhs) else none
    | _ => return none
  else return none

/-- Generates what the branch reads. -/
def prepareBranch (cond : NodeId) : Lower Branch := do
  match ← fusible? ctx cond with
  | some (pred, lhs, rhs) => do
    gen lhs
    gen rhs
    return .fused cond pred lhs rhs
  | none => do
    gen cond
    return .test cond

def emitBranchCondition : Branch → Lower Condition
  | .fused cond pred lhs rhs => do
    let holds ← emitComparison ctx pred lhs rhs
    consume lhs
    consume rhs
    removeUse cond
    note (.fused cond)
    modifyStats fun s => { s with fused := s.fused + 1 }
    return holds.invert
  | .test cond => do
    let r ← generalRegister cond
    emit (Assembler.test r r)
    consume cond
    return .e

/-- Reloads a value into the register it had before the branch, if the arm
spilled it and it is still to be read. -/
def reload (saved : Assignment) (id : NodeId) : Lower Unit := do
  let current ← assignment id
  match saved.register?, current.storage with
  | some r, some (.stack slot) =>
    if current.usesLeft = 0 then return
    onRegs (RegisterFile.take r (.value id))
    match r.regClass with
    | .float => emit (Assembler.movFloat .double r (.mem (.frame slot)))
    | .general => emit (Assembler.load none r (.frame slot))
    setStorage id (.register r)
  | _, _ => return

/-- Generates one arm into the result register and returns every other value to
its place before the branch. -/
def lowerArm (arm : NodeId) (result : Reg) (ty : ScalarType) (before : ValueTable) :
    Lower Unit := do
  gen arm
  let src ← operand arm
  copyTo result ty src
  consume arm
  onRegs (RegisterFile.take result .temp)
  (List.range before.size).forM fun id => reload (before.entry id) id

/-- Combines the reads that the two arms left of a value: those before the
branch less what either arm read. A value that died in the first arm only is
released. -/
def mergeUses (before : ValueTable) (thenUses : Array Nat) (id : NodeId) : Lower Unit := do
  let saved := (before.entry id).usesLeft
  let thenLeft := thenUses.getD id 0
  let current ← assignment id
  if thenLeft = saved then return
  note (.merged id saved thenLeft current.usesLeft)
  let merged := thenLeft + current.usesLeft - saved
  modifyValues fun t => t.update id fun a => { a with usesLeft := merged }
  if merged = 0 ∧ 0 < current.usesLeft then
    match current.register? with
    | some r => if (← owner r) = some (.value id) then onRegs (RegisterFile.free r)
    | none => return

def lowerSelect (id cond thenValue elseValue : NodeId) (ty : ScalarType) : Lower Unit := do
  let start ← mark
  let shared := sharedNodes ctx.graph (remainingUses start.tables.values) thenValue elseValue
  shared.forM gen
  modifyStats fun s => { s with hoisted := s.hoisted + shared.length }
  let branch ← prepareBranch ctx gen cond
  let result ← allocResult ctx id ty.regClass
  onRegs (RegisterFile.free result)
  let toElse ← emitBranchCondition ctx branch
  let fork ← mark
  let occupancy := fork.tables.regs.snapshot
  let before := fork.tables.values
  let elseLabel ← emit Assembler.createLabel
  let joinLabel ← emit Assembler.createLabel
  emit (Assembler.jumpIf toElse elseLabel)
  note (.forked id start fork)
  lowerArm gen thenValue result ty before
  let thenEnd ← mark
  let thenUses := thenEnd.tables.values.useCounts
  emit (Assembler.jump joinLabel)
  modify fun s => { s with regs := s.regs.restore occupancy, values := before }
  emit (Assembler.bindLabel elseLabel)
  lowerArm gen elseValue result ty before
  let elseEnd ← mark
  emit (Assembler.bindLabel joinLabel)
  (List.range before.size).forM (mergeUses before thenUses)
  modifyStats fun s => { s with conditionals := s.conditionals + 1 }
  note (.joined id ⟨result, fork, thenEnd, elseEnd, ← mark⟩)
  define id result

end NativeExpr.Lowering
