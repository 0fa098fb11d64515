import NativeExpr.Lowering.Call
import NativeExpr.Lowering.Cast
import NativeExpr.Lowering.Conditional
import NativeExpr.Lowering.Memory
import NativeExpr.Options

/-!
# Generating functions

Generation is driven by demand: each node is generated once, after its operands,
starting from the root. Reads are counted before anything is emitted, and the
parameters that are read are bound to places that hold their canonical values.
-/
namespace NativeExpr.Lowering

open NativeExpr X64

/-- Constants that fit an instruction stay there; others go to a register. -/
def lowerImmediate (id : NodeId) (value : Literal) (ty : ScalarType) : Lower Unit :=
  match value with
  | .int v =>
    if (v.setWidth 32).signExtend 64 = v then setStorage id (.immediate v)
    else do
      let r ← alloc .general (.value id) none
      emit (Assembler.movImm r v)
      setStorage id (.register r)
  | .float pattern => do
    let r ← alloc .float (.value id) none
    let bits := (Value.ofDouble ty pattern).bits
    if bits = 0 then emit (Assembler.xorps r)
    else
      emit (Assembler.movImm .scratch bits)
      emit (Assembler.movBits (if ty = .f32 then .single else .double) r .scratch)
    setStorage id (.register r)

def lowerNode (ctx : Context) (gen : NodeId → Lower Unit) (id : NodeId) (n : Node) : Lower Unit :=
  match n.kind with
  | .immediate value => lowerImmediate id value n.ty
  | .parameter index => throw (.registerAllocation (.unboundParameter index))
  | .arith op lhs rhs => lowerArith ctx gen id op lhs rhs n.ty
  | .logic op lhs rhs => lowerLogic ctx gen id op lhs rhs n.ty
  | .compare pred lhs rhs => lowerCompare ctx gen id pred lhs rhs
  | .select cond thenValue elseValue => lowerSelect ctx gen id cond thenValue elseValue n.ty
  | .field base offset => lowerField ctx gen id base offset n.ty
  | .element base index => lowerElement ctx gen id base index n.ty
  | .call target args => lowerCall ctx gen id target args n.ty
  | .cast value => lowerCast ctx gen id value n.ty

/-- Generates a node, unless it has a value, whose operands are nested at most
`depth` deep. -/
def gen (ctx : Context) : Nat → NodeId → Lower Unit
  | 0, id => throw (.unknownNode id)
  | depth + 1, id => do
    noteTables (.entered id)
    unless (← assignment id).isGenerated do
      let n ← ctx.graph.node id
      lowerNode ctx (gen ctx depth) id n
      note (.generated id)
      modifyStats fun s => { s with nodes := s.nodes + 1 }
    noteTables (.answered id)

/-! ## Parameters -/

/-- A parameter that is read, with its type and where it comes in. -/
structure Incoming where
  id : NodeId
  ty : ScalarType
  location : ArgLocation
  deriving DecidableEq, Repr

def incoming (g : Graph) (values : ValueTable) : List Incoming :=
  let types := g.paramTypes
  let locations := Convention.argLocations (types.map ScalarType.regClass)
  let all := (g.params.zip (types.zip locations)).map fun (id, ty, location) =>
    Incoming.mk id ty location
  all.filter fun p => !(values.entry p.id).isDead

/-- Offset of a stack argument from the frame pointer: behind the saved frame
pointer and the return address. -/
def stackArgOffset (offset : Nat) : Int := 16 + offset

def bindInPlace (p : Incoming) : Lower Unit := do
  match p.location with
  | .register r =>
    if (← get).regs.isAllocatable r then
      onRegs (RegisterFile.take r (.value p.id))
      setStorage p.id (.register r)
      normalize r p.ty
  | .stack offset =>
    modify fun s => { s with frame.usesStackParams := true }
    if (extension p.ty).isNone then setStorage p.id (.stack (stackArgOffset offset))

/-- Moves a parameter out of a register that is never handed out. -/
def bindMoved (p : Incoming) : Lower Unit := do
  match p.location with
  | .register src =>
    if (← get).regs.isAllocatable src then return
    let r ← alloc p.ty.regClass (.value p.id) none
    copyTo r p.ty (.reg src)
    normalize r p.ty
    setStorage p.id (.register r)
  | .stack _ => return

def bindNarrow (p : Incoming) : Lower Unit := do
  match p.location, extension p.ty with
  | .stack offset, some kind => do
    let r ← alloc .general (.value p.id) none
    emit (Assembler.load (some kind) r (.frame (stackArgOffset offset)))
    setStorage p.id (.register r)
  | _, _ => return

/-- Gives every parameter that is read its place. Registers are claimed before
anything moves, so no incoming value is overwritten. -/
def bindParameters (ctx : Context) : Lower Unit := do
  let params := incoming ctx.graph (← get).values
  params.forM bindInPlace
  params.forM bindMoved
  params.forM bindNarrow

/-! ## Whole functions -/

def lowerReturn (ctx : Context) : Lower Unit := do
  let ty ← ctx.graph.typeOf ctx.root
  let src ← operand ctx.root
  copyTo (Convention.returnReg ty.regClass) ty src
  consume ctx.root

def lowerBody (ctx : Context) : Lower Unit := do
  bindParameters ctx
  gen ctx (ctx.root + 1) ctx.root
  lowerReturn ctx

def State.initial (g : Graph) (root : NodeId) (o : Options) : State where
  asm := .new o.codeCapacity
  regs := .new (Convention.generalOrder.take o.maxGeneral) (Convention.floatOrder.take o.maxFloat)
  values := (g.reachableUses root).map fun n => ⟨none, n, none⟩
  frame := .empty
  stats := .zero
  journal := []

/-- The registers a function has to save: those it used of the ones its caller keeps. -/
def State.finalFrame (s : State) : Frame :=
  (s.regs.touchedAmong Convention.calleeSaved).foldl Frame.save s.frame

end Lowering

/-- A function and the counters of its generation. -/
structure Generated where
  image : FunctionImage
  stats : CodeStats
  deriving DecidableEq, Repr

namespace Graph

open Lowering

/-- Machine code for a function that takes the parameters of the graph and
returns the value of `root`. -/
def generate (g : Graph) (root : NodeId) (o : Options) : Except CompileError Generated := do
  let _ ← g.node root
  match lowerBody ⟨g, root, o.fuseCompares⟩ (.initial g root o) with
  | .error e _ => throw e
  | .ok () s =>
    let body ← s.asm.finalize
    let image ← s.finalFrame.assemble body o.codeCapacity
    return {
      image
      stats := { s.stats with
        registers := s.regs.served
        instructions := s.asm.count
        patched := body.patched } }

end Graph

end NativeExpr
