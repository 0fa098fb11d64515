import NativeExpr.Compile
import NativeExpr.Graph.Eval
import NativeExpr.Machine.Run
import NativeExpr.Scalar.Text
import NativeExpr.X64.Text

/-!
# Reports

A report compiles a sample expression and says what the generator did. The
expression reads inputs from an array and sums the products of neighbours, the
last input having the first as its neighbour; on request each term is a choice
between product and difference. The compiled function is run on sample data and
its result compared with the value the evaluator finds.
-/
namespace NativeExpr

/-- What a report is asked to do. -/
structure Report where
  inputs : Nat
  /-- Inputs are floats instead of integers. -/
  float : Bool
  /-- Terms are chosen by comparing the neighbours. -/
  conditionals : Bool
  maxGeneral : Option Nat
  maxFloat : Option Nat
  fuse : Bool
  /-- The code is listed as well. -/
  listing : Bool
  /-- How often the function is called again after its check; a report holds no
  times, so this leaves no trace in it. -/
  iterations : Nat
  deriving DecidableEq, Repr

namespace Report

def default : Report := ⟨16, false, false, none, none, true, false, 1000000⟩

/-! ## The command line -/

def switch? : String → Option (Report → Report)
  | "--float" => some fun r => { r with float := true }
  | "--conditionals" => some fun r => { r with conditionals := true }
  | "--no-fuse" => some fun r => { r with fuse := false }
  | "--disasm" => some fun r => { r with listing := true }
  | _ => none

/-- The setting that an argument names, which takes a count. -/
def setting? : String → Option (Nat → Report → Report)
  | "-n" | "--inputs" => some fun n r => { r with inputs := n }
  | "-i" | "--iterations" => some fun n r => { r with iterations := n }
  | "--max-gp-regs" => some fun n r => { r with maxGeneral := some n }
  | "--max-fp-regs" => some fun n r => { r with maxFloat := some n }
  | _ => none

/-- Takes an argument apart that holds a setting and its count: a long name with
an equals sign, or a letter with the count behind it, an equals sign between
them or not. -/
def attached? (arg : String) : Option (String × List Char) :=
  match arg.toList with
  | '-' :: '-' :: cs =>
    match cs.span (· != '=') with
    | (name, '=' :: count) => some ("--" ++ String.ofList name, count)
    | _ => none
  | '-' :: letter :: '=' :: count => some ("-" ++ letter.toString, count)
  | '-' :: letter :: c :: count => some ("-" ++ letter.toString, c :: count)
  | _ => none

/-- The report that arguments ask for, none if they are malformed. Two dashes end
the settings, and nothing may follow them. -/
def ofArgs (r : Report) : List String → Option Report
  | [] => some r
  | ["--"] => some r
  | arg :: rest =>
    match switch? arg with
    | some change => ofArgs (change r) rest
    | none =>
      match setting? arg with
      | some change =>
        match rest with
        | [] => none
        | count :: rest => do
          let n ← Options.parseCount count.toList
          ofArgs (change n r) rest
      | none => do
        let (name, count) ← attached? arg
        let change ← setting? name
        let n ← Options.parseCount count
        ofArgs (change n r) rest

/-- The options of the compilation: those of the environment as far as the
report does not say otherwise. -/
def options (r : Report) (env : String → Option String) : Options :=
  ((Options.ofEnvironment env).withFuseCompares r.fuse
    |>.adjust r.maxGeneral Options.withMaxGeneral).adjust r.maxFloat Options.withMaxFloat

/-! ## The expression -/

def inputType (r : Report) : ScalarType := if r.float then .f64 else .i64

def dataBase : Word := 0x100000000000

def signature (r : Report) : Signature := ⟨[.ptr], r.inputType⟩

/-- The sample data: `3 * i - 7`, or `0.75 * i - 3` for floats. -/
def inputValue (r : Report) (i : Nat) : Word :=
  let n := BitVec.ofNat 64 i
  if r.float then
    let p := Precision.double
    p.apply .sub (p.apply .mul (p.ofInt n) 0x3fe8000000000000) (p.ofInt 3)
  else n * 3 - 7

def data (r : Report) : Array Byte :=
  ((List.range r.inputs).flatMap fun i => leBytes (r.inputValue i) 8).toArray

def input (r : Report) (base : NodeId) (i : Nat) : Builder NodeId := do
  let index ← Builder.immI64 (BitVec.ofNat 64 i)
  Builder.element base index r.inputType

def term (r : Report) (a b : NodeId) : Builder NodeId := do
  let product ← Builder.arith .mul a b
  if r.conditionals then
    let larger ← Builder.compare .gt a b
    let difference ← Builder.arith .sub a b
    Builder.select larger product difference
  else return product

/-- The sum of the terms of neighbouring inputs; the value of no inputs is the
array itself. -/
def expression (r : Report) : Builder NodeId := do
  let base ← (← get).graph.param 0
  let inputs ← (List.range r.inputs).mapM (r.input base)
  let terms ← (inputs.zip (inputs.drop 1 ++ inputs.take 1)).mapM fun (a, b) => r.term a b
  match terms with
  | [] => return base
  | t :: rest => rest.foldlM (Builder.arith .add) t

/-! ## The report itself -/

/-- What a report leaves: the exit code, the lines it prints and its complaint. -/
structure Output where
  code : Nat
  lines : List String
  complaint : String
  deriving DecidableEq, Repr

/-- A report that ends early. -/
def failure (lines : List String) (message : String) : Output :=
  ⟨1, lines, "error: " ++ message ++ "\n"⟩

def codeLines (r : Report) (c : Compiled) : List String :=
  [s!"Code size:        {c.region.size} bytes",
    s!"Nodes generated:  {c.stats.nodes}",
    s!"Instructions:     {c.stats.instructions}",
    s!"Registers used:   {c.stats.registers}",
    s!"Spills:           {c.stats.spills}",
    s!"Conditionals:     {c.stats.conditionals}",
    s!"Fused compares:   {c.stats.fused}",
    s!"Hoisted nodes:    {c.stats.hoisted}"]
    ++ if r.listing then "" :: X64.listingLines c.region.code Machine.codeBase ++ [""] else []

/-- The value that the compiled function computes in a memory. -/
def run (r : Report) (memory : Memory) (c : Compiled) : Option Value :=
  match (Machine.call (fun _ => none) c.region.code memory [.ptr] [dataBase]).1 with
  | .returned s => some ⟨r.inputType, s.result r.inputType⟩
  | .divideError | .stuck => none

/-- Runs the compiled function on the sample data and compares it with the evaluator. -/
def check (r : Report) (g : Graph) (root : NodeId) (s : Session) (c : Compiled) : Output :=
  let lines := r.codeLines c
  let memory := Memory.zero.storeBytes dataBase r.data
  match g.evaluateIn memory root [⟨.ptr, dataBase⟩], r.run memory c with
  | .error e, _ => failure lines e.message
  | .ok _, none => failure lines "the compiled function does not return"
  | .ok expected, some actual =>
    let lines := lines ++ ["", "Result:           " ++ actual.text]
    if (Value.compare .ne expected actual).isTrue then
      failure lines ("evaluator returned " ++ expected.text)
    else ⟨0, lines ++ "" :: s.stats.lines, ""⟩

def make (r : Report) (env : String → Option String) : Output :=
  if r.inputs = 0 then failure [] "--inputs must be at least 1"
  else
    let build : Builder NodeId := do
      Builder.start r.signature.params
      r.expression
    match build ⟨.new none, .empty⟩ with
    | .error e _ => failure [] e.message
    | .ok root d =>
      match d.graph.compileTyped r.signature root (r.options env) d.session with
      | .error e _ => failure [] e.message
      | .ok c s => r.check d.graph root s c

end Report

end NativeExpr
