import NativeExpr.Machine.Foreign

/-!
# A function library

Foreign functions of every shape that the calling convention tells apart: narrow
results, arguments in registers of both classes, arguments on the stack, and
none at all. They stand sixteen bytes apart in memory.
-/
namespace NativeExpr.Machine.Library

open NativeExpr

def floatSum (terms : List Word) : Word := terms.foldl (Precision.double.apply .add) 0

def timesCount (x : Word) (n : Nat) : Word :=
  Precision.double.apply .mul x (Precision.double.ofInt (BitVec.ofNat 64 n))

/-- The integers of a list, each times its position counted from one. -/
def weighted (xs : List Word) : List Word := xs.mapIdx fun i x => x * BitVec.ofNat 64 (i + 1)

/-- The floats of a list, each times its position counted from `start`. -/
def weightedFloat (start : Nat) (xs : List Word) : List Word :=
  xs.mapIdx fun i x => timesCount x (i + start)

def mixed (args : List Word) : Word :=
  let a := args.getD 0 0
  let b := Precision.double.ofInt (args.getD 1 0)
  let c := Precision.convert .double ((args.getD 2 0).setWidth 32 |>.setWidth 64)
  let d := Precision.double.ofInt (ScalarType.i32.canonical (args.getD 3 0))
  let product := Precision.double.apply .mul a b
  Precision.double.apply .sub (Precision.double.apply .add product c) d

def mix (args : List Word) : Word :=
  let integers := (args.take 7 ++ (args.drop 16).take 1).map Precision.double.ofInt
  floatSum (weightedFloat 1 integers ++ weightedFloat 10 ((args.drop 7).take 9))

def half (args : List Word) : Word :=
  Precision.single.apply .mul ((args.getD 0 0).setWidth 32 |>.setWidth 64) 0x3f000000

def functions : List Foreign := [
  ⟨"dbl", [.i64], .i64, fun args => 2 * args.getD 0 0⟩,
  ⟨"tri", [.i64], .i64, fun args => 3 * args.getD 0 0⟩,
  ⟨"w8", List.replicate 8 .i64, .i64, fun args => (weighted args).foldl (· + ·) 0⟩,
  ⟨"w10", List.replicate 10 .f64, .f64, fun args => floatSum (weightedFloat 1 args)⟩,
  ⟨"mixed", [.f64, .i64, .f32, .i32], .f64, mixed⟩,
  ⟨"even", [.i64], .bool, fun args => if (args.getD 0 0).getLsbD 0 then 0 else 1⟩,
  ⟨"low", [.i64], .i8, fun args => args.getD 0 0⟩,
  ⟨"id", [.u64], .u64, fun args => args.getD 0 0⟩,
  ⟨"mix", List.replicate 7 .i64 ++ List.replicate 9 .f64 ++ [.i64], .f64, mix⟩,
  ⟨"half", [.f32], .f32, half⟩,
  ⟨"seven", [], .i64, fun _ => 7⟩,
  ⟨"clobber", [.i64], .i64, fun args => args.getD 0 0 + 1⟩,
  ⟨"fsq", [.f64], .f64, fun args =>
    Precision.double.apply .mul (args.getD 0 0) (args.getD 0 0)⟩]

def base : Word := 0x100000100000

def spacing : Nat := 16

def environment : Environment := fun address =>
  let offset := (address - base).toNat
  if offset % spacing = 0 then functions[offset / spacing]? else none

end NativeExpr.Machine.Library
