import NativeExpr.Machine.Run
import NativeExpr.Proofs.Cells
import NativeExpr.Proofs.Convention

/-!
# The entry of a function

A function that is called from nothing finds its arguments in the places of the convention,
which are apart from each other and from the return address on top of the stack.
-/
namespace NativeExpr.Machine

open Convention

variable {s t : State} {bytes : Nat} {c : RegClass} {l l' : ArgLocation} {w : Word}

/-- What changes when an argument is put in its place among so many bytes of stack arguments. -/
structure Places (bytes : Nat) (l : ArgLocation) (w : Word) (s t : State) : Prop where
  pc : t.pc = s.pc
  sp : t.named .rsp = s.named .rsp
  memory : ∀ a, (a - s.named .rsp).toNat < 8 ∨ 8 + bytes ≤ (a - s.named .rsp).toNat →
    t.memory a = s.memory a
  argument : t.argument l = w
  others : ∀ c l', Suits bytes c l' → l' ≠ l → t.argument l' = s.argument l'

theorem valid_of_mem_argRegs {r : Reg} (h : r ∈ argRegs c) : r.Valid ∧ r ≠ .rsp := by
  revert r
  cases c <;> decide

theorem argument_stack (o : Nat) : s.argument (.stack o) =
    s.memory.load (s.named .rsp + 8 + BitVec.ofNat 64 o) 8 := rfl

/-- How far a byte of a stack argument is from the stack pointer. -/
theorem distance_stack {o i : Nat} {sp : Word} (small : 8 + o + i < 18446744073709551616) :
    (sp + 8 + BitVec.ofNat 64 o + BitVec.ofNat 64 i - sp).toNat = 8 + o + i := by
  have split : sp + 8 + BitVec.ofNat 64 o + BitVec.ofNat 64 i - sp =
      BitVec.ofNat 64 (8 + o + i) := by
    rw [BitVec.ofNat_add, BitVec.ofNat_add]
    grind
  rw [split, BitVec.toNat_ofNat, Nat.mod_eq_of_lt small]

theorem places_placeArgument (small : 8 + bytes < 18446744073709551616)
    (suits : Suits bytes c l) (s : State) (w : Word) :
    Places bytes l w s (placeArgument s (l, w)) := by
  cases l with
  | register r =>
    obtain ⟨valid, sp⟩ := valid_of_mem_argRegs suits
    have other : (s.setNamed r w).named .rsp = s.named .rsp := by
      rw [State.named_setNamed valid (by decide), if_neg sp.symm]
    refine ⟨?_, other, fun a _ => congrFun State.memory_setNamed a, ?_, ?_⟩
    · show (s.setNamed r w).pc = s.pc
      unfold State.setNamed
      split <;> rfl
    · show (s.setNamed r w).named r = w
      rw [State.named_setNamed valid valid, if_pos rfl]
    · intro d l' suits' ne
      show (s.setNamed r w).argument l' = _
      cases l' with
      | register q =>
        have ne : q ≠ r := fun same => ne (congrArg _ same)
        show (s.setNamed r w).named q = s.named q
        rw [State.named_setNamed valid (valid_of_mem_argRegs suits').1, if_neg ne]
      | stack o => rw [argument_stack, argument_stack, other, State.memory_setNamed]
  | stack o =>
    obtain ⟨aligned, inside⟩ := suits
    have far (a : Word) (h : 8 ≤ (a - (s.named .rsp + 8 + BitVec.ofNat 64 o)).toNat) :
        (placeArgument s (.stack o, w)).memory a = s.memory a := Memory.store_of_le h
    refine ⟨rfl, rfl, fun a ha => far a ?_, Memory.load_store, ?_⟩
    · have split : a - s.named .rsp =
          a - (s.named .rsp + 8 + BitVec.ofNat 64 o) + BitVec.ofNat 64 (8 + o) := by
        rw [BitVec.ofNat_add]
        grind
      rw [split, BitVec.toNat_add, BitVec.toNat_ofNat] at ha
      omega
    · intro d l' suits' ne
      cases l' with
      | register q => rfl
      | stack o' =>
        obtain ⟨aligned', inside'⟩ := suits'
        have ne : o' ≠ o := fun same => ne (congrArg _ same)
        rw [argument_stack, argument_stack]
        show (placeArgument s (.stack o, w)).memory.load
          (s.named .rsp + 8 + BitVec.ofNat 64 o') 8 = _
        refine Memory.load_congr fun i hi => far _ ?_
        have split : s.named .rsp + 8 + BitVec.ofNat 64 o' + BitVec.ofNat 64 i - s.named .rsp =
            s.named .rsp + 8 + BitVec.ofNat 64 o' + BitVec.ofNat 64 i -
              (s.named .rsp + 8 + BitVec.ofNat 64 o) + BitVec.ofNat 64 (8 + o) := by
          rw [BitVec.ofNat_add 8 o]
          grind
        have distance := @distance_stack o' i (s.named .rsp) (by omega)
        rw [split, BitVec.toNat_add, BitVec.toNat_ofNat] at distance
        omega

/-- Arguments that are put in places apart from each other are found there. -/
theorem foldl_placeArgument (small : 8 + bytes < 18446744073709551616)
    {L : List (ArgLocation × Word)} (suits : ∀ x ∈ L, ∃ c, Suits bytes c x.1)
    (nodup : (L.map Prod.fst).Nodup) (s : State) :
    let t := L.foldl placeArgument s
    t.pc = s.pc ∧ t.named .rsp = s.named .rsp ∧
      (∀ a, (a - s.named .rsp).toNat < 8 ∨ 8 + bytes ≤ (a - s.named .rsp).toNat →
        t.memory a = s.memory a) ∧
      (∀ x ∈ L, t.argument x.1 = x.2) ∧
      ∀ c l, Suits bytes c l → l ∉ L.map Prod.fst → t.argument l = s.argument l := by
  induction L generalizing s with
  | nil =>
    exact ⟨rfl, rfl, fun _ _ => rfl, fun _ hx => (List.not_mem_nil hx).elim, fun _ _ _ _ => rfl⟩
  | cons x L ih =>
    obtain ⟨c, own⟩ := suits x (List.mem_cons_self ..)
    rw [List.map_cons, List.nodup_cons] at nodup
    have first := places_placeArgument small own s x.2
    obtain ⟨pc, sp, memory, arguments, others⟩ :=
      ih (fun y hy => suits y (List.mem_cons_of_mem _ hy)) nodup.2 (placeArgument s x)
    refine ⟨pc.trans first.pc, sp.trans first.sp, fun a ha => ?_, fun y hy => ?_,
      fun d l hl hn => ?_⟩
    · refine (memory a ?_).trans (first.memory a ha)
      rwa [first.sp]
    · rcases List.mem_cons.1 hy with rfl | hy
      · exact (others c _ own nodup.1).trans first.argument
      · exact arguments y hy
    · rw [List.map_cons, List.mem_cons, not_or] at hn
      exact (others d l hl hn.2).trans (first.others d l hl hn.1)

/-- A function that is called from nothing is entered at its beginning, with the return address
on top of the stack and the arguments in their places. -/
theorem entryState_spec {types : List ScalarType} {args : List Word} {m : Memory}
    (length : args.length = types.length)
    (small : 8 + argBytes (types.map ScalarType.regClass) < 18446744073709551616) :
    let s := entryState m types args
    s.pc = codeBase ∧ s.named .rsp = entryStack ∧ s.memory.load entryStack 8 = returnAddress ∧
      (∀ a, 8 + argBytes (types.map ScalarType.regClass) ≤ (a - entryStack).toNat →
        s.memory a = m a) ∧
      ∀ (i : Nat) l x, (argLocations (types.map ScalarType.regClass))[i]? = some l →
        args[i]? = some x → s.argument l = x := by
  have places : (((argLocations (types.map ScalarType.regClass)).zip args).map Prod.fst) =
      argLocations (types.map ScalarType.regClass) :=
    List.map_fst_zip (Nat.le_of_eq (by rw [length_argLocations, List.length_map, length]))
  let blank : State := ⟨Vector.replicate 16 0, Vector.replicate 16 0, .clear, m, codeBase⟩
  let start := (blank.setReg X64.RegNum.stackPointer entryStack).write entryStack returnAddress
  obtain ⟨pc, sp, memory, arguments, -⟩ := foldl_placeArgument small
    (L := (argLocations (types.map ScalarType.regClass)).zip args)
    (fun x hx => exists_suits (List.of_mem_zip hx).1) (by rw [places]; exact nodup_argLocations _)
    start
  have top : start.named .rsp = entryStack := rfl
  rw [top] at sp memory
  refine ⟨pc, sp, ?_, fun a ha => (memory a (.inr ha)).trans (Memory.store_of_le (by omega)), ?_⟩
  · refine (Memory.load_congr fun i hi => memory _ (.inl ?_)).trans Memory.load_store
    rw [BitVec.add_comm, BitVec.add_sub_cancel, BitVec.toNat_ofNat, Nat.mod_eq_of_lt (by omega)]
    exact hi
  · intro i l x hl hx
    exact arguments (l, x) (List.mem_of_getElem? (List.getElem?_zip_eq_some.2 ⟨hl, hx⟩))

end NativeExpr.Machine
