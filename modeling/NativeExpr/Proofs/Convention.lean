import Mathlib.Data.List.Forall2
import NativeExpr.Proofs.Registers

/-!
# Places of arguments

The convention gives every argument a place of its own: a register of its class
that a call does not keep, or eight aligned bytes among the stack arguments.
-/
namespace NativeExpr

namespace ArgCursor

variable {k : ArgCursor} {c d : RegClass} {cs : List RegClass} {l : ArgLocation}

/-- Whether a place for an argument of a class has not been given out yet. -/
def Left (k : ArgCursor) (c : RegClass) : ArgLocation → Prop
  | .register r => ∃ i, k.used.get c ≤ i ∧ (Convention.argRegs c)[i]? = some r
  | .stack o => ∃ i, o = k.stackSize + 8 * i

theorem argRegs_nodup (c : RegClass) : (Convention.argRegs c).Nodup := by
  cases c <;> decide

theorem regClass_of_mem_argRegs {r : Reg} (h : r ∈ Convention.argRegs c) : r.regClass = c := by
  revert r
  cases c <;> decide

theorem left_next : k.Left c (k.next c).1 := by
  unfold next
  split
  · next r h => exact ⟨_, Nat.le_refl _, h⟩
  · exact ⟨0, rfl⟩

/-- A place that is left after one was given out was left before and is another one. -/
theorem Left.of_next (h : (k.next c).2.Left d l) : k.Left d l ∧ l ≠ (k.next c).1 := by
  unfold next at h ⊢
  cases hr : (Convention.argRegs c)[k.used.get c]? with
  | none =>
    rw [hr] at h
    cases l with
    | register q => exact ⟨h, ArgLocation.noConfusion⟩
    | stack o =>
      obtain ⟨i, ho⟩ := h
      dsimp only at ho ⊢
      refine ⟨⟨i + 1, by omega⟩, fun he => ?_⟩
      cases he
      omega
  | some r =>
    rw [hr] at h
    cases l with
    | stack o => exact ⟨h, ArgLocation.noConfusion⟩
    | register q =>
      obtain ⟨i, hi, hq⟩ := h
      rw [ByClass.get_set] at hi
      split at hi
      · next same =>
        subst same
        refine ⟨⟨i, by omega, hq⟩, fun he => ?_⟩
        cases he
        have := (List.getElem?_inj ((List.getElem?_eq_some_iff.1 hr).1) (argRegs_nodup d)).1
          (hr.trans hq.symm)
        omega
      · next other =>
        refine ⟨⟨i, hi, hq⟩, fun he => other ?_⟩
        cases he
        rw [← regClass_of_mem_argRegs (List.mem_of_getElem? hq),
          regClass_of_mem_argRegs (List.mem_of_getElem? hr)]

theorem stackSize_le_next : k.stackSize ≤ (k.next c).2.stackSize := by
  unfold next
  split
  · exact Nat.le_refl _
  · exact Nat.le_add_right ..

def finish (k : ArgCursor) (cs : List RegClass) : Nat :=
  ((k.locations cs).map Prod.snd).getLastD k.stackSize

theorem finish_cons : k.finish (c :: cs) = (k.next c).2.finish cs := by
  rw [finish, locations, List.map_cons, List.getLastD_cons]
  rfl

theorem le_finish : k.stackSize ≤ k.finish cs := by
  induction cs generalizing k with
  | nil => exact Nat.le_refl _
  | cons c cs ih =>
    rw [finish_cons]
    exact Nat.le_trans stackSize_le_next ih

theorem locations_cons : (k.locations (c :: cs)).map Prod.fst =
    (k.next c).1 :: ((k.next c).2.locations cs).map Prod.fst := rfl

theorem left_locations : List.Forall₂ k.Left cs ((k.locations cs).map Prod.fst) := by
  induction cs generalizing k with
  | nil => exact .nil
  | cons c cs ih =>
    rw [locations_cons]
    exact .cons left_next (ih.imp fun _ _ h => h.of_next.1)

theorem nodup_locations : ((k.locations cs).map Prod.fst).Nodup := by
  induction cs generalizing k with
  | nil => exact .nil
  | cons c cs ih =>
    rw [locations_cons, List.nodup_cons]
    refine ⟨fun hm => ?_, ih⟩
    obtain ⟨i, hi, he⟩ := List.getElem_of_mem hm
    have all : List.Forall₂ (k.next c).2.Left cs _ := left_locations
    have left := (List.forall₂_iff_get.1 all).2 i (all.length_eq ▸ hi) hi
    exact left.of_next.2 he

theorem stack_le_finish {o : Nat} (h : .stack o ∈ (k.locations cs).map Prod.fst) :
    o + 8 ≤ k.finish cs := by
  induction cs generalizing k with
  | nil => cases h
  | cons c cs ih =>
    rw [finish_cons]
    rw [locations_cons, List.mem_cons] at h
    rcases h with h | h
    · refine Nat.le_trans ?_ le_finish
      unfold next at h ⊢
      split at h
      · cases h
      · cases h
        exact Nat.le_refl _
    · exact ih h

end ArgCursor

namespace Convention

/-- Whether a place is one for an argument of a class, with so many bytes of stack
arguments. -/
def Suits (bytes : Nat) (c : RegClass) : ArgLocation → Prop
  | .register r => r ∈ argRegs c
  | .stack o => o % 8 = 0 ∧ o + 8 ≤ bytes

theorem suits_argLocations (cs : List RegClass) :
    List.Forall₂ (Suits (argBytes cs)) cs (argLocations cs) := by
  have all : List.Forall₂ ArgCursor.start.Left cs _ := ArgCursor.left_locations
  obtain ⟨length, left⟩ := List.forall₂_iff_get.1 all
  refine List.forall₂_iff_get.2 ⟨length, fun i hc hl => ?_⟩
  have here := left i hc hl
  have mem : (argLocations cs).get ⟨i, hl⟩ ∈ argLocations cs := List.get_mem ..
  change ArgCursor.start.Left (cs.get ⟨i, hc⟩) ((argLocations cs).get ⟨i, hl⟩) at here
  generalize (argLocations cs).get ⟨i, hl⟩ = l at here mem
  cases l with
  | register r =>
    obtain ⟨j, -, hj⟩ := here
    exact List.mem_of_getElem? hj
  | stack o =>
    obtain ⟨j, hj⟩ := here
    refine ⟨?_, ArgCursor.stack_le_finish mem⟩
    rw [hj, show ArgCursor.start.stackSize = 0 from rfl]
    omega

theorem exists_suits {cs : List RegClass} {l : ArgLocation} (h : l ∈ argLocations cs) :
    ∃ c, Suits (argBytes cs) c l := by
  obtain ⟨i, hi, rfl⟩ := List.mem_iff_getElem.1 h
  have all := List.forall₂_iff_get.1 (suits_argLocations cs)
  exact ⟨_, all.2 i (all.1 ▸ hi) hi⟩

theorem nodup_argLocations (cs : List RegClass) : (argLocations cs).Nodup :=
  ArgCursor.nodup_locations

theorem length_argLocations (cs : List RegClass) : (argLocations cs).length = cs.length :=
  (suits_argLocations cs).length_eq.symm

end Convention

end NativeExpr
