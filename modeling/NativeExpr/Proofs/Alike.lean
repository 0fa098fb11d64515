import NativeExpr.Proofs.Schedule
import NativeExpr.Proofs.Widening

/-!
# Values up to NaNs

Which NaN a float is matters to other floats only: operations take values that are alike to
values that are alike, and integers, truth values, addresses, order and outside functions see
no difference between them.
-/
namespace NativeExpr

open Precision

namespace Value

variable {a a' b b' : Value} {t : ScalarType} {p : Precision} {x y : Word}

theorem ty_unify (v : Value) : v.unify.ty = v.ty := by
  unfold unify
  split <;> rfl

theorem unify_of_general (h : a.ty.precision? = none) : a.unify = a := by
  unfold unify
  rw [h]

theorem unify_of_float (h : t.precision? = some p) :
    (⟨t, x⟩ : Value).unify = ⟨t, p.unifyNaN x⟩ := by
  unfold unify
  rw [h]

theorem eq_singleton {values : List Value} (types : values.map Value.ty = [t]) :
    ∃ bits, values = [⟨t, bits⟩] := by
  obtain ⟨v, rest, rfl, rfl, none⟩ := List.map_eq_cons_iff.1 types
  exact ⟨v.bits, by rw [List.map_eq_nil_iff.1 none]⟩

/-- Whether two values are the same but for which NaN they are. -/
def Alike (a b : Value) : Prop := a.unify = b.unify

namespace Alike

theorem of_eq (h : a = b) : a.Alike b := congrArg unify h

theorem symm (h : a.Alike b) : b.Alike a := Eq.symm h

theorem trans {c : Value} (h : a.Alike b) (h' : b.Alike c) : a.Alike c := Eq.trans h h'

theorem ty (h : a.Alike b) : a.ty = b.ty :=
  (ty_unify a).symm.trans ((congrArg Value.ty h).trans (ty_unify b))

theorem eq (h : a.Alike b) (general : b.ty.precision? = none) : a = b := by
  have general' : a.ty.precision? = none := h.ty ▸ general
  rwa [Alike, unify_of_general general', unify_of_general general] at h

theorem of_ty (h : a.Alike b) (ty : b.ty = t) (general : t.precision? = none) : a = b :=
  h.eq (ty ▸ general)

theorem map_unify {xs ys : List Value} (h : List.Forall₂ Alike xs ys) :
    xs.map unify = ys.map unify := by
  induction h with
  | nil => rfl
  | cons alike _ ih => exact congrArg₂ List.cons alike ih

theorem float_iff (h : t.precision? = some p) :
    Alike ⟨t, x⟩ ⟨t, y⟩ ↔ p.unifyNaN x = p.unifyNaN y := by
  rw [Alike, unify_of_float h, unify_of_float h, Value.mk.injEq]
  exact ⟨And.right, fun same => ⟨rfl, same⟩⟩

theorem of_bits (ty : a.ty = b.ty) (bits : a.unify.bits = b.unify.bits) : a.Alike b :=
  congrArg₂ Value.mk ((ty_unify a).trans (ty.trans (ty_unify b).symm)) bits

theorem bits (h : a.Alike b) (float : b.ty.precision? = some p) :
    p.unifyNaN a.bits = p.unifyNaN b.bits := by
  obtain ⟨t, x⟩ := a
  obtain ⟨t', y⟩ := b
  obtain rfl : t = t' := h.ty
  exact (float_iff float).1 h

theorem order (ha : a.Alike a') (hb : b.Alike b') (same : b'.ty = a'.ty) :
    a.order b = a'.order b' := by
  cases hp : a'.ty.precision? with
  | none => rw [ha.eq hp, hb.eq (same ▸ hp)]
  | some p =>
    rw [order_of_precision (ha.ty ▸ hp) (by rw [ha.ty, hb.ty, same]), order_of_precision hp same]
    exact compare_congr (ha.bits hp) (hb.bits (same ▸ hp))

theorem convert {source target : ScalarType} (h : Alike ⟨source, x⟩ ⟨source, y⟩) :
    Alike ⟨target, World.convert source target x⟩ ⟨target, World.convert source target y⟩ := by
  cases hs : source.precision? with
  | none => rw [(Value.mk.inj (h.eq hs)).2]; rfl
  | some p =>
    have same := (float_iff hs).1 h
    unfold World.convert
    rw [hs]
    cases ht : target.precision? with
    | none =>
      dsimp only
      rw [truncate_congr same]
      rfl
    | some q =>
      dsimp only
      rw [float_iff ht]
      split
      · next eq => exact eq ▸ same
      · next ne =>
        have other : q.other = p := by
          cases p <;> cases q <;> first | rfl | exact absurd rfl ne
        exact convert_congr (other.symm ▸ same)

end Alike

end Value

end NativeExpr
