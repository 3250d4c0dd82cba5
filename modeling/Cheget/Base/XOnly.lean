-- SUMMARY: Points known by an x-coordinate and a parity, and the tweaked keys that are derived from them.
import Mathlib.Algebra.Module.Basic

/-!
# x-only keys

A point and its negation share their x-coordinate, and exactly one of them is
even. A key that is known by its x-coordinate stands for the even one. Tweaking
adds a multiple of the generator that is a hash of the x-coordinate.
-/

/-- A group of points with x-coordinates in `X`, over scalars `K`. -/
structure XOnlyCurve (K V X : Type) [Ring K] [AddCommGroup V] [Module K V] where
  generator : V
  x : V → X
  evenY : V → Bool
  /-- The even point with an x-coordinate. -/
  liftX : X → V
  /-- The tweak of a key with no merkle root. -/
  tapTweakHash : X → K
  x_eq_iff : ∀ p q, p ≠ 0 → q ≠ 0 → (x p = x q ↔ p = q ∨ p = -q)
  evenY_neg : ∀ p, p ≠ 0 → evenY (-p) = !evenY p
  liftX_ne_zero : ∀ p, p ≠ 0 → liftX (x p) ≠ 0
  x_liftX : ∀ p, p ≠ 0 → x (liftX (x p)) = x p
  evenY_liftX : ∀ p, p ≠ 0 → evenY (liftX (x p)) = true

namespace XOnlyCurve

variable {K V X : Type} [Ring K] [AddCommGroup V] [Module K V] (curve : XOnlyCurve K V X) {p q : V}

/-- The even one of a point and its negation. -/
def intoEvenY (p : V) : V := if curve.evenY p then p else -p

/-- The output key of an internal key. -/
def outputKey (p : V) : V := curve.intoEvenY p + curve.tapTweakHash (curve.x p) • curve.generator

theorem intoEvenY_of_even (h : curve.evenY p = true) : curve.intoEvenY p = p := if_pos h

theorem intoEvenY_of_odd (h : curve.evenY p = false) : curve.intoEvenY p = -p :=
  if_neg (Bool.eq_false_iff.mp h)

theorem intoEvenY_ne_zero (hp : p ≠ 0) : curve.intoEvenY p ≠ 0 := by
  unfold intoEvenY
  split
  · exact hp
  · exact neg_ne_zero.mpr hp

theorem evenY_intoEvenY (hp : p ≠ 0) : curve.evenY (curve.intoEvenY p) = true := by
  unfold intoEvenY
  split
  · next heven => exact heven
  · next hodd => rw [curve.evenY_neg p hp, Bool.eq_false_iff.mpr hodd, Bool.not_false]

theorem x_neg (hp : p ≠ 0) : curve.x (-p) = curve.x p :=
  (curve.x_eq_iff _ _ (neg_ne_zero.mpr hp) hp).mpr (Or.inr rfl)

theorem x_intoEvenY (hp : p ≠ 0) : curve.x (curve.intoEvenY p) = curve.x p := by
  unfold intoEvenY
  split
  · rfl
  · exact curve.x_neg hp

theorem intoEvenY_neg (hp : p ≠ 0) : curve.intoEvenY (-p) = curve.intoEvenY p := by
  unfold intoEvenY
  rw [curve.evenY_neg p hp]
  cases curve.evenY p <;> simp

/-- Lifting an x-coordinate gives the even point it belongs to. -/
theorem liftX_eq (hp : p ≠ 0) : curve.liftX (curve.x p) = curve.intoEvenY p := by
  have heven := curve.evenY_liftX p hp
  rcases (curve.x_eq_iff _ _ (curve.liftX_ne_zero p hp) hp).mp (curve.x_liftX p hp) with hsame | hneg
  · rw [hsame] at heven ⊢
    exact (curve.intoEvenY_of_even heven).symm
  · rw [hneg] at heven ⊢
    rw [curve.evenY_neg p hp, Bool.not_eq_true'] at heven
    exact (curve.intoEvenY_of_odd heven).symm

/-- A point and its negation have one output key. -/
theorem outputKey_neg (hp : p ≠ 0) : curve.outputKey (-p) = curve.outputKey p := by
  rw [outputKey, outputKey, curve.intoEvenY_neg hp, curve.x_neg hp]

theorem outputKey_intoEvenY (hp : p ≠ 0) : curve.outputKey (curve.intoEvenY p) = curve.outputKey p := by
  unfold intoEvenY
  split
  · rfl
  · exact curve.outputKey_neg hp

end XOnlyCurve
