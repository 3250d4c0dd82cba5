-- SUMMARY: Polynomials as coefficient lists, commitments to them in a module, and reconstruction from enough values.
import Mathlib.LinearAlgebra.Lagrange

/-!
# Coefficient lists

A polynomial is a list of coefficients, the constant first. The coefficients
may be scalars or, for a commitment, elements of a module: evaluation is the
same function for both. Enough values of a polynomial at distinct points
determine its value at zero, which is what a threshold sharing rests on.
-/

namespace Coefficients

open Polynomial

variable {K M : Type} [Field K] [AddCommGroup M] [Module K M]

/-- The value at `x`, by Horner's rule. -/
def eval (x : K) : List M → M
  | [] => 0
  | c :: cs => c + x • eval x cs

@[simp] theorem eval_nil (x : K) : eval x ([] : List M) = 0 := rfl

@[simp] theorem eval_cons (x : K) (c : M) (cs : List M) :
    eval x (c :: cs) = c + x • eval x cs := rfl

/-- The value at zero is the constant. -/
theorem eval_zero (cs : List M) : eval (0 : K) cs = cs.headD 0 := by
  cases cs <;> simp

/-- Evaluating a commitment commits to the value. -/
theorem eval_map_smul (x : K) (g : M) (cs : List K) :
    eval x (cs.map (· • g)) = eval x cs • g := by
  induction cs with
  | nil => simp
  | cons c cs ih => simp [ih, add_smul, mul_smul]

/-- The polynomial itself. -/
noncomputable def toPoly : List K → K[X]
  | [] => 0
  | c :: cs => C c + X * toPoly cs

theorem eval_toPoly (x : K) (cs : List K) : (toPoly cs).eval x = eval x cs := by
  induction cs with
  | nil => simp [toPoly]
  | cons c cs ih => simp [toPoly, ih]

theorem coeff_toPoly_of_le (cs : List K) {k : Nat} (hk : cs.length ≤ k) :
    (toPoly cs).coeff k = 0 := by
  induction cs generalizing k with
  | nil => simp [toPoly]
  | cons c cs ih =>
      cases k with
      | zero => simp at hk
      | succ k =>
          have hcs : cs.length ≤ k := by simpa using hk
          simp [toPoly, coeff_C_succ, ih hcs]

theorem degree_toPoly_lt (cs : List K) : (toPoly cs).degree < cs.length := by
  rw [degree_lt_iff_coeff_zero]
  intro k hk
  exact coeff_toPoly_of_le cs hk

/-- The values at as many distinct points as the polynomial has coefficients
    interpolate to its value anywhere. -/
theorem eval_interpolate {ι : Type} [DecidableEq ι] {s : Finset ι} {v : ι → K} {share : ι → K}
    {p : K[X]} (hv : Set.InjOn v s) (hdegree : p.degree < s.card)
    (hshare : ∀ i ∈ s, share i = p.eval (v i)) (x : K) :
    (Lagrange.interpolate s v share).eval x = p.eval x := by
  have hp : p = Lagrange.interpolate s v share :=
    Lagrange.eq_interpolate_of_eval_eq share hv hdegree (fun i hi => (hshare i hi).symm)
  rw [← hp]

end Coefficients
