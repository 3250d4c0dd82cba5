-- SUMMARY: Results of fallible computations: sequencing, error mapping, panics, and options read as results.
import Mathlib.Data.Option.Basic

namespace Except

variable {ε ε' α β : Type}

@[simp] theorem ok_bind (a : α) (f : α → Except ε β) : ((.ok a : Except ε α) >>= f) = f a := rfl

@[simp] theorem error_bind (e : ε) (f : α → Except ε β) :
    ((.error e : Except ε α) >>= f) = .error e := rfl

@[simp] theorem mapError_ok (f : ε → ε') (a : α) :
    (Except.ok a : Except ε α).mapError f = .ok a := rfl

@[simp] theorem mapError_error (f : ε → ε') (e : ε) :
    (Except.error e : Except ε α).mapError f = .error (f e) := rfl

theorem mapError_eq_ok {f : ε → ε'} {x : Except ε α} {a : α} :
    x.mapError f = .ok a ↔ x = .ok a := by
  cases x <;> simp

theorem exists_ok_of_isOk {x : Except ε α} (h : x.isOk = true) : ∃ a, x = .ok a := by
  cases x with
  | ok a => exact ⟨a, rfl⟩
  | error e => cases h

theorem eq_ok_of_isOk {x : Except ε Unit} (h : x.isOk = true) : x = .ok () := by
  obtain ⟨a, ha⟩ := exists_ok_of_isOk h
  exact ha

theorem mapError_eq_error {f : ε → ε'} {x : Except ε α} {e : ε'} :
    x.mapError f = .error e ↔ ∃ e', x = .error e' ∧ f e' = e := by
  cases x <;> simp

/-- A sequence returns exactly where both parts do. -/
theorem bind_eq_ok {x : Except ε α} {f : α → Except ε β} {b : β} :
    (x >>= f) = .ok b ↔ ∃ a, x = .ok a ∧ f a = .ok b := by
  cases x <;> simp

@[simp] theorem toOption_ok (a : α) : (Except.ok a : Except ε α).toOption = some a := rfl

@[simp] theorem toOption_error (e : ε) : (Except.error e : Except ε α).toOption = none := rfl

theorem toOption_eq_some {x : Except ε α} {a : α} : x.toOption = some a ↔ x = .ok a := by
  cases x <;> simp

end Except

/-- The first item of a list that fails does so with `e`. -/
def FirstError {ε α β : Type} (outcome : α → Except ε β) (xs : List α) (e : ε) : Prop :=
  ∃ pre x post, xs = pre ++ x :: post ∧ (∀ y ∈ pre, (outcome y).isOk = true) ∧ outcome x = .error e

theorem FirstError.cons {ε α β : Type} {outcome : α → Except ε β} {x : α} {xs : List α} {e : ε}
    (h : FirstError outcome (x :: xs) e) :
    outcome x = .error e ∨ ((outcome x).isOk = true ∧ FirstError outcome xs e) := by
  obtain ⟨pre, y, post, hxs, hpre, hy⟩ := h
  cases pre with
  | nil =>
      obtain ⟨rfl, -⟩ := List.cons.inj hxs
      exact Or.inl hy
  | cons z pre =>
      obtain ⟨rfl, rfl⟩ := List.cons.inj hxs
      exact Or.inr ⟨hpre x List.mem_cons_self, pre, y, post, rfl,
        fun z hz => hpre z (List.mem_cons_of_mem x hz), hy⟩

/-- A loop over fallible items ends with the error of the first that fails. -/
theorem FirstError.foldlM {ε α β γ : Type} {outcome : α → Except ε β} {f : γ → α → Except ε γ}
    {I : γ → Prop} (herror : ∀ c x e, I c → outcome x = .error e → f c x = .error e)
    (hok : ∀ c x y, I c → outcome x = .ok y → ∃ c', f c x = .ok c' ∧ I c')
    {xs : List α} {e : ε} (h : FirstError outcome xs e) {c : γ} (hc : I c) :
    xs.foldlM f c = .error e := by
  induction xs generalizing c with
  | nil =>
      obtain ⟨pre, x, post, hxs, -⟩ := h
      exact absurd hxs (by simp)
  | cons x xs ih =>
      rw [List.foldlM_cons]
      rcases h.cons with hx | ⟨hx, hrest⟩
      · rw [herror c x e hc hx]
        rfl
      · obtain ⟨y, hy⟩ := Except.exists_ok_of_isOk hx
        obtain ⟨c', hstep, hc'⟩ := hok c x y hc hy
        rw [hstep, Except.ok_bind]
        exact ih hrest hc'

/-- The value of an option, or the error given for its absence. -/
def Option.okOr {ε α : Type} (o : Option α) (e : ε) : Except ε α :=
  match o with
  | some a => .ok a
  | none => .error e

@[simp] theorem Option.okOr_some {ε α : Type} (a : α) (e : ε) : (some a).okOr e = .ok a := rfl

@[simp] theorem Option.okOr_none {ε α : Type} (e : ε) :
    (none : Option α).okOr e = .error e := rfl

theorem Option.okOr_eq_ok {ε α : Type} {o : Option α} {e : ε} {a : α} :
    o.okOr e = .ok a ↔ o = some a := by
  cases o <;> simp

theorem Option.okOr_eq_error {ε α : Type} {o : Option α} {e e' : ε} :
    o.okOr e = .error e' ↔ o = none ∧ e = e' := by
  cases o <;> simp

/-- How a computation stops short of a value: with an error that it returns, or
    with a panic. -/
inductive Abort (ε : Type) where
  | error (e : ε)
  | panic
  deriving DecidableEq

/-- Relabel the error, keeping a panic a panic. -/
def Abort.map {ε ε' : Type} (f : ε → ε') : Abort ε → Abort ε'
  | .error e => .error (f e)
  | .panic => .panic
