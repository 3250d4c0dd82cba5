-- SUMMARY: Programs that take turns on one shared state, and when each of them behaves as if it ran alone.
import Cheget.Base.Program
import Mathlib.Logic.Function.Iterate

/-!
# Interleaving

A family of programs shares one state. A schedule names, step by step, the
program that performs its next operation. Each program is compared with a run
of its own, on a state of its own: a relation between the shared state and the
private one that the program's own operations keep, and that the operations of
the others do not disturb, makes the two runs agree.
-/

namespace Program

variable {Op : Type} {Resp : Op → Type} {ε α σ τ : Type}

/-! ## Single steps -/

/-- Perform the next operation, if there is one. -/
def stepAlone (h : Handler Op Resp τ) : Program Op Resp ε α × τ → Program Op Resp ε α × τ
  | (.exec op k, t) => (k (h op t).1, (h op t).2)
  | (.done a, t) => (.done a, t)
  | (.fail e, t) => (.fail e, t)

/-- What is left after a number of steps. -/
def stepsAlone (h : Handler Op Resp τ) (n : Nat) (p : Program Op Resp ε α) (t : τ) :
    Program Op Resp ε α × τ :=
  (stepAlone h)^[n] (p, t)

theorem stepsAlone_succ (h : Handler Op Resp τ) (n : Nat) (p : Program Op Resp ε α) (t : τ) :
    stepsAlone h (n + 1) p t = stepAlone h (stepsAlone h n p t) :=
  Function.iterate_succ_apply' _ _ _

/-- A step does not change how the program will end. -/
theorem result_stepAlone (h : Handler Op Resp τ) (x : Program Op Resp ε α × τ) :
    ((stepAlone h x).1.run h (stepAlone h x).2).result = (x.1.run h x.2).result := by
  obtain ⟨p, t⟩ := x
  cases p <;> rfl

theorem result_stepsAlone (h : Handler Op Resp τ) (n : Nat) (p : Program Op Resp ε α) (t : τ) :
    ((stepsAlone h n p t).1.run h (stepsAlone h n p t).2).result = (p.run h t).result := by
  induction n with
  | zero => rfl
  | succ n ih => rw [stepsAlone_succ, result_stepAlone, ih]

theorem stepsAlone_done (h : Handler Op Resp τ) (n : Nat) (a : α) (t : τ) :
    stepsAlone h n (.done a : Program Op Resp ε α) t = (.done a, t) :=
  Function.iterate_fixed rfl n

theorem stepsAlone_fail (h : Handler Op Resp τ) (n : Nat) (e : ε) (t : τ) :
    stepsAlone h n (.fail e : Program Op Resp ε α) t = (.fail e, t) :=
  Function.iterate_fixed rfl n

/-- As many steps as the run performs operations bring the program to its end. -/
theorem stepsAlone_of_le (h : Handler Op Resp τ) (p : Program Op Resp ε α) (t : τ) {n : Nat}
    (hn : (p.run h t).trace.length ≤ n) :
    (stepsAlone h n p t).1 = ofExcept (p.run h t).result := by
  induction p generalizing t n with
  | done a => rw [stepsAlone_done]; rfl
  | fail e => rw [stepsAlone_fail]; rfl
  | exec op k ih =>
      cases n with
      | zero => simp [run_exec] at hn
      | succ n =>
          have hstep : stepsAlone h (n + 1) (.exec op k) t =
              stepsAlone h n (k (h op t).1) (h op t).2 := rfl
          rw [hstep]
          exact ih (h op t).1 (h op t).2 (by simpa [run_exec] using hn)

/-- The value that a program has ended with. -/
def returned : Program Op Resp ε α → Option α
  | .done a => some a
  | .fail _ => none
  | .exec _ _ => none

theorem returned_eq_some {p : Program Op Resp ε α} {a : α} : p.returned = some a ↔ p = .done a := by
  cases p <;> simp [returned]

/-! ## Taking turns -/

/-- Programs that run side by side: what is left of each, and the shared state. -/
structure Crew (ι : Type) (Op : Type) (Resp : Op → Type) (σ ε α : Type) where
  programs : ι → Program Op Resp ε α
  state : σ

namespace Crew

variable {ι : Type} [DecidableEq ι]

/-- Program `k` performs its next operation, if it has one. -/
def step (h : ι → Handler Op Resp σ) (crew : Crew ι Op Resp σ ε α) (k : ι) :
    Crew ι Op Resp σ ε α :=
  match crew.programs k with
  | .exec op cont =>
      { programs := Function.update crew.programs k (cont (h k op crew.state).1)
        state := (h k op crew.state).2 }
  | .done _ => crew
  | .fail _ => crew

/-- The crew after a schedule. -/
def after (h : ι → Handler Op Resp σ) (crew : Crew ι Op Resp σ ε α) (schedule : List ι) :
    Crew ι Op Resp σ ε α :=
  schedule.foldl (step h) crew

/-- The operation that program `k` would perform next. -/
def next (crew : Crew ι Op Resp σ ε α) (k : ι) : Option Op :=
  match crew.programs k with
  | .exec op _ => some op
  | .done _ => none
  | .fail _ => none

/-- The operations that a schedule performs, in order. -/
def performed (h : ι → Handler Op Resp σ) : Crew ι Op Resp σ ε α → List ι → List Op
  | _, [] => []
  | crew, k :: schedule => (crew.next k).toList ++ performed h (step h crew k) schedule

/-! ## Non-interference -/

/-- The laws under which no program notices the others. `Allowed k` bounds the
    operations of program `k`, `Safe` holds of every operation that is
    performed, and `Rel k` relates the shared state to the private one of `k`. -/
structure Isolation (h : ι → Handler Op Resp σ) (alone : ι → Handler Op Resp τ)
    (Allowed : ι → Op → Prop) (Safe : Op → Prop) (Rel : ι → σ → τ → Prop) : Prop where
  /-- An own operation gets the same response and keeps the relation. -/
  own : ∀ k op s t, Allowed k op → Safe op → Rel k s t →
    (h k op s).1 = (alone k op t).1 ∧ Rel k (h k op s).2 (alone k op t).2
  /-- An operation of another program is not noticed. -/
  other : ∀ j k op s t, j ≠ k → Allowed j op → Safe op → Rel k s t → Rel k (h j op s).2 t

variable {h : ι → Handler Op Resp σ} {alone : ι → Handler Op Resp τ} {Allowed : ι → Op → Prop}
  {Safe : Op → Prop} {Rel : ι → σ → τ → Prop}

/-- What is left of every program stays within its bound. -/
theorem uses_step {crew : Crew ι Op Resp σ ε α} (huses : ∀ k, (crew.programs k).Uses (Allowed k))
    (j k : ι) : ((crew.step h j).programs k).Uses (Allowed k) := by
  unfold step
  split
  · next op cont hj =>
      have hown := huses j
      rw [hj] at hown
      by_cases hjk : k = j
      · subst hjk
        simpa using hown.2 _
      · simpa [hjk] using huses k
  · exact huses k
  · exact huses k

/-- One turn: the program whose turn it is makes its own step, and the others
    are where they were. -/
theorem Isolation.step (hiso : Isolation h alone Allowed Safe Rel) {crew : Crew ι Op Resp σ ε α}
    (huses : ∀ k, (crew.programs k).Uses (Allowed k)) (j k : ι)
    (hsafe : ∀ op, crew.next j = some op → Safe op) {t : τ} (hrel : Rel k crew.state t) :
    (crew.step h j).programs k =
        (if j = k then (stepAlone (alone k) (crew.programs k, t)).1 else crew.programs k) ∧
      Rel k (crew.step h j).state
        (if j = k then (stepAlone (alone k) (crew.programs k, t)).2 else t) := by
  unfold Crew.step
  cases hj : crew.programs j with
  | done a =>
      by_cases hjk : j = k
      · subst hjk
        simp [stepAlone, hj, hrel]
      · simp [hjk, hrel]
  | fail e =>
      by_cases hjk : j = k
      · subst hjk
        simp [stepAlone, hj, hrel]
      · simp [hjk, hrel]
  | exec op cont =>
      have hallowed : Allowed j op := by
        have hown := huses j
        rw [hj] at hown
        exact hown.1
      have hop : Safe op := hsafe op (by rw [next, hj])
      by_cases hjk : j = k
      · subst hjk
        obtain ⟨hresp, hkeep⟩ := hiso.own j op crew.state t hallowed hop hrel
        simp [stepAlone, hj, hresp, hkeep]
      · simp only [hjk, if_false]
        exact ⟨Function.update_of_ne (Ne.symm hjk) _ _,
          hiso.other j k op crew.state t hjk hallowed hop hrel⟩

/-- Over any schedule, every program is where it would be had it made its own
    steps alone. -/
theorem Isolation.after (hiso : Isolation h alone Allowed Safe Rel) (crew : Crew ι Op Resp σ ε α)
    (schedule : List ι) (huses : ∀ k, (crew.programs k).Uses (Allowed k))
    (hsafe : ∀ op ∈ crew.performed h schedule, Safe op) (k : ι) {t : τ}
    (hrel : Rel k crew.state t) :
    (crew.after h schedule).programs k =
        (stepsAlone (alone k) (schedule.count k) (crew.programs k) t).1 ∧
      Rel k (crew.after h schedule).state
        (stepsAlone (alone k) (schedule.count k) (crew.programs k) t).2 := by
  induction schedule generalizing crew t with
  | nil => exact ⟨rfl, hrel⟩
  | cons j schedule ih =>
      obtain ⟨hprogram, hstate⟩ := hiso.step huses j k
        (fun op hop => hsafe op (List.mem_append_left _ (by simp [hop]))) hrel
      have hrest := ih (crew.step h j) (uses_step huses j)
        (fun op hop => hsafe op (List.mem_append_right _ hop)) hstate
      by_cases hjk : j = k
      · subst hjk
        simp only [if_true] at hprogram hrest
        rw [hprogram] at hrest
        rw [List.count_cons_self]
        exact hrest
      · simp only [hjk, if_false] at hprogram hrest
        rw [hprogram] at hrest
        rw [List.count_cons_of_ne hjk]
        exact hrest

end Crew

end Program
