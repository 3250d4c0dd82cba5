-- SUMMARY: A value that the transactions of several connections change, one writer at a time.
import Mathlib.Logic.Function.Basic

/-!
# Transactions

Connections share one value. A transaction changes a copy of its own, from its
first write on as the only writer, and a commit puts the copy in the place of
the value. Everyone else sees the value as it was last committed.
-/

/-- The committed value, the connections that are inside a transaction, and the
    one that has written in its own, with its copy. -/
structure Transactional (ι D : Type) where
  committed : D
  begun : ι → Bool
  writer : Option (ι × D)

namespace Transactional

variable {ι D E : Type} [DecidableEq ι]

/-- What connection `k` sees. -/
def view (s : Transactional ι D) (k : ι) : D :=
  match s.writer with
  | some (j, copy) => if j = k then copy else s.committed
  | none => s.committed

/-- Another connection is the writer. -/
def blocked (s : Transactional ι D) (k : ι) : Bool :=
  match s.writer with
  | some (j, _) => decide (j ≠ k)
  | none => false

def enter (s : Transactional ι D) (k : ι) : Transactional ι D :=
  { s with begun := Function.update s.begun k true }

/-- A write waits while it is blocked. Outside a transaction it is one of its own,
    and what fails there changes nothing. -/
def write (f : D → Except E Unit × D) (s : Transactional ι D) (k : ι) :
    Option (Except E Unit × Transactional ι D) :=
  if s.blocked k = true then none
  else
    let (result, copy) := f (s.view k)
    some (result,
      if s.begun k = true then { s with writer := some (k, copy) }
      else
        match result with
        | .ok () => { s with committed := copy }
        | .error _ => s)

/-- The transaction of connection `k`, if any, ends without a trace. -/
def rollback (s : Transactional ι D) (k : ι) : Transactional ι D where
  committed := s.committed
  begun := Function.update s.begun k false
  writer := if s.blocked k = true then s.writer else none

/-- The transaction of connection `k`, if any, takes effect. -/
def commit (s : Transactional ι D) (k : ι) : Transactional ι D where
  committed := s.view k
  begun := Function.update s.begun k false
  writer := if s.blocked k = true then s.writer else none

/-! ## The writer -/

variable {s : Transactional ι D} {k : ι}

/-- Connection `k` is not the writer. -/
def Reads (s : Transactional ι D) (k : ι) : Prop := ∀ copy, s.writer ≠ some (k, copy)

/-- Connection `k` is in no transaction. -/
def Idle (s : Transactional ι D) (k : ι) : Prop := s.begun k = false ∧ s.Reads k

theorem view_of_writer {copy : D} (h : s.writer = some (k, copy)) : s.view k = copy := by
  rw [view, h]
  exact if_pos rfl

theorem view_of_reads (h : s.Reads k) : s.view k = s.committed := by
  unfold view
  split
  · next j copy hwriter =>
      apply if_neg
      intro hj
      subst hj
      exact h copy hwriter
  · rfl

theorem not_blocked_of_writer {copy : D} (h : s.writer = some (k, copy)) : s.blocked k = false := by
  simp [blocked, h]

theorem blocked_of_writer {j : ι} {copy : D} (h : s.writer = some (j, copy)) (hjk : j ≠ k) :
    s.blocked k = true := by
  simp [blocked, h, hjk]

theorem write_blocked {f : D → Except E Unit × D} (h : s.blocked k = true) : s.write f k = none :=
  if_pos h

theorem free_of_write {f : D → Except E Unit × D} {served : Except E Unit × Transactional ι D}
    (h : s.write f k = some served) : s.blocked k = false := by
  cases hblocked : s.blocked k with
  | false => rfl
  | true =>
      rw [write_blocked hblocked] at h
      cases h

/-- A write inside a transaction changes the copy only. -/
theorem write_begun {f : D → Except E Unit × D} (hfree : s.blocked k = false)
    (hbegun : s.begun k = true) :
    s.write f k = some ((f (s.view k)).1, { s with writer := some (k, (f (s.view k)).2) }) := by
  simp [write, hfree, hbegun]

theorem of_write_begun {f : D → Except E Unit × D} {result : Except E Unit} {s' : Transactional ι D}
    (hbegun : s.begun k = true) (h : s.write f k = some (result, s')) :
    result = (f (s.view k)).1 ∧ s' = { s with writer := some (k, (f (s.view k)).2) } := by
  rw [write_begun (free_of_write h) hbegun] at h
  cases h
  exact ⟨rfl, rfl⟩

/-- Outside a transaction a write that works takes effect at once. -/
theorem write_alone {f : D → Except E Unit × D} {copy : D} (hfree : s.blocked k = false)
    (hbegun : s.begun k = false) (hf : f (s.view k) = (.ok (), copy)) :
    s.write f k = some (.ok (), { s with committed := copy }) := by
  simp [write, hfree, hbegun, hf]

theorem free_of_writer (h : s.writer = none) : s.blocked k = false := by
  rw [blocked, h]

/-- Nobody is the writer where a connection that is not need not wait. -/
theorem writer_of_free (hfree : s.blocked k = false) (hreads : s.Reads k) : s.writer = none := by
  cases hwriter : s.writer with
  | none => rfl
  | some held =>
      obtain ⟨j, copy⟩ := held
      have hjk : j ≠ k := by
        rintro rfl
        exact hreads copy hwriter
      rw [blocked, hwriter] at hfree
      exact absurd hjk (of_decide_eq_false hfree)

theorem commit_of_writer {copy : D} (h : s.writer = some (k, copy)) :
    s.commit k = ⟨copy, Function.update s.begun k false, none⟩ := by
  simp [commit, view_of_writer h, not_blocked_of_writer h]

theorem idle_of_commit {copy : D} (h : s.writer = some (k, copy)) : (s.commit k).Idle k := by
  rw [commit_of_writer h]
  refine ⟨Function.update_self _ _ _, fun copy' hcopy' => ?_⟩
  cases hcopy'

theorem idle_rollback (s : Transactional ι D) (k : ι) : (s.rollback k).Idle k := by
  refine ⟨Function.update_self _ _ _, fun copy hcopy => ?_⟩
  unfold rollback at hcopy
  dsimp only at hcopy
  split at hcopy
  · next hblocked =>
      rw [not_blocked_of_writer hcopy] at hblocked
      cases hblocked
  · cases hcopy

/-! ## The other connections -/

/-- Connection `j` is where it was: inside its transaction or not, with its copy or
    without. -/
def Undisturbed (s s' : Transactional ι D) (j : ι) : Prop :=
  s'.begun j = s.begun j ∧ ∀ copy, s'.writer = some (j, copy) ↔ s.writer = some (j, copy)

/-- A call of connection `k` that failed has changed nothing but its own transaction,
    and begun none. -/
structure Withheld (s s' : Transactional ι D) (k : ι) : Prop where
  committed : s'.committed = s.committed
  others : ∀ j, j ≠ k → Undisturbed s s' j
  idle : s.Idle k → s'.Idle k

variable {j : ι}

omit [DecidableEq ι] in
theorem Undisturbed.refl (s : Transactional ι D) (j : ι) : Undisturbed s s j := ⟨rfl, fun _ => Iff.rfl⟩

omit [DecidableEq ι] in
theorem Withheld.refl (s : Transactional ι D) (k : ι) : Withheld s s k :=
  ⟨rfl, fun j _ => Undisturbed.refl s j, id⟩

omit [DecidableEq ι] in
theorem Undisturbed.reads {s' : Transactional ι D} (h : Undisturbed s s' j) (hreads : s.Reads j) :
    s'.Reads j :=
  fun copy hcopy => hreads copy ((h.2 copy).mp hcopy)

omit [DecidableEq ι] in
theorem Undisturbed.idle {s' : Transactional ι D} (h : Undisturbed s s' j) (hidle : s.Idle j) :
    s'.Idle j :=
  ⟨h.1.trans hidle.1, h.reads hidle.2⟩

theorem undisturbed_enter (hjk : j ≠ k) : Undisturbed s (s.enter k) j :=
  ⟨Function.update_of_ne hjk _ _, fun _ => Iff.rfl⟩

/-- Ending a transaction takes the lock from its own connection only. -/
theorem writer_release (hjk : j ≠ k) (copy : D) :
    (if s.blocked k = true then s.writer else none) = some (j, copy) ↔
      s.writer = some (j, copy) := by
  split
  · exact Iff.rfl
  · next hfree =>
      constructor
      · intro h
        cases h
      · intro h
        exact absurd (blocked_of_writer h hjk) hfree

theorem undisturbed_rollback (hjk : j ≠ k) : Undisturbed s (s.rollback k) j :=
  ⟨Function.update_of_ne hjk _ _, writer_release hjk⟩

theorem undisturbed_commit (hjk : j ≠ k) : Undisturbed s (s.commit k) j :=
  ⟨Function.update_of_ne hjk _ _, writer_release hjk⟩

theorem undisturbed_write {f : D → Except E Unit × D} {result : Except E Unit}
    {s' : Transactional ι D} (hbegun : s.begun k = true) (hjk : j ≠ k)
    (h : s.write f k = some (result, s')) : Undisturbed s s' j := by
  cases hfree : s.blocked k with
  | true =>
      rw [write_blocked hfree] at h
      cases h
  | false =>
      rw [write_begun hfree hbegun] at h
      cases h
      refine ⟨rfl, fun copy => ?_⟩
      constructor
      · intro hwriter
        cases hwriter
        exact absurd rfl hjk
      · intro hwriter
        rw [blocked_of_writer hwriter hjk] at hfree
        cases hfree

end Transactional
