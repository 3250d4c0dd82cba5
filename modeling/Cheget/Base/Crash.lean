-- SUMMARY: Invariants that hold at every point of a run and so outlive an interruption anywhere, and runs that keep a record.
import Cheget.Base.Program

/-!
# Interrupted runs

A process may stop between any two of its operations. What is left is the
handler's state after the operations performed so far. A program keeps an
invariant when it holds in each of these states; the rules here establish that
from the parts of the program.
-/

namespace Program

variable {Op : Type} {Resp : Op → Type} {ε ε' α β γ σ : Type}

/-- `I` holds at every point of a run from `s`, and `Q` where it returns. -/
def Keeps (h : Handler Op Resp σ) (I : σ → Prop) (Q : α → σ → Prop) :
    Program Op Resp ε α → σ → Prop
  | .done a, s => I s ∧ Q a s
  | .fail _, s => I s
  | .exec op k, s => I s ∧ (k (h op s).1).Keeps h I Q (h op s).2

variable {h : Handler Op Resp σ} {I : σ → Prop}

theorem Keeps.start {Q : α → σ → Prop} {p : Program Op Resp ε α} {s : σ} (hp : p.Keeps h I Q s) :
    I s := by
  cases p with
  | done a => exact hp.1
  | fail e => exact hp
  | exec op k => exact hp.1

theorem Keeps.state {Q : α → σ → Prop} {p : Program Op Resp ε α} {s : σ} (hp : p.Keeps h I Q s) :
    I (p.run h s).state := by
  induction p generalizing s with
  | done a => exact hp.1
  | fail e => exact hp
  | exec op k ih => exact ih _ hp.2

theorem Keeps.result {Q : α → σ → Prop} {p : Program Op Resp ε α} {s : σ} (hp : p.Keeps h I Q s)
    {a : α} (ha : (p.run h s).result = .ok a) : Q a (p.run h s).state := by
  induction p generalizing s with
  | done b =>
      cases ha
      exact hp.2
  | fail e => cases ha
  | exec op k ih => exact ih _ hp.2 ha

/-- Interrupted after any number of operations, the run leaves the invariant. -/
theorem Keeps.interrupt {Q : α → σ → Prop} {p : Program Op Resp ε α} {s : σ}
    (hp : p.Keeps h I Q s) (n : Nat) : I (replay h s ((p.run h s).trace.take n)) := by
  induction p generalizing s n with
  | done a => simpa using hp.1
  | fail e => simpa [Keeps] using hp
  | exec op k ih =>
      cases n with
      | zero => exact hp.1
      | succ n => exact ih _ hp.2 n

theorem keeps_perform {op : Op} {Q : Resp op → σ → Prop} {s : σ} (hs : I s)
    (hstep : I (h op s).2) (hQ : Q (h op s).1 (h op s).2) :
    (perform op : Program Op Resp ε (Resp op)).Keeps h I Q s :=
  ⟨hs, hstep, hQ⟩

theorem keeps_ofExcept {Q : α → σ → Prop} {x : Except ε α} {s : σ} (hs : I s)
    (hQ : ∀ a, x = .ok a → Q a s) : (ofExcept x : Program Op Resp ε α).Keeps h I Q s := by
  cases x with
  | ok a => exact ⟨hs, hQ a rfl⟩
  | error e => exact hs

theorem Keeps.bind {Q : α → σ → Prop} {R : β → σ → Prop} {p : Program Op Resp ε α}
    {f : α → Program Op Resp ε β} {s : σ} (hp : p.Keeps h I Q s)
    (hf : ∀ a s', I s' → Q a s' → (f a).Keeps h I R s') : (p >>= f).Keeps h I R s := by
  induction p generalizing s with
  | done a => exact hf a s hp.1 hp.2
  | fail e => exact hp
  | exec op k ih => exact ⟨hp.1, ih _ hp.2⟩

theorem Keeps.mono {Q R : α → σ → Prop} {p : Program Op Resp ε α} {s : σ} (hp : p.Keeps h I Q s)
    (hQR : ∀ a s', Q a s' → R a s') : p.Keeps h I R s := by
  induction p generalizing s with
  | done a => exact ⟨hp.1, hQR a s hp.2⟩
  | fail e => exact hp
  | exec op k ih => exact ⟨hp.1, ih _ hp.2⟩

/-- A weaker invariant. -/
theorem Keeps.weaken {J : σ → Prop} {Q : α → σ → Prop} {p : Program Op Resp ε α} {s : σ}
    (hp : p.Keeps h I Q s) (hIJ : ∀ s', I s' → J s') : p.Keeps h J Q s := by
  induction p generalizing s with
  | done a => exact ⟨hIJ s hp.1, hp.2⟩
  | fail e => exact hIJ s hp
  | exec op k ih => exact ⟨hIJ s hp.1, ih _ hp.2⟩

theorem Keeps.mapError {Q : α → σ → Prop} {p : Program Op Resp ε α} {s : σ}
    (hp : p.Keeps h I Q s) (f : ε → ε') : (p.mapError f).Keeps h I Q s := by
  induction p generalizing s with
  | done a => exact hp
  | fail e => exact hp
  | exec op k ih => exact ⟨hp.1, ih _ hp.2⟩

theorem Keeps.attempt {Q : α → σ → Prop} {p : Program Op Resp ε α} {s : σ}
    (hp : p.Keeps h I Q s) :
    (p.attempt : Program Op Resp ε' (Except ε α)).Keeps h I
      (fun r s' => ∀ a, r = .ok a → Q a s') s := by
  induction p generalizing s with
  | done a =>
      refine ⟨hp.1, fun b hb => ?_⟩
      cases hb
      exact hp.2
  | fail e => exact ⟨hp, fun b hb => nomatch hb⟩
  | exec op k ih => exact ⟨hp.1, ih _ hp.2⟩

/-- Where an attempt has failed, the invariant is what is left. -/
theorem Keeps.attempt_or {Q : α → σ → Prop} {p : Program Op Resp ε α} {s : σ} (hp : p.Keeps h I Q s) :
    (p.attempt : Program Op Resp ε' (Except ε α)).Keeps h I
      (fun r s' => match r with | .ok a => Q a s' | .error _ => I s') s := by
  induction p generalizing s with
  | done a => exact hp
  | fail e => exact ⟨hp, hp⟩
  | exec op k ih => exact ⟨hp.1, ih _ hp.2⟩

/-- What every allowed operation keeps, the program keeps. -/
theorem Uses.keeps {P : Op → Prop} {p : Program Op Resp ε α} (hp : p.Uses P)
    (hstep : ∀ op s, P op → I s → I (h op s).2) {s : σ} (hs : I s) :
    p.Keeps h I (fun _ _ => True) s := by
  induction p generalizing s with
  | done a => exact ⟨hs, trivial⟩
  | fail e => exact hs
  | exec op k ih => exact ⟨hs, ih _ (hp.2 _) (hstep op s hp.1 hs)⟩

/-- A loop keeps what every round of it keeps. -/
theorem Keeps.forM {f : β → Program Op Resp ε PUnit} {xs : List β} {s : σ} (hs : I s)
    (hf : ∀ x ∈ xs, ∀ s, I s → (f x).Keeps h I (fun _ _ => True) s) :
    (xs.forM f).Keeps h I (fun _ _ => True) s := by
  induction xs generalizing s with
  | nil => exact ⟨hs, trivial⟩
  | cons x xs ih =>
      have hcons : (x :: xs).forM f = (f x >>= fun _ => xs.forM f) := rfl
      rw [hcons]
      exact (hf x List.mem_cons_self s hs).bind
        (fun _ s' hs' _ => ih hs' (fun y hy => hf y (List.mem_cons_of_mem _ hy)))

/-! ## Recorded runs -/

/-- The handler that also writes down what `note` says of every operation. -/
def record (h : Handler Op Resp σ) (note : Event Op Resp → Option β) :
    Handler Op Resp (σ × List β) :=
  fun op s => ((h op s.1).1, (h op s.1).2, s.2 ++ (note ⟨op, (h op s.1).1⟩).toList)

variable {note : Event Op Resp → Option β}

/-- Keeping a record changes nothing else. -/
theorem run_record (p : Program Op Resp ε α) (s : σ × List β) :
    (p.run (record h note) s).trace = (p.run h s.1).trace ∧
      (p.run (record h note) s).result = (p.run h s.1).result ∧
      (p.run (record h note) s).state.1 = (p.run h s.1).state := by
  induction p generalizing s with
  | done a => exact ⟨rfl, rfl, rfl⟩
  | fail e => exact ⟨rfl, rfl, rfl⟩
  | exec op k ih =>
      obtain ⟨htrace, hresult, hstate⟩ := ih (h op s.1).1 (record h note op s).2
      exact ⟨congrArg _ htrace, hresult, hstate⟩

theorem run_record_log (p : Program Op Resp ε α) (s : σ × List β) :
    (p.run (record h note) s).state.2 = s.2 ++ (p.run h s.1).trace.filterMap note := by
  induction p generalizing s with
  | done a => exact (List.append_nil _).symm
  | fail e => exact (List.append_nil _).symm
  | exec op k ih =>
      rw [run_exec, run_exec, List.filterMap_cons]
      refine (ih (h op s.1).1 (record h note op s).2).trans ?_
      simp only [record]
      cases note ⟨op, (h op s.1).1⟩ <;> simp

/-- The record of a run that is interrupted. -/
theorem replay_record_log (p : Program Op Resp ε α) (s : σ × List β) (n : Nat) :
    (replay (record h note) s ((p.run (record h note) s).trace.take n)).2 =
      s.2 ++ ((p.run (record h note) s).trace.take n).filterMap note := by
  induction p generalizing s n with
  | done a => simp
  | fail e => simp
  | exec op k ih =>
      cases n with
      | zero => simp
      | succ n =>
          rw [run_exec, List.take_succ_cons, List.filterMap_cons]
          refine (ih (h op s.1).1 (record h note op s).2 n).trans ?_
          simp only [record]
          cases note ⟨op, (h op s.1).1⟩ <;> simp

end Program
