-- SUMMARY: Programs that run one after the other on one medium, and a logic for what holds of it at every moment.
import Cheget.Base.Machine

/-!
# Programs in sequence

Programs run one after the other on one medium. A call answers or fails, a
pending one may have done a part of its work, a process may end at any time, and
at any time the power may be lost. A program is safe for an invariant if the
invariant holds at every such moment, and its postcondition where it returns.
-/

/-- The calls whose answer the medium has no part in. -/
def SysOp.Observes : SysOp → Prop
  | .uniqueSuffix => True
  | .unixTime => True
  | .entropy => True
  | _ => False

namespace Sequence

variable {ε ε' α β κ : Type}

/-! ## Steps -/

/-- An answer to a pending call. A read that fails says that there is no file only
    where there is none. -/
inductive Answers (op : SysOp) (opened : Option (FilePath × Nat)) (written : Nat) (m : Medium) :
    op.Resp → Option (FilePath × Nat) → Medium → Prop
  | acts {resp : op.Resp} {opened' : Option (FilePath × Nat)} {m' : Medium} :
      m.act opened written op = some (resp, m', opened') → Answers op opened written m resp opened' m'
  | observes (resp : op.Resp) : op.Observes → Answers op opened written m resp opened m
  | refuses {e : IoError} {resp : op.Resp} : op.refuse e = some resp →
      (∀ p, op = .read p → e ≠ .notFound) → Answers op opened written m resp opened m

/-- What a pending call has done so far. -/
inductive Parts (op : SysOp) (opened : Option (FilePath × Nat)) (m : Medium) : Nat → Medium → Prop
  | none : Parts op opened m 0 m
  | more {written n : Nat} {m' m'' : Medium} : Parts op opened m written m' →
      m'.part opened written n op = some m'' → Parts op opened m (written + n) m''

inductive Step : Thread ε α → Medium → Thread ε α → Medium → Prop
  | answer {op : SysOp} {cont : op.Resp → SysM ε α} {opened opened' : Option (FilePath × Nat)}
      {written : Nat} {m m' : Medium} {resp : op.Resp} : Answers op opened written m resp opened' m' →
      Step ⟨.exec op cont, opened, written⟩ m ⟨cont resp, opened', 0⟩ m'
  | part {op : SysOp} {cont : op.Resp → SysM ε α} {opened : Option (FilePath × Nat)} {written n : Nat}
      {m m' : Medium} : m.part opened written n op = some m' →
      Step ⟨.exec op cont, opened, written⟩ m ⟨.exec op cont, opened, written + n⟩ m'

/-- What may have happened on a medium: the programs that have been begun, the ones
    that have returned, and the one that is under way. A program is begun where it
    is allowed. -/
inductive History (program : κ → SysM ε α) (Allowed : Medium → κ → Prop) (m₀ : Medium) :
    List κ → List κ → Option (κ × Thread ε α) → Medium → Prop
  | start : History program Allowed m₀ [] [] none m₀
  | call {begun returned : List κ} {m : Medium} (k : κ) :
      History program Allowed m₀ begun returned none m → Allowed m k →
      History program Allowed m₀ (k :: begun) returned (some (k, ⟨program k, none, 0⟩)) m
  | step {begun returned : List κ} {k : κ} {t t' : Thread ε α} {m m' : Medium} :
      History program Allowed m₀ begun returned (some (k, t)) m → Step t m t' m' →
      History program Allowed m₀ begun returned (some (k, t')) m'
  | returns {begun returned : List κ} {k : κ} {a : α} {opened : Option (FilePath × Nat)} {written : Nat}
      {m : Medium} : History program Allowed m₀ begun returned (some (k, ⟨.done a, opened, written⟩)) m →
      History program Allowed m₀ begun (k :: returned) none m
  /-- The program fails, or its process ends. -/
  | stops {begun returned : List κ} {current : Option (κ × Thread ε α)} {m : Medium} :
      History program Allowed m₀ begun returned current m → History program Allowed m₀ begun returned none m
  | powerLoss {begun returned : List κ} {current : Option (κ × Thread ε α)} {m : Medium}
      (kept : FilePath → Option Entry) (found : Nat → Bytes) :
      History program Allowed m₀ begun returned current m → (∀ p, m.MayHold p (kept p)) →
      History program Allowed m₀ begun returned none (m.recover kept found)

/-! ## Safety -/

/-- `I` holds at every moment of the program, and `Q` where it returns. -/
def Safe (I : Medium → Prop) (Q : α → Option (FilePath × Nat) → Medium → Prop) :
    SysM ε α → Option (FilePath × Nat) → Medium → Prop
  | .done a, opened, m => I m ∧ Q a opened m
  | .fail _, _, m => I m
  | .exec op cont, opened, m => ∀ written m', Parts op opened m written m' →
      I m' ∧ ∀ resp opened' m'', Answers op opened written m' resp opened' m'' →
        Safe I Q (cont resp) opened' m''

variable {I J : Medium → Prop} {Q : α → Option (FilePath × Nat) → Medium → Prop}
  {R : β → Option (FilePath × Nat) → Medium → Prop} {p : SysM ε α} {m : Medium}
  {opened : Option (FilePath × Nat)}

theorem Safe.start (h : Safe I Q p opened m) : I m := by
  cases p with
  | done a => exact h.1
  | fail e => exact h
  | exec op cont => exact (h 0 m .none).1

theorem Safe.mono {Q' : α → Option (FilePath × Nat) → Medium → Prop} (h : Safe I Q p opened m)
    (hIJ : ∀ m, I m → J m) (hQ : ∀ a opened m, I m → Q a opened m → Q' a opened m) :
    Safe J Q' p opened m := by
  induction p generalizing opened m with
  | done a => exact ⟨hIJ m h.1, hQ a opened m h.1 h.2⟩
  | fail e => exact hIJ m h
  | exec op cont ih =>
      intro written m' hparts
      obtain ⟨hI, hanswers⟩ := h written m' hparts
      exact ⟨hIJ m' hI, fun resp opened' m'' hanswer => ih resp (hanswers resp opened' m'' hanswer)⟩

theorem Safe.bind {f : α → SysM ε β} (h : Safe I Q p opened m)
    (hf : ∀ a opened m, I m → Q a opened m → Safe I R (f a) opened m) :
    Safe I R (p >>= f) opened m := by
  induction p generalizing opened m with
  | done a => exact hf a opened m h.1 h.2
  | fail e => exact h
  | exec op cont ih =>
      intro written m' hparts
      obtain ⟨hI, hanswers⟩ := h written m' hparts
      exact ⟨hI, fun resp opened' m'' hanswer => ih resp (hanswers resp opened' m'' hanswer)⟩

theorem Safe.attempt (h : Safe I Q p opened m) :
    Safe I (fun (result : Except ε α) opened m => ∀ a, result = .ok a → Q a opened m)
      (p.attempt : SysM ε' (Except ε α)) opened m := by
  induction p generalizing opened m with
  | done a =>
      refine ⟨h.1, fun b hb => ?_⟩
      cases hb
      exact h.2
  | fail e => exact ⟨h, fun b hb => nomatch hb⟩
  | exec op cont ih =>
      intro written m' hparts
      obtain ⟨hI, hanswers⟩ := h written m' hparts
      exact ⟨hI, fun resp opened' m'' hanswer => ih resp (hanswers resp opened' m'' hanswer)⟩

theorem safe_ofExcept {x : Except ε α} (hm : I m) (hQ : ∀ a, x = .ok a → Q a opened m) :
    Safe I Q (Program.ofExcept x) opened m := by
  cases x with
  | ok a => exact ⟨hm, hQ a rfl⟩
  | error e => exact hm

/-- A call that has parts. -/
theorem safe_sys {op : SysOp} {Q : op.Resp → Option (FilePath × Nat) → Medium → Prop}
    (h : ∀ written m', Parts op opened m written m' → I m' ∧
      ∀ resp opened' m'', Answers op opened written m' resp opened' m'' → I m'' ∧ Q resp opened' m'') :
    Safe I Q (sys op : SysM ε op.Resp) opened m := h

theorem safe_whole {op : SysOp} {Q : op.Resp → Option (FilePath × Nat) → Medium → Prop}
    (hpart : ∀ m opened written n, Medium.part m opened written n op = none) (hm : I m)
    (h : ∀ resp opened' m', Answers op opened 0 m resp opened' m' → I m' ∧ Q resp opened' m') :
    Safe I Q (sys op : SysM ε op.Resp) opened m := by
  intro written m' hparts
  have hnone : written = 0 ∧ m' = m := by
    cases hparts with
    | none => exact ⟨rfl, rfl⟩
    | more _ hmore => cases (hpart _ _ _ _).symm.trans hmore
  obtain ⟨rfl, rfl⟩ := hnone
  exact ⟨hm, h⟩

/-- A call that has none, and may fail. -/
theorem safe_call {op : SysOp} {Q : op.Resp → Option (FilePath × Nat) → Medium → Prop}
    (hpart : ∀ m opened written n, Medium.part m opened written n op = none)
    (hop : (op.refuse .notFound).isSome = true) (hm : I m)
    (hact : ∀ resp opened' m', m.act opened 0 op = some (resp, m', opened') → I m' ∧ Q resp opened' m')
    (hrefuse : ∀ e resp, op.refuse e = some resp → (∀ p, op = .read p → e ≠ .notFound) →
      Q resp opened m) : Safe I Q (sys op : SysM ε op.Resp) opened m := by
  apply safe_whole hpart hm
  intro resp opened' m' hanswer
  cases hanswer with
  | acts hanswer => exact hact resp opened' m' hanswer
  | observes _ hobserves => cases op <;> first | exact hobserves.elim | cases hop
  | refuses hanswer hread => exact ⟨hm, hrefuse _ resp hanswer hread⟩

/-- A call that only asks. -/
theorem safe_observe {op : SysOp} {Q : op.Resp → Option (FilePath × Nat) → Medium → Prop}
    (hop : op.Observes) (hm : I m) (hQ : ∀ resp, Q resp opened m) :
    Safe I Q (sys op : SysM ε op.Resp) opened m := by
  apply safe_whole _ hm
  · intro resp opened' m' hanswer
    cases hanswer with
    | acts hact => cases op <;> first | exact hop.elim | cases hact
    | observes => exact ⟨hm, hQ resp⟩
    | refuses hrefuse => cases op <;> first | exact hop.elim | cases hrefuse
  · intro m opened written n
    cases op <;> first | exact hop.elim | rfl

/-! ## Safety over a history -/

/-- Where a safe program stands between two steps. -/
def Standing (I : Medium → Prop) (Q : α → Option (FilePath × Nat) → Medium → Prop) :
    Thread ε α → Medium → Prop
  | ⟨.exec op cont, opened, written⟩, m =>
      ∃ m₀, Safe I Q (.exec op cont) opened m₀ ∧ Parts op opened m₀ written m
  | ⟨p, opened, _⟩, m => Safe I Q p opened m

theorem Safe.standing (h : Safe I Q p opened m) : Standing I Q ⟨p, opened, 0⟩ m := by
  cases p with
  | done a => exact h
  | fail e => exact h
  | exec op cont => exact ⟨m, h, .none⟩

theorem Standing.start {t : Thread ε α} (h : Standing I Q t m) : I m := by
  obtain ⟨p, opened, written⟩ := t
  cases p with
  | done a => exact h.1
  | fail e => exact h
  | exec op cont =>
      obtain ⟨m₀, hsafe, hparts⟩ := h
      exact (hsafe written m hparts).1

theorem Standing.step {t t' : Thread ε α} {m' : Medium} (h : Standing I Q t m) (hstep : Step t m t' m') :
    Standing I Q t' m' := by
  cases hstep with
  | answer hanswer =>
      obtain ⟨m₀, hsafe, hparts⟩ := h
      exact ((hsafe _ _ hparts).2 _ _ _ hanswer).standing
  | part hpart =>
      obtain ⟨m₀, hsafe, hparts⟩ := h
      exact ⟨m₀, hsafe, hparts.more hpart⟩

/-- What every program keeps that is allowed to begin, and every loss of power,
    holds at every moment of a history. -/
theorem History.keeps {program : κ → SysM ε α} {Allowed : Medium → κ → Prop} {m₀ : Medium}
    {I : List κ → List κ → Medium → Prop} (hstart : I [] [] m₀)
    (hcall : ∀ begun returned m k, I begun returned m → Allowed m k →
      Safe (I (k :: begun) returned) (fun _ _ => I (k :: begun) (k :: returned)) (program k) none m)
    (hloss : ∀ begun returned m kept found, I begun returned m → (∀ p, m.MayHold p (kept p)) →
      I begun returned (m.recover kept found))
    {begun returned : List κ} {current : Option (κ × Thread ε α)}
    (h : History program Allowed m₀ begun returned current m) : I begun returned m := by
  suffices hall : I begun returned m ∧ ∀ k t, current = some (k, t) →
      Standing (I begun returned) (fun _ _ => I begun (k :: returned)) t m from hall.1
  induction h with
  | start => exact ⟨hstart, fun k t ht => nomatch ht⟩
  | call k _ hallowed ih =>
      have hsafe := hcall _ _ _ k ih.1 hallowed
      refine ⟨hsafe.start, fun j t ht => ?_⟩
      cases ht
      exact hsafe.standing
  | step _ hstep ih =>
      have hstanding := (ih.2 _ _ rfl).step hstep
      refine ⟨hstanding.start, fun j t ht => ?_⟩
      cases ht
      exact hstanding
  | returns _ ih => exact ⟨(ih.2 _ _ rfl).2, fun k t ht => nomatch ht⟩
  | stops _ ih => exact ⟨ih.1, fun k t ht => nomatch ht⟩
  | powerLoss kept found _ hkept ih =>
      exact ⟨hloss _ _ _ kept found ih.1 hkept, fun k t ht => nomatch ht⟩

/-! ## Runs without faults -/

/-- The answer to a call that does not fail. -/
def reply (suffix : String) (m : Medium) (opened : Option (FilePath × Nat)) (written : Nat) :
    (op : SysOp) → Option (op.Resp × Medium × Option (FilePath × Nat))
  | .uniqueSuffix => some (suffix, m, opened)
  | .unixTime => some (0, m, opened)
  | .entropy => some ([], m, opened)
  | op => m.act opened written op

theorem answers_reply {suffix : String} {op : SysOp} {resp : op.Resp} {opened' : Option (FilePath × Nat)}
    {written : Nat} {m' : Medium} (h : reply suffix m opened written op = some (resp, m', opened')) :
    Answers op opened written m resp opened' m' := by
  unfold reply at h
  split at h
  · cases h
    exact .observes _ trivial
  · cases h
    exact .observes _ trivial
  · cases h
    exact .observes _ trivial
  · exact .acts h

/-- At most this many calls, none of which fails. -/
def proceed (suffix : Nat → String) : Nat → Thread ε α → Medium → Thread ε α × Medium
  | 0, t, m => (t, m)
  | n + 1, ⟨.exec op cont, opened, written⟩, m =>
      match reply (suffix n) m opened written op with
      | some (resp, m', opened') => proceed suffix n ⟨cont resp, opened', 0⟩ m'
      | none => (⟨.exec op cont, opened, written⟩, m)
  | _ + 1, t, m => (t, m)

theorem History.proceed {program : κ → SysM ε α} {Allowed : Medium → κ → Prop} {m₀ : Medium}
    {begun returned : List κ} {k : κ} {t : Thread ε α} (suffix : Nat → String) (n : Nat)
    (h : History program Allowed m₀ begun returned (some (k, t)) m) :
    History program Allowed m₀ begun returned (some (k, (Sequence.proceed suffix n t m).1))
      (Sequence.proceed suffix n t m).2 := by
  induction n generalizing t m with
  | zero => exact h
  | succ n ih =>
      obtain ⟨p, opened, written⟩ := t
      cases p with
      | done a => exact h
      | fail e => exact h
      | exec op cont =>
          unfold Sequence.proceed
          split
          · next hreply => exact ih (h.step (.answer (answers_reply hreply)))
          · exact h

/-- Whether a thread has returned. -/
def returned : Thread ε α → Option α
  | ⟨.done a, _, _⟩ => some a
  | _ => none

theorem History.of_returned {program : κ → SysM ε α} {Allowed : Medium → κ → Prop} {m₀ : Medium}
    {begun back : List κ} {k : κ} {t : Thread ε α} {a : α}
    (h : History program Allowed m₀ begun back (some (k, t)) m) (ht : returned t = some a) :
    History program Allowed m₀ begun (k :: back) none m := by
  obtain ⟨p, opened, written⟩ := t
  cases p with
  | done b => exact h.returns
  | fail e => cases ht
  | exec op cont => cases ht

end Sequence
