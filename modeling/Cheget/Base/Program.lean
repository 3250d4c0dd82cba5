-- SUMMARY: Interaction programs over an effect signature: the monad, running against a handler, traces, and effect bounds.
import Mathlib.Data.List.Basic

/-!
# Interaction programs

A program is a tree: it ends with a value, ends with a failure, or performs an
operation and continues with the response. Nothing here fixes the operations.
A *handler* answers them from a state; running a program against a handler
gives the trace of the operations performed, the result, and the final state.
-/

/-- A program over the operations `Op`, whose response types are `Resp`. A
    failure ends the program at once, like an early return. -/
inductive Program (Op : Type) (Resp : Op → Type) (ε α : Type) where
  | done (a : α)
  | fail (e : ε)
  | exec (op : Op) (k : Resp op → Program Op Resp ε α)

/-- One operation together with the response it got. -/
structure Event (Op : Type) (Resp : Op → Type) where
  op : Op
  resp : Resp op

/-- A handler answers every operation and updates its state. -/
abbrev Handler (Op : Type) (Resp : Op → Type) (σ : Type) := (op : Op) → σ → Resp op × σ

namespace Program

variable {Op : Type} {Resp : Op → Type} {ε ε' α β γ σ : Type}

/-! ## The monad -/

def bind : Program Op Resp ε α → (α → Program Op Resp ε β) → Program Op Resp ε β
  | .done a, f => f a
  | .fail e, _ => .fail e
  | .exec op k, f => .exec op (fun r => (k r).bind f)

instance : Monad (Program Op Resp ε) where
  pure := .done
  bind := bind

@[simp] theorem pure_def (a : α) : (pure a : Program Op Resp ε α) = .done a := rfl

@[simp] theorem done_bind (a : α) (f : α → Program Op Resp ε β) :
    (Program.done a >>= f) = f a := rfl

@[simp] theorem fail_bind (e : ε) (f : α → Program Op Resp ε β) :
    ((Program.fail e : Program Op Resp ε α) >>= f) = .fail e := rfl

@[simp] theorem exec_bind (op : Op) (k : Resp op → Program Op Resp ε α)
    (f : α → Program Op Resp ε β) :
    (Program.exec op k >>= f) = .exec op (fun r => k r >>= f) := rfl

private theorem bind_done (p : Program Op Resp ε α) : p.bind .done = p := by
  induction p with
  | done a => rfl
  | fail e => rfl
  | exec op k ih => simp only [bind, ih]

private theorem bind_bind (p : Program Op Resp ε α) (f : α → Program Op Resp ε β)
    (g : β → Program Op Resp ε γ) :
    (p.bind f).bind g = p.bind (fun a => (f a).bind g) := by
  induction p with
  | done a => rfl
  | fail e => rfl
  | exec op k ih => simp only [bind, ih]

instance : LawfulMonad (Program Op Resp ε) :=
  LawfulMonad.mk' _ (fun p => bind_done p) (fun _ _ => rfl) (fun p f g => bind_bind p f g)

/-- Perform one operation and return its response. -/
def perform (op : Op) : Program Op Resp ε (Resp op) := .exec op .done

/-- Return a computed result, failing where it is an error. -/
def ofExcept : Except ε α → Program Op Resp ε α
  | .ok a => .done a
  | .error e => .fail e

@[simp] theorem ofExcept_ok (a : α) :
    (ofExcept (.ok a) : Program Op Resp ε α) = .done a := rfl

@[simp] theorem ofExcept_error (e : ε) :
    (ofExcept (.error e) : Program Op Resp ε α) = .fail e := rfl

/-- Run `p` to its end and hand back how it ended, as a value. -/
def attempt : Program Op Resp ε α → Program Op Resp ε' (Except ε α)
  | .done a => .done (.ok a)
  | .fail e => .done (.error e)
  | .exec op k => .exec op (fun r => (k r).attempt)

/-- Relabel the failures of `p`. -/
def mapError (f : ε → ε') : Program Op Resp ε α → Program Op Resp ε' α
  | .done a => .done a
  | .fail e => .fail (f e)
  | .exec op k => .exec op (fun r => (k r).mapError f)

/-! ## Running against a handler -/

/-- What a run against a handler leaves: the operations performed in order, how
    the program ended, and the handler's final state. -/
structure Run (Op : Type) (Resp : Op → Type) (σ ε α : Type) where
  trace : List (Event Op Resp)
  result : Except ε α
  state : σ

def run (h : Handler Op Resp σ) : Program Op Resp ε α → σ → Run Op Resp σ ε α
  | .done a, s => ⟨[], .ok a, s⟩
  | .fail e, s => ⟨[], .error e, s⟩
  | .exec op k, s =>
      let out := (k (h op s).1).run h (h op s).2
      { out with trace := ⟨op, (h op s).1⟩ :: out.trace }

/-- Continue a run that ended with a value. -/
def Run.andThen (out : Run Op Resp σ ε α) (f : α → σ → Run Op Resp σ ε β) :
    Run Op Resp σ ε β :=
  match out.result with
  | .ok a =>
      let rest := f a out.state
      { rest with trace := out.trace ++ rest.trace }
  | .error e => ⟨out.trace, .error e, out.state⟩

@[simp] theorem run_done (h : Handler Op Resp σ) (a : α) (s : σ) :
    (Program.done a : Program Op Resp ε α).run h s = ⟨[], .ok a, s⟩ := rfl

@[simp] theorem run_fail (h : Handler Op Resp σ) (e : ε) (s : σ) :
    (Program.fail e : Program Op Resp ε α).run h s = ⟨[], .error e, s⟩ := rfl

theorem run_exec (h : Handler Op Resp σ) (op : Op) (k : Resp op → Program Op Resp ε α) (s : σ) :
    (Program.exec op k).run h s =
      ⟨⟨op, (h op s).1⟩ :: ((k (h op s).1).run h (h op s).2).trace,
        ((k (h op s).1).run h (h op s).2).result,
        ((k (h op s).1).run h (h op s).2).state⟩ := rfl

@[simp] theorem run_perform (h : Handler Op Resp σ) (op : Op) (s : σ) :
    (perform op : Program Op Resp ε (Resp op)).run h s =
      ⟨[⟨op, (h op s).1⟩], .ok (h op s).1, (h op s).2⟩ := rfl

/-- Running a sequence is running the first part and, where it returns, the rest
    from the state it left. -/
theorem run_bind (h : Handler Op Resp σ) (p : Program Op Resp ε α)
    (f : α → Program Op Resp ε β) (s : σ) :
    (p >>= f).run h s = (p.run h s).andThen (fun a s' => (f a).run h s') := by
  induction p generalizing s with
  | done a => rfl
  | fail e => rfl
  | exec op k ih =>
      rw [exec_bind, run_exec, ih, run_exec]
      simp only [Run.andThen]
      cases ((k (h op s).1).run h (h op s).2).result <;> rfl

theorem run_bind_ok {h : Handler Op Resp σ} {p : Program Op Resp ε α}
    {f : α → Program Op Resp ε β} {s : σ} {a : α} (hp : (p.run h s).result = .ok a) :
    (p >>= f).run h s =
      ⟨(p.run h s).trace ++ ((f a).run h (p.run h s).state).trace,
        ((f a).run h (p.run h s).state).result,
        ((f a).run h (p.run h s).state).state⟩ := by
  rw [run_bind, Run.andThen, hp]

theorem run_bind_error {h : Handler Op Resp σ} {p : Program Op Resp ε α}
    {f : α → Program Op Resp ε β} {s : σ} {e : ε} (hp : (p.run h s).result = .error e) :
    (p >>= f).run h s = ⟨(p.run h s).trace, .error e, (p.run h s).state⟩ := by
  rw [run_bind, Run.andThen, hp]

/-- A sequence returns only where its first part did. -/
theorem result_bind_ok {h : Handler Op Resp σ} {p : Program Op Resp ε α}
    {f : α → Program Op Resp ε β} {s : σ} {b : β}
    (hb : ((p >>= f).run h s).result = .ok b) :
    ∃ a, (p.run h s).result = .ok a ∧ ((f a).run h (p.run h s).state).result = .ok b := by
  cases hp : (p.run h s).result with
  | ok a =>
      rw [run_bind_ok hp] at hb
      exact ⟨a, rfl, hb⟩
  | error e =>
      rw [run_bind_error hp] at hb
      cases hb

/-- What a sequence did starts with what its first part did. -/
theorem trace_prefix_bind (h : Handler Op Resp σ) (p : Program Op Resp ε α)
    (f : α → Program Op Resp ε β) (s : σ) :
    (p.run h s).trace <+: ((p >>= f).run h s).trace := by
  rw [run_bind, Run.andThen]
  cases (p.run h s).result with
  | ok a => exact List.prefix_append _ _
  | error e => exact List.prefix_rfl

@[simp] theorem run_ofExcept (h : Handler Op Resp σ) (x : Except ε α) (s : σ) :
    (ofExcept x : Program Op Resp ε α).run h s = ⟨[], x, s⟩ := by
  cases x <;> rfl

@[simp] theorem run_attempt (h : Handler Op Resp σ) (p : Program Op Resp ε α) (s : σ) :
    (p.attempt : Program Op Resp ε' (Except ε α)).run h s =
      ⟨(p.run h s).trace, .ok (p.run h s).result, (p.run h s).state⟩ := by
  induction p generalizing s with
  | done a => rfl
  | fail e => rfl
  | exec op k ih => rw [attempt, run_exec, ih, run_exec]

theorem run_attempt_bind (h : Handler Op Resp σ) (p : Program Op Resp ε α)
    (f : Except ε α → Program Op Resp ε' β) (s : σ) :
    (p.attempt >>= f).run h s =
      ⟨(p.run h s).trace ++ ((f (p.run h s).result).run h (p.run h s).state).trace,
        ((f (p.run h s).result).run h (p.run h s).state).result,
        ((f (p.run h s).result).run h (p.run h s).state).state⟩ := by
  rw [run_bind, run_attempt]
  rfl

@[simp] theorem run_mapError (h : Handler Op Resp σ) (f : ε → ε') (p : Program Op Resp ε α)
    (s : σ) :
    (p.mapError f).run h s = ⟨(p.run h s).trace, (p.run h s).result.mapError f, (p.run h s).state⟩ := by
  induction p generalizing s with
  | done a => rfl
  | fail e => rfl
  | exec op k ih => rw [mapError, run_exec, ih, run_exec]

/-- The value of a program that has no way to fail. -/
def Run.value (out : Run Op Resp σ Empty α) : α :=
  match out.result with
  | .ok a => a

@[simp] theorem Run.value_ok (trace : List (Event Op Resp)) (a : α) (s : σ) :
    (⟨trace, .ok a, s⟩ : Run Op Resp σ Empty α).value = a := rfl

theorem Run.result_eq_value (out : Run Op Resp σ Empty α) : out.result = .ok out.value := by
  unfold value
  cases h : out.result with
  | ok a => rfl
  | error e => cases e

/-! ## Loops that return -/

/-- A loop that returns leaves what each of its rounds that returns leads to. -/
theorem forM_ok {h : Handler Op Resp σ} {step : γ → Program Op Resp ε PUnit}
    {P : List γ → σ → Prop} {xs : List γ} {s : σ} (hstart : P [] s)
    (hround : ∀ done x rest s, xs = done ++ x :: rest → P done s →
      ((step x).run h s).result = .ok ⟨⟩ → P (done ++ [x]) ((step x).run h s).state)
    (hok : ((xs.forM step).run h s).result = .ok ⟨⟩) : P xs ((xs.forM step).run h s).state := by
  have hall : ∀ (rest done : List γ) (s : σ), xs = done ++ rest → P done s →
      ((rest.forM step).run h s).result = .ok ⟨⟩ → P xs ((rest.forM step).run h s).state := by
    intro rest
    induction rest with
    | nil =>
        intro done s hxs hP _
        rw [hxs, List.append_nil]
        exact hP
    | cons x rest ih =>
        intro done s hxs hP hok
        have hcons : (x :: rest).forM step = (step x >>= fun _ => rest.forM step) := rfl
        rw [hcons] at hok ⊢
        obtain ⟨_, hx, hrest⟩ := result_bind_ok hok
        rw [run_bind_ok hx]
        exact ih (done ++ [x]) _ (by rw [hxs, List.append_assoc]; rfl) (hround done x rest s hxs hP hx) hrest
  exact hall xs [] s rfl hstart hok

/-! ## Replaying a trace -/

/-- The handler's state after the operations of a trace. -/
def replay (h : Handler Op Resp σ) (s : σ) (trace : List (Event Op Resp)) : σ :=
  trace.foldl (fun s ev => (h ev.op s).2) s

@[simp] theorem replay_nil (h : Handler Op Resp σ) (s : σ) : replay h s [] = s := rfl

theorem replay_append (h : Handler Op Resp σ) (s : σ) (xs ys : List (Event Op Resp)) :
    replay h s (xs ++ ys) = replay h (replay h s xs) ys :=
  List.foldl_append

@[simp] theorem replay_run (h : Handler Op Resp σ) (p : Program Op Resp ε α) (s : σ) :
    replay h s (p.run h s).trace = (p.run h s).state := by
  induction p generalizing s with
  | done a => rfl
  | fail e => rfl
  | exec op k ih => exact ih _ _

/-! ## Effect bounds -/

/-- Every operation the program can perform, whatever the responses, is one
    that `P` allows. -/
def Uses (P : Op → Prop) : Program Op Resp ε α → Prop
  | .done _ => True
  | .fail _ => True
  | .exec op k => P op ∧ ∀ r, (k r).Uses P

@[simp] theorem uses_done (P : Op → Prop) (a : α) :
    (Program.done a : Program Op Resp ε α).Uses P := trivial

@[simp] theorem uses_fail (P : Op → Prop) (e : ε) :
    (Program.fail e : Program Op Resp ε α).Uses P := trivial

@[simp] theorem uses_perform (P : Op → Prop) (op : Op) :
    (perform op : Program Op Resp ε (Resp op)).Uses P ↔ P op := by
  simp [perform, Uses]

@[simp] theorem uses_ofExcept (P : Op → Prop) (x : Except ε α) :
    (ofExcept x : Program Op Resp ε α).Uses P := by
  cases x <;> trivial

theorem Uses.bind {P : Op → Prop} {p : Program Op Resp ε α} {f : α → Program Op Resp ε β}
    (hp : p.Uses P) (hf : ∀ a, (f a).Uses P) : (p >>= f).Uses P := by
  induction p with
  | done a => exact hf a
  | fail e => trivial
  | exec op k ih => exact ⟨hp.1, fun r => ih r (hp.2 r)⟩

theorem Uses.attempt {P : Op → Prop} {p : Program Op Resp ε α} (hp : p.Uses P) :
    (p.attempt : Program Op Resp ε' (Except ε α)).Uses P := by
  induction p with
  | done a => trivial
  | fail e => trivial
  | exec op k ih => exact ⟨hp.1, fun r => ih r (hp.2 r)⟩

theorem Uses.mapError {P : Op → Prop} {p : Program Op Resp ε α} (hp : p.Uses P) (f : ε → ε') :
    (p.mapError f).Uses P := by
  induction p with
  | done a => trivial
  | fail e => trivial
  | exec op k ih => exact ⟨hp.1, fun r => ih r (hp.2 r)⟩

theorem Uses.mono {P Q : Op → Prop} {p : Program Op Resp ε α} (hp : p.Uses P)
    (hPQ : ∀ op, P op → Q op) : p.Uses Q := by
  induction p with
  | done a => trivial
  | fail e => trivial
  | exec op k ih => exact ⟨hPQ op hp.1, fun r => ih r (hp.2 r)⟩

theorem Uses.foldlM {P : Op → Prop} {f : γ → β → Program Op Resp ε γ} {xs : List β}
    (hf : ∀ c, ∀ b ∈ xs, (f c b).Uses P) (c : γ) : (xs.foldlM f c).Uses P := by
  induction xs generalizing c with
  | nil => trivial
  | cons b xs ih =>
      rw [List.foldlM_cons]
      exact (hf c b List.mem_cons_self).bind
        (fun c' => ih (fun c b hb => hf c b (List.mem_cons_of_mem _ hb)) c')

theorem Uses.forM {P : Op → Prop} {f : β → Program Op Resp ε PUnit} {xs : List β}
    (hf : ∀ b ∈ xs, (f b).Uses P) : (xs.forM f).Uses P := by
  induction xs with
  | nil => trivial
  | cons b xs ih =>
      have hcons : (b :: xs).forM f = (f b >>= fun _ => xs.forM f) := rfl
      rw [hcons]
      exact (hf b List.mem_cons_self).bind
        (fun _ => ih (fun b hb => hf b (List.mem_cons_of_mem _ hb)))

/-- A bound on the operations a program can perform holds of those it did. -/
theorem Uses.of_mem_trace {P : Op → Prop} {p : Program Op Resp ε α} (hp : p.Uses P)
    {h : Handler Op Resp σ} {s : σ} {ev : Event Op Resp} (hev : ev ∈ (p.run h s).trace) :
    P ev.op := by
  induction p generalizing s with
  | done a => cases hev
  | fail e => cases hev
  | exec op k ih =>
      rw [run_exec] at hev
      rcases List.mem_cons.mp hev with rfl | hmem
      · exact hp.1
      · exact ih _ (hp.2 _) hmem

/-- `P` holds of every operation that the program performs, as long as `A` holds of
    every answer. -/
def UsesUnder (A : (op : Op) → Resp op → Prop) (P : Op → Prop) : Program Op Resp ε α → Prop
  | .done _ => True
  | .fail _ => True
  | .exec op k => P op ∧ ∀ r, A op r → (k r).UsesUnder A P

section Answers

variable {A : (op : Op) → Resp op → Prop} {P : Op → Prop}

theorem Uses.under {p : Program Op Resp ε α} (hp : p.Uses P) : p.UsesUnder A P := by
  induction p with
  | done a => trivial
  | fail e => trivial
  | exec op k ih => exact ⟨hp.1, fun r _ => ih r (hp.2 r)⟩

theorem UsesUnder.bind {p : Program Op Resp ε α} {f : α → Program Op Resp ε β}
    (hp : p.UsesUnder A P) (hf : ∀ a, (f a).UsesUnder A P) : (p >>= f).UsesUnder A P := by
  induction p with
  | done a => exact hf a
  | fail e => trivial
  | exec op k ih => exact ⟨hp.1, fun r hr => ih r (hp.2 r hr)⟩

theorem UsesUnder.of_mem_trace {p : Program Op Resp ε α} (hp : p.UsesUnder A P)
    {h : Handler Op Resp σ} (hanswers : ∀ op s, A op (h op s).1) {s : σ} {ev : Event Op Resp}
    (hev : ev ∈ (p.run h s).trace) : P ev.op := by
  induction p generalizing s with
  | done a => cases hev
  | fail e => cases hev
  | exec op k ih =>
      rw [run_exec] at hev
      rcases List.mem_cons.mp hev with rfl | hmem
      · exact hp.1
      · exact ih _ (hp.2 _ (hanswers op s)) hmem

end Answers

/-- What no allowed operation changes, the program leaves as it was. -/
theorem Uses.preserves {P : Op → Prop} {p : Program Op Resp ε α} (hp : p.Uses P)
    {h : Handler Op Resp σ} {g : σ → γ} (hg : ∀ op s, P op → g (h op s).2 = g s) (s : σ) :
    g (p.run h s).state = g s := by
  induction p generalizing s with
  | done a => rfl
  | fail e => rfl
  | exec op k ih => rw [run_exec, ih _ (hp.2 _), hg op s hp.1]

/-! ## Required events -/

/-- Of the events that `f` selects, every run performs these in this order, and
    all of them if it returns. -/
def Emits (f : Event Op Resp → Option β) : Program Op Resp ε α → List β → Prop
  | .done _, bs => bs = []
  | .fail _, _ => True
  | .exec op k, bs => ∀ r,
      match f ⟨op, r⟩ with
      | none => (k r).Emits f bs
      | some b => ∃ bs', bs = b :: bs' ∧ (k r).Emits f bs'

variable {f : Event Op Resp → Option β}

theorem emits_ofExcept (x : Except ε α) : (ofExcept x : Program Op Resp ε α).Emits f [] := by
  cases x with
  | ok a => rfl
  | error e => trivial

theorem Emits.bind {p : Program Op Resp ε α} {q : α → Program Op Resp ε γ} {bs bs' : List β}
    (hp : p.Emits f bs) (hq : ∀ a, (q a).Emits f bs') : (p >>= q).Emits f (bs ++ bs') := by
  induction p generalizing bs with
  | done a =>
      have hnil : bs = [] := hp
      rw [hnil]
      exact hq a
  | fail e => trivial
  | exec op k ih =>
      intro r
      have hr := hp r
      split at hr
      · exact ih r hr
      · obtain ⟨rest, rfl, hrest⟩ := hr
        exact ⟨rest ++ bs', rfl, ih r hrest⟩

theorem Emits.attempt {p : Program Op Resp ε α} (hp : p.Emits f []) :
    (p.attempt : Program Op Resp ε' (Except ε α)).Emits f [] := by
  induction p with
  | done a => rfl
  | fail e => rfl
  | exec op k ih =>
      intro r
      have hr := hp r
      split at hr
      · exact ih r hr
      · obtain ⟨rest, hrest, -⟩ := hr
        cases hrest

theorem Emits.mapError {p : Program Op Resp ε α} {bs : List β} (hp : p.Emits f bs) (g : ε → ε') :
    (p.mapError g).Emits f bs := by
  induction p generalizing bs with
  | done a => exact hp
  | fail e => trivial
  | exec op k ih =>
      intro r
      have hr := hp r
      split at hr
      · exact ih r hr
      · obtain ⟨rest, rfl, hrest⟩ := hr
        exact ⟨rest, rfl, ih r hrest⟩

theorem Emits.forM {step : γ → Program Op Resp ε PUnit} {emitted : γ → List β} {xs : List γ}
    (h : ∀ x ∈ xs, (step x).Emits f (emitted x)) : (xs.forM step).Emits f (xs.flatMap emitted) := by
  induction xs with
  | nil => rfl
  | cons x xs ih =>
      have hcons : (x :: xs).forM step = (step x >>= fun _ => xs.forM step) := rfl
      rw [hcons, List.flatMap_cons]
      exact (h x List.mem_cons_self).bind (fun _ => ih (fun y hy => h y (List.mem_cons_of_mem x hy)))

theorem Emits.trace {p : Program Op Resp ε α} {bs : List β} (hp : p.Emits f bs)
    (h : Handler Op Resp σ) (s : σ) :
    (p.run h s).trace.filterMap f <+: bs ∧
      ∀ a, (p.run h s).result = .ok a → (p.run h s).trace.filterMap f = bs := by
  induction p generalizing s bs with
  | done a =>
      have hnil : bs = [] := hp
      exact ⟨List.nil_prefix, fun _ _ => hnil.symm⟩
  | fail e => exact ⟨List.nil_prefix, fun _ ha => nomatch ha⟩
  | exec op k ih =>
      have hr := hp (h op s).1
      rw [run_exec, List.filterMap_cons]
      split at hr
      · next hnone =>
          rw [hnone]
          exact ih _ hr (h op s).2
      · next b hsome =>
          obtain ⟨rest, rfl, hrest⟩ := hr
          rw [hsome]
          obtain ⟨hpre, hall⟩ := ih _ hrest (h op s).2
          exact ⟨List.cons_prefix_cons.mpr ⟨rfl, hpre⟩, fun a ha => congrArg (b :: ·) (hall a ha)⟩

/-! ## Returned values -/

/-- Every value the program can return, whatever the responses, satisfies `Q`. -/
def Returns (Q : α → Prop) : Program Op Resp ε α → Prop
  | .done a => Q a
  | .fail _ => True
  | .exec _ k => ∀ r, (k r).Returns Q

theorem returns_trivial (p : Program Op Resp ε α) : p.Returns (fun _ => True) := by
  induction p with
  | done a => trivial
  | fail e => trivial
  | exec op k ih => exact ih

theorem Returns.bind {Q : α → Prop} {R : β → Prop} {p : Program Op Resp ε α}
    {f : α → Program Op Resp ε β} (hp : p.Returns Q) (hf : ∀ a, Q a → (f a).Returns R) :
    (p >>= f).Returns R := by
  induction p with
  | done a => exact hf a hp
  | fail e => trivial
  | exec op k ih => exact fun r => ih r (hp r)

/-- The rest of a sequence need only be bounded for the values that can reach it. -/
theorem Uses.bind_returns {P : Op → Prop} {Q : α → Prop} {p : Program Op Resp ε α}
    {f : α → Program Op Resp ε β} (hp : p.Uses P) (hQ : p.Returns Q)
    (hf : ∀ a, Q a → (f a).Uses P) : (p >>= f).Uses P := by
  induction p with
  | done a => exact hf a hQ
  | fail e => trivial
  | exec op k ih => exact ⟨hp.1, fun r => ih r (hp.2 r) (hQ r)⟩

/-! ## Failure bounds -/

/-- Every failure of the program, whatever the responses, is one that `P` allows. -/
def FailsWith (P : ε → Prop) : Program Op Resp ε α → Prop
  | .done _ => True
  | .fail e => P e
  | .exec _ k => ∀ r, (k r).FailsWith P

@[simp] theorem failsWith_done (P : ε → Prop) (a : α) :
    (Program.done a : Program Op Resp ε α).FailsWith P := trivial

@[simp] theorem failsWith_perform (P : ε → Prop) (op : Op) :
    (perform op : Program Op Resp ε (Resp op)).FailsWith P := fun _ => trivial

theorem failsWith_ofExcept {P : ε → Prop} {x : Except ε α} (h : ∀ e, x = .error e → P e) :
    (ofExcept x : Program Op Resp ε α).FailsWith P := by
  cases x with
  | ok a => trivial
  | error e => exact h e rfl

theorem FailsWith.bind {P : ε → Prop} {p : Program Op Resp ε α} {f : α → Program Op Resp ε β}
    (hp : p.FailsWith P) (hf : ∀ a, (f a).FailsWith P) : (p >>= f).FailsWith P := by
  induction p with
  | done a => exact hf a
  | fail e => exact hp
  | exec op k ih => exact fun r => ih r (hp r)

theorem FailsWith.foldlM {P : ε → Prop} {f : γ → β → Program Op Resp ε γ} {xs : List β}
    (hf : ∀ c, ∀ b ∈ xs, (f c b).FailsWith P) (c : γ) : (xs.foldlM f c).FailsWith P := by
  induction xs generalizing c with
  | nil => trivial
  | cons b xs ih =>
      rw [List.foldlM_cons]
      exact (hf c b List.mem_cons_self).bind
        (fun c' => ih (fun c b hb => hf c b (List.mem_cons_of_mem _ hb)) c')

theorem FailsWith.forM {P : ε → Prop} {f : β → Program Op Resp ε PUnit} {xs : List β}
    (hf : ∀ b ∈ xs, (f b).FailsWith P) : (xs.forM f).FailsWith P := by
  induction xs with
  | nil => trivial
  | cons b xs ih =>
      have hcons : (b :: xs).forM f = (f b >>= fun _ => xs.forM f) := rfl
      rw [hcons]
      exact (hf b List.mem_cons_self).bind
        (fun _ => ih (fun b hb => hf b (List.mem_cons_of_mem _ hb)))

/-- A bound on the failures of a program holds of the one that ended a run. -/
theorem FailsWith.of_result {P : ε → Prop} {p : Program Op Resp ε α} (hp : p.FailsWith P)
    {h : Handler Op Resp σ} {s : σ} {e : ε} (he : (p.run h s).result = .error e) : P e := by
  induction p generalizing s with
  | done a => cases he
  | fail e' =>
      cases he
      exact hp
  | exec op k ih => exact ih _ (hp _) he

end Program
