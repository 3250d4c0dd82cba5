-- SUMMARY: The rounds that one call of `run` goes through, each with the state it started from, and how they make up its trace.
import Cheget.Session.SigningSession

/-!
# The stages of a run

A `run` selects its seats and then alternates `round1` and `round2` over the
inputs until one of them fails. A *stage* is one such invocation together with
the state of the world it started from, which is what the results about single
rounds speak about.
-/

namespace Session

open Chain Crypto Transport

variable [Frost] {σ : Type}

/-- The envelopes a trace published, in order. -/
def published (trace : List (Event Op Op.Resp)) : List Envelope :=
  trace.filterMap (fun ev =>
    match ev.op with
    | .publish env => some env
    | _ => none)

@[simp] theorem published_nil : published ([] : List (Event Op Op.Resp)) = [] := rfl

@[simp] theorem published_append (xs ys : List (Event Op Op.Resp)) :
    published (xs ++ ys) = published xs ++ published ys :=
  List.filterMap_append

@[simp] theorem published_publish (env : Envelope) (id : EnvelopeId) (xs : List (Event Op Op.Resp)) :
    published (⟨.publish env, id⟩ :: xs) = env :: published xs := rfl

@[simp] theorem published_subscribe (f : Filter) (envs : List Envelope)
    (xs : List (Event Op Op.Resp)) :
    published (⟨.subscribe f, envs⟩ :: xs) = published xs := rfl

@[simp] theorem published_draw (e : Entropy) (xs : List (Event Op Op.Resp)) :
    published (⟨.draw, e⟩ :: xs) = published xs := rfl

theorem published_subset {xs ys : List (Event Op Op.Resp)} (h : xs <+: ys) :
    published xs ⊆ published ys :=
  (h.sublist.filterMap _).subset

theorem mem_published {trace : List (Event Op Op.Resp)} {env : Envelope} :
    env ∈ published trace ↔ ∃ ev ∈ trace, ev.op = .publish env := by
  unfold published
  rw [List.mem_filterMap]
  refine exists_congr fun ev => and_congr_right fun _ => ?_
  cases ev.op <;> simp

/-- A bound on the operations of a program holds of the envelopes it published. -/
theorem of_mem_published {ε α : Type} {P : Op → Prop} {p : Action ε α} (hp : p.Uses P)
    {w : World σ} {s : σ} {env : Envelope} (henv : env ∈ published (p.run w s).trace) :
    P (.publish env) := by
  obtain ⟨ev, hev, hop⟩ := mem_published.mp henv
  exact hop ▸ hp.of_mem_trace hev

/-! ## Stages -/

/-- One invocation of a round. A `round2` records the slot its `Round1` was
    moved out of, when a caller held it in one. -/
inductive Stage (σ : Type) where
  | round1 (self : SigningSession) (inputIndex : Nat) (selected : List Identifier) (before : σ)
  | round2 (self : SigningSession) (inputIndex : Nat) (r1 : Round1) (yes : Bool)
      (slot : Option Nat) (before : σ)

namespace Stage

variable [Bitcoin] [Build]

def before : Stage σ → σ
  | .round1 _ _ _ s => s
  | .round2 _ _ _ _ _ s => s

def session : Stage σ → SigningSession
  | .round1 self _ _ _ => self
  | .round2 self _ _ _ _ _ => self

def slot : Stage σ → Option Nat
  | .round1 .. => none
  | .round2 _ _ _ _ slot _ => slot

def trace (w : World σ) : Stage σ → List (Event Op Op.Resp)
  | .round1 self i selected s => ((self.round1 i selected).run w s).trace
  | .round2 self i r1 yes _ s => ((self.round2 i r1 yes).run w s).trace

/-- No error exit of the stage is taken. The encoding of the signature is
    checked right after `round2`. -/
def Completes (w : World σ) : Stage σ → Prop
  | .round1 self i selected s => ∃ r1, ((self.round1 i selected).run w s).result = .ok r1
  | .round2 self i r1 yes _ s =>
      ∃ sig bytes, ((self.round2 i r1 yes).run w s).result = .ok sig ∧
        signatureBytes sig = .ok bytes

/-- The stage starts somewhere along the trace and its own trace comes next. -/
def OccursIn (w : World σ) (start : σ) (trace : List (Event Op Op.Resp)) (stage : Stage σ) : Prop :=
  ∃ pre post, trace = pre ++ stage.trace w ++ post ∧ stage.before = Program.replay w start pre

theorem OccursIn.append_right {w : World σ} {start : σ} {xs : List (Event Op Op.Resp)}
    {stage : Stage σ} (h : stage.OccursIn w start xs) (ys : List (Event Op Op.Resp)) :
    stage.OccursIn w start (xs ++ ys) := by
  obtain ⟨pre, post, rfl, hbefore⟩ := h
  exact ⟨pre, post ++ ys, by simp, hbefore⟩

theorem OccursIn.append_left {w : World σ} {start : σ} {ys : List (Event Op Op.Resp)}
    {stage : Stage σ} (xs : List (Event Op Op.Resp))
    (h : stage.OccursIn w (Program.replay w start xs) ys) : stage.OccursIn w start (xs ++ ys) := by
  obtain ⟨pre, post, rfl, hbefore⟩ := h
  exact ⟨xs ++ pre, post, by simp, by rw [hbefore, Program.replay_append]⟩

theorem occursIn_self (w : World σ) (stage : Stage σ) :
    stage.OccursIn w stage.before (stage.trace w) :=
  ⟨[], [], by simp, rfl⟩

end Stage

/-! ## The stages of a run -/

namespace SigningSession

variable [Bitcoin] [Build]

/-- The rounds of one input. -/
def inputStages (w : World σ) (self : SigningSession) (selected : List Identifier) (yes : Bool)
    (i : Nat) (s : σ) : List (Stage σ) :=
  let out := (self.round1 i selected).run w s
  .round1 self i selected s ::
    match out.result with
    | .ok r1 => [.round2 self i r1 yes none out.state]
    | .error _ => []

/-- The rounds over a list of inputs, up to the first that fails. -/
def loopStages (w : World σ) (self : SigningSession) (selected : List Identifier) (yes : Bool) :
    List Nat → Transaction → σ → List (Stage σ)
  | [], _, _ => []
  | i :: is, tx, s =>
      let out := (self.signInput selected yes tx i).run w s
      self.inputStages w selected yes i s ++
        match out.result with
        | .ok tx' => self.loopStages w selected yes is tx' out.state
        | .error _ => []

/-- The rounds of a whole `run`. -/
def runStages (w : World σ) (self : SigningSession) (yes : Bool) (s : σ) : List (Stage σ) :=
  let out := self.livenessSelect.run w s
  if self.spent then [] else
    match out.result with
    | .ok selected =>
        self.loopStages w selected yes (List.range self.psbt.unsignedTx.input.length)
          self.psbt.unsignedTx out.state
    | .error _ => []

/-! ## What the stages say about the run -/

variable {w : World σ} {self : SigningSession} {selected : List Identifier} {yes : Bool}

/-- One input: a transaction comes out exactly when both rounds and the encoding
    succeed, and then it differs in the one witness. -/
theorem signInput_eq_ok {tx tx' : Transaction} {i : Nat} {s : σ} :
    ((self.signInput selected yes tx i).run w s).result = .ok tx' ↔
      ∃ r1 sig bytes,
        ((self.round1 i selected).run w s).result = .ok r1 ∧
        ((self.round2 i r1 yes).run w ((self.round1 i selected).run w s).state).result = .ok sig ∧
        signatureBytes sig = .ok bytes ∧ tx' = tx.setWitness i [bytes.toList] := by
  constructor
  · intro h
    obtain ⟨r1, hr1, h⟩ := Program.result_bind_ok h
    obtain ⟨sig, hsig, h⟩ := Program.result_bind_ok h
    obtain ⟨bytes, hbytes, h⟩ := Program.result_bind_ok h
    rw [run_lift] at hbytes
    have hbytes := Except.mapError_eq_ok.mp (Except.mapError_eq_ok.mp hbytes)
    cases h
    exact ⟨r1, sig, bytes, hr1, hsig, hbytes, rfl⟩
  · rintro ⟨r1, sig, bytes, hr1, hsig, hbytes, rfl⟩
    simp only [signInput]
    rw [Program.run_bind_ok hr1, Program.run_bind_ok hsig, hbytes]
    rfl

/-- One input: the trace is that of its stages. -/
theorem trace_signInput (tx : Transaction) (i : Nat) (s : σ) :
    ((self.signInput selected yes tx i).run w s).trace =
      (self.inputStages w selected yes i s).flatMap (Stage.trace w) := by
  simp only [signInput, inputStages]
  cases hr1 : ((self.round1 i selected).run w s).result with
  | error e =>
      rw [Program.run_bind_error hr1]
      simp [Stage.trace]
  | ok r1 =>
      rw [Program.run_bind_ok hr1]
      cases hsig : ((self.round2 i r1 yes).run w ((self.round1 i selected).run w s).state).result with
      | error e =>
          rw [Program.run_bind_error hsig]
          simp [Stage.trace]
      | ok sig =>
          rw [Program.run_bind_ok hsig]
          cases signatureBytes sig <;> simp [Stage.trace]

theorem signInput_completes (tx : Transaction) {i : Nat} {s : σ} :
    (∃ tx', ((self.signInput selected yes tx i).run w s).result = .ok tx') ↔
      ∀ stage ∈ self.inputStages w selected yes i s, stage.Completes w := by
  simp only [signInput_eq_ok, inputStages, List.forall_mem_cons]
  constructor
  · rintro ⟨tx', r1, sig, bytes, hr1, hsig, hbytes, rfl⟩
    simp only [hr1]
    refine ⟨⟨r1, hr1⟩, ?_⟩
    intro stage hstage
    rw [List.mem_singleton.mp hstage]
    exact ⟨sig, bytes, hsig, hbytes⟩
  · rintro ⟨⟨r1, hr1⟩, h⟩
    simp only [hr1, List.mem_singleton, forall_eq] at h
    obtain ⟨sig, bytes, hsig, hbytes⟩ := h
    exact ⟨_, r1, sig, bytes, hr1, hsig, hbytes, rfl⟩

theorem occursIn_inputStages {tx : Transaction} {i : Nat} {s : σ} {stage : Stage σ}
    (hstage : stage ∈ self.inputStages w selected yes i s) :
    stage.OccursIn w s ((self.signInput selected yes tx i).run w s).trace := by
  rw [trace_signInput]
  simp only [inputStages] at hstage ⊢
  cases hr1 : ((self.round1 i selected).run w s).result with
  | error e =>
      simp only [hr1, List.mem_singleton] at hstage
      subst hstage
      simpa [Stage.before] using
        Stage.occursIn_self w (Stage.round1 self i selected s)
  | ok r1 =>
      simp only [hr1, List.mem_cons, List.not_mem_nil, or_false] at hstage
      rw [List.flatMap_cons]
      rcases hstage with rfl | rfl
      · exact (Stage.occursIn_self w (Stage.round1 self i selected s)).append_right _
      · refine Stage.OccursIn.append_left _ ?_
        simpa [Stage.trace, Stage.before] using
          Stage.occursIn_self w (Stage.round2 self i r1 yes none
            ((self.round1 i selected).run w s).state)

private theorem loop_cons (i : Nat) (is : List Nat) (tx : Transaction) :
    (i :: is).foldlM (self.signInput selected yes) tx =
      (self.signInput selected yes tx i >>= fun tx' =>
        is.foldlM (self.signInput selected yes) tx') :=
  List.foldlM_cons

theorem trace_loop (is : List Nat) (tx : Transaction) (s : σ) :
    ((is.foldlM (self.signInput selected yes) tx).run w s).trace =
      (self.loopStages w selected yes is tx s).flatMap (Stage.trace w) := by
  induction is generalizing tx s with
  | nil => rfl
  | cons i is ih =>
      rw [loop_cons, loopStages, List.flatMap_append, ← trace_signInput tx]
      cases htx : ((self.signInput selected yes tx i).run w s).result with
      | error e =>
          rw [Program.run_bind_error htx]
          simp
      | ok tx' =>
          rw [Program.run_bind_ok htx]
          simp only [ih]

theorem loop_completes {is : List Nat} {tx : Transaction} {s : σ} :
    (∃ tx', ((is.foldlM (self.signInput selected yes) tx).run w s).result = .ok tx') ↔
      ∀ stage ∈ self.loopStages w selected yes is tx s, stage.Completes w := by
  induction is generalizing tx s with
  | nil => simp [loopStages]
  | cons i is ih =>
      rw [loop_cons, loopStages, List.forall_mem_append, ← signInput_completes tx]
      cases htx : ((self.signInput selected yes tx i).run w s).result with
      | error e =>
          rw [Program.run_bind_error htx]
          simp
      | ok tx' =>
          rw [Program.run_bind_ok htx]
          simp only [ih]
          simp

theorem occursIn_loopStages {is : List Nat} {tx : Transaction} {s : σ} {stage : Stage σ}
    (hstage : stage ∈ self.loopStages w selected yes is tx s) :
    stage.OccursIn w s ((is.foldlM (self.signInput selected yes) tx).run w s).trace := by
  induction is generalizing tx s with
  | nil => cases hstage
  | cons i is ih =>
      rw [loopStages, List.mem_append] at hstage
      rw [loop_cons]
      cases htx : ((self.signInput selected yes tx i).run w s).result with
      | error e =>
          rw [Program.run_bind_error htx]
          simp only [htx, List.not_mem_nil, or_false] at hstage
          exact occursIn_inputStages hstage
      | ok tx' =>
          rw [Program.run_bind_ok htx]
          simp only [htx] at hstage
          rcases hstage with hstage | hstage
          · exact (occursIn_inputStages hstage).append_right _
          · refine Stage.OccursIn.append_left _ ?_
            rw [Program.replay_run]
            exact ih hstage

/-- The trace of a run is its liveness poll followed by its stages. -/
theorem trace_signAll (hfresh : self.spent = false) (s : σ) :
    ((self.signAll yes).run w s).trace =
      (self.livenessSelect.run w s).trace ++
        (self.runStages w yes s).flatMap (Stage.trace w) := by
  simp only [signAll, runStages, hfresh, Bool.false_eq_true, if_false]
  cases hsel : (self.livenessSelect.run w s).result with
  | error e =>
      rw [Program.run_bind_error hsel]
      simp
  | ok selected =>
      rw [Program.run_bind_ok hsel]
      simp only [trace_loop]

/-- A run returns a transaction exactly when the session is fresh, the poll
    succeeds and every stage completes. -/
theorem signAll_completes {s : σ} :
    (∃ tx, ((self.signAll yes).run w s).result = .ok tx) ↔
      self.spent = false ∧ (∃ selected, (self.livenessSelect.run w s).result = .ok selected) ∧
        ∀ stage ∈ self.runStages w yes s, stage.Completes w := by
  cases hspent : self.spent with
  | true => simp [signAll, hspent]
  | false =>
      simp only [signAll, runStages, hspent, Bool.false_eq_true, if_false, true_and]
      cases hsel : (self.livenessSelect.run w s).result with
      | error e =>
          rw [Program.run_bind_error hsel]
          simp
      | ok selected =>
          rw [Program.run_bind_ok hsel]
          simp only [loop_completes]
          simp

theorem runStages_of_spent (hspent : self.spent = true) (s : σ) :
    self.runStages w yes s = [] := by
  simp [runStages, hspent]

theorem occursIn_runStages {s : σ} {stage : Stage σ} (hstage : stage ∈ self.runStages w yes s) :
    stage.OccursIn w s ((self.signAll yes).run w s).trace := by
  cases hspent : self.spent with
  | true =>
      rw [runStages_of_spent hspent] at hstage
      cases hstage
  | false =>
      simp only [signAll, runStages, hspent, Bool.false_eq_true, if_false] at hstage ⊢
      cases hsel : (self.livenessSelect.run w s).result with
      | error e =>
          simp [hsel] at hstage
      | ok selected =>
          rw [Program.run_bind_ok hsel]
          simp only [hsel] at hstage
          refine Stage.OccursIn.append_left _ ?_
          rw [Program.replay_run]
          exact occursIn_loopStages hstage

/-- A stage of a run is a round of that session, and no caller ever held its
    `Round1`. -/
theorem of_mem_runStages {s : σ} {stage : Stage σ} (hstage : stage ∈ self.runStages w yes s) :
    stage.session = self ∧ stage.slot = none := by
  have hinput : ∀ selected i s, ∀ stage ∈ self.inputStages w selected yes i s,
      stage.session = self ∧ stage.slot = none := by
    intro selected i s stage hstage
    simp only [inputStages] at hstage
    split at hstage
    · simp only [List.mem_cons, List.not_mem_nil, or_false] at hstage
      rcases hstage with rfl | rfl <;> exact ⟨rfl, rfl⟩
    · rw [List.mem_singleton.mp hstage]
      exact ⟨rfl, rfl⟩
  have hloop : ∀ selected is tx s, ∀ stage ∈ self.loopStages w selected yes is tx s,
      stage.session = self ∧ stage.slot = none := by
    intro selected is
    induction is with
    | nil =>
        intro tx s stage hstage
        cases hstage
    | cons i is ih =>
        intro tx s stage hstage
        rw [loopStages, List.mem_append] at hstage
        rcases hstage with hstage | hstage
        · exact hinput selected i s stage hstage
        · split at hstage
          · exact ih _ _ stage hstage
          · cases hstage
  simp only [runStages] at hstage
  split at hstage
  · cases hstage
  · split at hstage
    · exact hloop _ _ _ _ stage hstage
    · cases hstage

/-- `run` is its body, then the decision whether the session is spent. -/
theorem run_run {ε : Type} (s : σ) :
    (self.run yes : Action ε _).run w s =
      ⟨((self.signAll yes).run w s).trace,
        .ok (((self.signAll yes).run w s).result,
          match ((self.signAll yes).run w s).result with
          | .ok _ => { self with spent := true }
          | .error _ => self),
        ((self.signAll yes).run w s).state⟩ := by
  unfold run
  rw [Program.run_bind, Program.run_attempt, Program.Run.andThen]
  cases ((self.signAll yes).run w s).result <;> simp

end SigningSession

end Session
