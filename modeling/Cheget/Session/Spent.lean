-- SUMMARY: When a session that has published commitments can run again: exactly after a call that published them and then failed.
import Cheget.Session.Effects
import Cheget.Session.Plain
import Cheget.Session.Stages

namespace Session

open Chain Crypto Transport

variable [Frost]

/-! ## The errors of a fresh session -/

/-- A failure other than the refusal of a spent session. -/
def NotSpent (e : Abort SessionError) : Prop := e ≠ .error .spent

theorem lift_notSpent {α : Type} {x : Except SessionError α} (h : ∀ e, x = .error e → e ≠ .spent) :
    (lift x).FailsWith NotSpent := by
  refine Program.failsWith_ofExcept ?_
  intro e he
  obtain ⟨e', hx, rfl⟩ := Except.mapError_eq_error.mp he
  intro hspent
  cases hspent
  exact h _ hx rfl

/-- An error relabelled by a constructor other than `spent`. -/
theorem lift_mapError_notSpent {ε α : Type} {f : ε → SessionError} {x : Except ε α}
    (hf : ∀ e, f e ≠ .spent) : (lift (x.mapError f)).FailsWith NotSpent := by
  refine lift_notSpent ?_
  intro e he
  obtain ⟨e', -, rfl⟩ := Except.mapError_eq_error.mp he
  exact hf e'

theorem lift_okOr_notSpent {α : Type} {o : Option α} (id : Identifier) :
    (lift (o.okOr (.unknownSeat id))).FailsWith NotSpent := by
  refine lift_notSpent ?_
  intro e he
  rw [← (Option.okOr_eq_error.mp he).2]
  intro h
  cases h

namespace SigningSession

theorem prevouts_notSpent (self : SigningSession) : (lift self.prevouts).FailsWith NotSpent := by
  refine lift_notSpent ?_
  intro e he
  obtain ⟨k, rfl⟩ := prevouts_error he
  intro h
  cases h

theorem livenessSelect_notSpent (self : SigningSession) :
    self.livenessSelect.FailsWith NotSpent := by
  refine Program.FailsWith.bind (Program.FailsWith.forM ?_) (fun _ => ?_)
  · intro seat _
    exact (Program.failsWith_perform _ _).bind (fun _ => Program.failsWith_done _ _)
  · refine (Program.failsWith_perform _ _).bind (fun _ => ?_)
    exact lift_mapError_notSpent (fun _ h => by cases h)

variable [Bitcoin]

theorem sighash_notSpent (self : SigningSession) (i : Nat) :
    (lift (self.sighash i)).FailsWith NotSpent := by
  refine lift_notSpent ?_
  intro e he
  unfold sighash at he
  cases hprevouts : self.prevouts with
  | error e' =>
      obtain ⟨k, rfl⟩ := prevouts_error hprevouts
      rw [hprevouts] at he
      cases he
      intro h
      cases h
  | ok prevouts =>
      rw [hprevouts, Except.ok_bind] at he
      obtain ⟨e', -, rfl⟩ := Except.mapError_eq_error.mp he
      intro h
      cases h

theorem round1_notSpent (self : SigningSession) (i : Nat) (selected : List Identifier) :
    (self.round1 i selected).FailsWith NotSpent := by
  refine (self.sighash_notSpent i).bind (fun _ => Program.FailsWith.bind
    (Program.FailsWith.foldlM ?_ _) (fun _ => ?_))
  · intro nonces id _
    refine (lift_okOr_notSpent id).bind (fun _ => (lift_okOr_notSpent id).bind (fun _ => ?_))
    refine (Program.failsWith_perform _ _).bind (fun _ => ?_)
    refine (lift_mapError_notSpent (fun _ h => by cases h)).bind (fun _ => ?_)
    exact (Program.failsWith_perform _ _).bind (fun _ => Program.failsWith_done _ _)
  · refine (Program.failsWith_perform _ _).bind (fun _ => ?_)
    exact (lift_mapError_notSpent (fun _ h => by cases h)).bind
      (fun _ => Program.failsWith_done _ _)

variable [Build]

theorem round2_notSpent (self : SigningSession) (i : Nat) (r1 : Round1) (yes : Bool) :
    (self.round2 i r1 yes).FailsWith NotSpent := by
  refine Program.FailsWith.bind ?_ (fun shares => ?_)
  · refine self.prevouts_notSpent.bind (fun _ => Program.FailsWith.bind
      (Program.FailsWith.forM ?_) (fun _ => ?_))
    · intro seatNonce _
      refine (lift_okOr_notSpent _).bind (fun _ => (lift_okOr_notSpent _).bind (fun _ => ?_))
      refine Program.FailsWith.bind (Program.failsWith_ofExcept ?_) (fun _ => ?_)
      · intro e he
        obtain ⟨e', -, rfl⟩ := Except.mapError_eq_error.mp he
        intro h
        cases e' <;> cases h
      · refine (lift_mapError_notSpent (fun _ h => by cases h)).bind (fun _ => ?_)
        exact (Program.failsWith_perform _ _).bind (fun _ => Program.failsWith_done _ _)
    · refine (Program.failsWith_perform _ _).bind (fun _ => ?_)
      exact lift_mapError_notSpent (fun _ h => by cases h)
  · refine lift_notSpent ?_
    intro e he
    obtain ⟨e', rfl⟩ := finishSignature_error he
    intro h
    cases h

/-- Only a spent session is refused as spent. -/
theorem signAll_notSpent {self : SigningSession} (hfresh : self.spent = false) (yes : Bool) :
    (self.signAll yes).FailsWith NotSpent := by
  simp only [signAll, hfresh, Bool.false_eq_true, if_false]
  refine self.livenessSelect_notSpent.bind (fun selected => Program.FailsWith.foldlM ?_ _)
  intro tx i _
  refine (self.round1_notSpent i selected).bind (fun r1 => ?_)
  refine (self.round2_notSpent i r1 yes).bind (fun sig => ?_)
  exact (lift_mapError_notSpent (fun _ h => by cases h)).bind (fun _ => Program.failsWith_done _ _)

end SigningSession

/-! ## Sequences of runs -/

variable {σ : Type}

/-- One call of `run`: the session, the flag, and the world before it. -/
structure RunCall (σ : Type) where
  session : SigningSession
  yes : Bool
  before : σ

variable [Bitcoin] [Build]

namespace RunCall

def trace (w : World σ) (c : RunCall σ) : List (Event Op Op.Resp) :=
  ((c.session.run c.yes : Action Empty _).run w c.before).trace

def result (w : World σ) (c : RunCall σ) : Except (Abort SessionError) Transaction :=
  ((c.session.run c.yes : Action Empty _).run w c.before).value.1

/-- The call publishes a round-1 commitment. -/
def Commits (w : World σ) (c : RunCall σ) : Prop :=
  ∃ env ∈ published (c.trace w), env.messageClass = .commitments

/-- The call is refused as spent, and publishes nothing. -/
def Refused (w : World σ) (c : RunCall σ) : Prop :=
  c.result w = .error (.error .spent) ∧ published (c.trace w) = []

/-- The call publishes a commitment and takes an error exit of one of its
    stages. -/
def Abandons (w : World σ) (c : RunCall σ) : Prop :=
  c.Commits w ∧ ∃ stage ∈ c.session.runStages w c.yes c.before, ¬ stage.Completes w

end RunCall

namespace SigningSession

/-- Call `run` once for each flag. -/
def runCalls (w : World σ) : List Bool → SigningSession → σ → List (RunCall σ)
  | [], _, _ => []
  | yes :: flags, self, s =>
      let out := (self.run yes : Action Empty _).run w s
      ⟨self, yes, s⟩ :: runCalls w flags out.value.2 out.state

end SigningSession

variable {w : World σ}

theorem RunCall.refused_of_spent {c : RunCall σ} (hspent : c.session.spent = true) :
    c.Refused w := by
  unfold Refused result trace
  rw [SigningSession.run_run]
  simp [SigningSession.signAll, hspent]

theorem RunCall.not_refused_of_fresh {c : RunCall σ} (hfresh : c.session.spent = false) :
    ¬ c.Refused w := by
  rintro ⟨hresult, -⟩
  unfold result at hresult
  rw [SigningSession.run_run, Program.Run.value_ok] at hresult
  exact (SigningSession.signAll_notSpent hfresh c.yes).of_result hresult rfl

/-- A commitment is only published once the poll has succeeded. -/
theorem RunCall.Commits.live {c : RunCall σ} (h : c.Commits w) :
    c.session.spent = false ∧
      ∃ selected, (c.session.livenessSelect.run w c.before).result = .ok selected := by
  obtain ⟨env, henv, hclass⟩ := h
  unfold trace at henv
  rw [SigningSession.run_run] at henv
  cases hspent : c.session.spent with
  | true => simp [SigningSession.signAll, hspent] at henv
  | false =>
      refine ⟨rfl, ?_⟩
      cases hlive : (c.session.livenessSelect.run w c.before).result with
      | ok selected => exact ⟨selected, rfl⟩
      | error e =>
          rw [SigningSession.trace_signAll hspent] at henv
          simp only [SigningSession.runStages, hspent, hlive, Bool.false_eq_true, if_false,
            List.flatMap_nil, List.append_nil] at henv
          have huses := of_mem_published c.session.livenessSelect_uses henv
          rw [huses.1] at hclass
          cases hclass

/-- After a call that commits, the session is spent unless a stage failed. -/
theorem RunCall.Commits.spent_iff {c : RunCall σ} (h : c.Commits w) :
    ((c.session.run c.yes : Action Empty _).run w c.before).value.2.spent = true ↔
      ¬ c.Abandons w := by
  obtain ⟨hfresh, hlive⟩ := h.live
  have hcomplete : (∃ tx, ((c.session.signAll c.yes).run w c.before).result = .ok tx) ↔
      ¬ c.Abandons w := by
    rw [SigningSession.signAll_completes]
    unfold Abandons
    push Not
    exact ⟨fun hall _ => hall.2.2, fun hall => ⟨hfresh, hlive, hall h⟩⟩
  rw [← hcomplete, SigningSession.run_run, Program.Run.value_ok]
  cases ((c.session.signAll c.yes).run w c.before).result with
  | ok tx => simp
  | error e => simp [hfresh]

/-- Every call after the session is spent is refused. -/
theorem SigningSession.refused_of_mem_runCalls {flags : List Bool} {self : SigningSession} {s : σ}
    (hspent : self.spent = true) {c : RunCall σ} (hc : c ∈ self.runCalls w flags s) :
    c.Refused w := by
  induction flags generalizing self s with
  | nil => cases hc
  | cons yes flags ih =>
      rcases List.mem_cons.mp hc with rfl | hc
      · exact RunCall.refused_of_spent hspent
      · refine ih ?_ hc
        rw [SigningSession.run_run, Program.Run.value_ok]
        cases ((self.signAll yes).run w s).result with
        | ok tx => rfl
        | error e => exact hspent

/-- The spent discipline, a call that publishes a commitment having every later
    call refused, holds of a sequence of runs exactly when no call but the last
    publishes a commitment and then takes an error exit. -/
theorem SigningSession.spent_discipline (w : World σ) (flags : List Bool) (self : SigningSession)
    (s : σ) :
    (self.runCalls w flags s).Pairwise (fun a b => a.Commits w → b.Refused w) ↔
      ∀ c ∈ (self.runCalls w flags s).dropLast, ¬ c.Abandons w := by
  induction flags generalizing self s with
  | nil => simp [runCalls]
  | cons yes flags ih =>
      rw [runCalls, List.pairwise_cons]
      cases flags with
      | nil => simp [runCalls]
      | cons yes' flags =>
          rw [ih, List.dropLast_cons_of_ne_nil (by simp [runCalls]), List.forall_mem_cons]
          refine and_congr_left fun _ => ?_
          constructor
          · -- The next call shows whether the session was left spent.
            intro hrefused habandons
            have hcommits := habandons.1
            refine RunCall.not_refused_of_fresh ?_
              (hrefused _ (by rw [runCalls]; exact List.mem_cons_self) hcommits)
            rw [← Bool.not_eq_true, hcommits.spent_iff, not_not]
            exact habandons
          · intro hkeeps b hb hcommits
            exact refused_of_mem_runCalls (hcommits.spent_iff.mpr hkeeps) hb

end Session

namespace Session

open Plain

/-- A run without an ack publishes its commitments, is refused by the display
    gate, and leaves the session open to a second run that signs. -/
theorem SigningSession.unacknowledged_run_not_spent :
    ¬ (session.runCalls Host.world [false, true] host).Pairwise
      (fun a b => a.Commits Host.world → b.Refused Host.world) := by
  intro h
  have hcommits : RunCall.Commits Host.world ⟨session, false, host⟩ := by
    unfold RunCall.Commits RunCall.trace
    decide +kernel
  obtain ⟨-, hnone⟩ := (List.pairwise_cons.mp h).1 _ List.mem_cons_self hcommits
  revert hnone
  unfold RunCall.trace
  decide +kernel

end Session
