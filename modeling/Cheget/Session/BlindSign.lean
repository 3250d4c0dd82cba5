-- SUMMARY: No share leaves a seat without an ack and a message that is the session's own sighash, over any history of calls.
import Cheget.Session.Effects
import Cheget.Session.History
import Cheget.Session.Loops
import Cheget.Session.Soundness

namespace Session

open Chain Crypto Transport

variable [Frost] [Bitcoin] [Build] {σ : Type}

namespace SigningSession

variable {self : SigningSession} {i : Nat} {r1 : Round1} {yes : Bool} {w : World σ} {s : σ}

/-- Round 2 publishes what its loop over the seats publishes, and a display
    error of round 2 is one of that loop. -/
theorem round2_cases (self : SigningSession) (i : Nat) (r1 : Round1) (yes : Bool) (w : World σ)
    (s : σ) :
    published ((self.round2 i r1 yes).run w s).trace = [] ∧
        (∀ e, ((self.round2 i r1 yes).run w s).result ≠ .error (.error (.display e))) ∨
    ∃ prevouts, self.prevouts = .ok prevouts ∧
      published ((self.round2 i r1 yes).run w s).trace =
        published ((r1.nonces.toList.forM (self.signSeat i r1.signingPackage prevouts yes)).run
          w s).trace ∧
      ∀ e, ((self.round2 i r1 yes).run w s).result = .error (.error (.display e)) →
        ((r1.nonces.toList.forM (self.signSeat i r1.signingPackage prevouts yes)).run w s).result =
          .error (.error (.display e)) := by
  unfold round2 collectShares
  cases hprevouts : self.prevouts with
  | error e =>
      obtain ⟨k, rfl⟩ := prevouts_error hprevouts
      left
      simp
  | ok prevouts =>
      right
      refine ⟨prevouts, rfl, ?_⟩
      simp only [lift_ok, Program.done_bind, bind_assoc]
      cases hloop : ((r1.nonces.toList.forM
          (self.signSeat i r1.signingPackage prevouts yes)).run w s).result with
      | error e =>
          rw [Program.run_bind_error hloop]
          exact ⟨rfl, fun _ h => by simpa using h⟩
      | ok u =>
          rw [Program.run_bind_ok hloop]
          simp only [Program.run_bind, run_subscribe, run_lift, Program.Run.andThen]
          cases BTreeMap.collect (fun env : Envelope => self.idOfSeat[env.seat]?)
              (fun env => Frost.deserializeShare env.payload)
              (w (.subscribe (shareFilter (self.topic i)))
                ((r1.nonces.toList.forM
                  (self.signSeat i r1.signingPackage prevouts yes)).run w s).state).1 with
          | error e => simp
          | ok shares =>
              cases hfinish : self.finishSignature r1.signingPackage shares with
              | error e =>
                  obtain ⟨e', rfl⟩ := finishSignature_error hfinish
                  simp [hfinish]
              | ok sig => simp [hfinish]

/-! ## One round 2 -/

/-- `env` carries the share of one seat under its nonces. -/
def IsShareOf (self : SigningSession) (i : Nat) (pkg : SigningPackage SigningCommitments)
    (seatNonce : Identifier × EphemeralNonces) (env : Envelope) : Prop :=
  ∃ kp seat share,
    self.keyPackages[seatNonce.1]? = some kp ∧ self.seatOfId[seatNonce.1]? = some seat ∧
    seatNonce.2.sign pkg kp = .ok share ∧
    env = shareEnvelope (self.topic i) seat (Frost.serializeShare share)

/-- What an invocation of round 2 must keep to. -/
structure SignsSighted (w : World σ) (session : SigningSession) (i : Nat) (r1 : Round1) (yes : Bool)
    (s : σ) : Prop where
  /-- An acknowledged spend, and the message is this session's own sighash. -/
  gated : published ((session.round2 i r1 yes).run w s).trace ≠ [] →
    yes = true ∧ ∃ sighash, session.sighash i = .ok sighash ∧
      r1.signingPackage.message = sighash.toList
  /-- Each published envelope is the one share of one nonce of `r1`, in order. -/
  oneEach : ∃ done rest, r1.nonces.toList = done ++ rest ∧
    List.Forall₂ (session.IsShareOf i r1.signingPackage) done
      (published ((session.round2 i r1 yes).run w s).trace)
  /-- A refusal by the display gate comes before any share. -/
  refused : ∀ e, ((session.round2 i r1 yes).run w s).result = .error (.error (.display e)) →
    published ((session.round2 i r1 yes).run w s).trace = []

/-- The gate has the same arguments at every seat, so a published share means
    that it is open for all of them. -/
private theorem gate_open_of_shares {pkg : SigningPackage SigningCommitments}
    {prevouts : List TxOut} {done : List (Identifier × EphemeralNonces)} {envs : List Envelope}
    (hshares : List.Forall₂ (self.SharesAs i pkg prevouts yes) done envs) (hne : envs ≠ []) :
    ∃ summary, displayAndAck self.psbt.unsignedTx prevouts i pkg.message yes self.network =
      .ok summary := by
  cases hshares with
  | nil => exact absurd rfl hne
  | cons hshare _ =>
      obtain ⟨kp, seat, summary, share, -, -, hopen, -, -⟩ := hshare
      exact ⟨summary, hopen⟩

theorem round2_signsSighted (w : World σ) (self : SigningSession) (i : Nat) (r1 : Round1)
    (yes : Bool) (s : σ) : self.SignsSighted w i r1 yes s := by
  rcases self.round2_cases i r1 yes w s with ⟨hnone, hdisplay⟩ | ⟨prevouts, hprevouts, hpub, herr⟩
  · refine ⟨fun h => absurd hnone h, ⟨[], _, rfl, ?_⟩, fun e h => absurd h (hdisplay e)⟩
    rw [hnone]
    exact .nil
  · obtain ⟨done, rest, hsplit, hshares, hend⟩ := self.signLoop_cases i
      r1.signingPackage prevouts yes r1.nonces.toList w s
    rw [← hpub] at hshares
    refine ⟨?_, ⟨done, rest, hsplit, ?_⟩, ?_⟩
    · intro hne
      obtain ⟨summary, hopen⟩ := gate_open_of_shares hshares hne
      obtain ⟨hyes, -, sighash, hhash, hmessage⟩ := displayAndAck_eq_ok.mp hopen
      exact ⟨hyes, sighash, sighash_eq_ok.mpr ⟨prevouts, hprevouts, hhash⟩, hmessage⟩
    · refine hshares.imp ?_
      rintro seatNonce env ⟨kp, seat, -, share, hkp, hseat, -, hsign, henv⟩
      exact ⟨kp, seat, share, hkp, hseat, hsign, henv⟩
    · intro e hdisplay
      by_contra hne
      obtain ⟨summary, hopen⟩ := gate_open_of_shares hshares hne
      rcases hend with ⟨-, hok⟩ | ⟨seatNonce, rest', e', -, he', hfail⟩
      · rw [herr e hdisplay] at hok
        cases hok
      · rw [herr e hdisplay] at he'
        cases he'
        generalize hwhy : (Abort.error (SessionError.display e) : Abort SessionError) = why at hfail
        cases hfail with
        | noKeyPackage h => cases hwhy
        | noSeat h => cases hwhy
        | gate e' h =>
            rw [hopen] at h
            cases h
        | sign kp e' hkp h => cases hwhy

end SigningSession

/-! ## Histories -/

/-- The rounds that publish shares are invocations of round 2. -/
theorem Stage.publishes_share {w : World σ} {stage : Stage σ} {env : Envelope}
    (henv : env ∈ published (stage.trace w)) (hclass : env.messageClass = .signatureShare) :
    ∃ self i r1 yes slot before, stage = .round2 self i r1 yes slot before := by
  cases stage with
  | round1 self i selected before =>
      have huses := of_mem_published (self.round1_uses i selected) henv
      rw [huses.1] at hclass
      cases hclass
  | round2 self i r1 yes slot before => exact ⟨self, i, r1, yes, slot, before, rfl⟩

/-- No blind signing. In any history of calls, on any sessions and with any
    `Round1` values, over any transport: shares come from round 2 only; every
    invocation of round 2 publishes them only after an ack and for the sighash of
    its own PSBT, at most one for each nonce, and none when the gate refuses; and
    a `Round1` is handed over at most once. -/
theorem Client.no_blind_signing (w : World σ) (calls : List Call) (client : Client) (s : σ) :
    (∀ env ∈ published (trace w calls client s), env.messageClass = .signatureShare →
      ∃ self i r1 yes slot before,
        Stage.round2 self i r1 yes slot before ∈ stages w calls client s ∧
        env ∈ published ((self.round2 i r1 yes).run w before).trace) ∧
    (∀ self i r1 yes slot before,
      Stage.round2 self i r1 yes slot before ∈ stages w calls client s →
        self.SignsSighted w i r1 yes before) ∧
    (stages w calls client s).Pairwise (fun a b => ∀ k, a.slot = some k → b.slot ≠ some k) := by
  refine ⟨?_, fun self i r1 yes _ before _ => self.round2_signsSighted w i r1 yes before,
    pairwise_slot calls client s⟩
  intro env henv hclass
  obtain ⟨ev, hev, hop⟩ := mem_published.mp henv
  rcases mem_trace hev with ⟨self, s', hlive⟩ | ⟨stage, hstage, hmem⟩
  · have huses := self.livenessSelect_uses.of_mem_trace hlive
    rw [hop] at huses
    rw [huses.1] at hclass
    cases hclass
  · have hpub : env ∈ published (stage.trace w) := mem_published.mpr ⟨ev, hmem, hop⟩
    obtain ⟨self, i, r1, yes, slot, before, rfl⟩ := Stage.publishes_share hpub hclass
    exact ⟨self, i, r1, yes, slot, before, hstage, hpub⟩

end Session
