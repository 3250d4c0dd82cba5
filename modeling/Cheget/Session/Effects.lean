-- SUMMARY: Which operations each part of a session can perform, and which errors it can end with, whatever it is answered.
import Cheget.Session.SigningSession

namespace Session

open Chain Crypto Transport

/-! ## What the filters let through -/

theorem commitmentFilter_matches (topic : String) (seat : Seat) (payload : Bytes) :
    (SigningSession.commitmentFilter topic).matchesEnvelope
      (SigningSession.commitmentEnvelope topic seat payload) = true := by
  refine Filter.matchesEnvelope_eq_true.mpr ⟨?_, ?_, ?_, ?_, ?_⟩ <;> rintro _ ⟨⟩ <;> rfl

theorem shareFilter_matches (topic : String) (seat : Seat) (payload : Bytes) :
    (SigningSession.shareFilter topic).matchesEnvelope
      (SigningSession.shareEnvelope topic seat payload) = true := by
  refine Filter.matchesEnvelope_eq_true.mpr ⟨?_, ?_, ?_, ?_, ?_⟩ <;> rintro _ ⟨⟩ <;> rfl

theorem of_commitmentFilter {topic : String} {env : Envelope}
    (h : (SigningSession.commitmentFilter topic).matchesEnvelope env = true) :
    env.messageClass = .commitments ∧ env.ceremonyOrSessionId = topic := by
  obtain ⟨hclass, htopic, -⟩ := Filter.matchesEnvelope_eq_true.mp h
  exact ⟨(hclass _ rfl).symm, (htopic _ rfl).symm⟩

theorem of_shareFilter {topic : String} {env : Envelope}
    (h : (SigningSession.shareFilter topic).matchesEnvelope env = true) :
    env.messageClass = .signatureShare ∧ env.ceremonyOrSessionId = topic := by
  obtain ⟨hclass, htopic, -⟩ := Filter.matchesEnvelope_eq_true.mp h
  exact ⟨(hclass _ rfl).symm, (htopic _ rfl).symm⟩

variable [Frost]

theorem of_livenessFilter {self : SigningSession} {env : Envelope}
    (h : self.livenessFilter.matchesEnvelope env = true) :
    env.messageClass = .sessionControl ∧ env.ceremonyOrSessionId = self.id := by
  obtain ⟨hclass, hid, -⟩ := Filter.matchesEnvelope_eq_true.mp h
  exact ⟨(hclass _ rfl).symm, (hid _ rfl).symm⟩

theorem livenessFilter_matches (self : SigningSession) (seat : Seat) :
    self.livenessFilter.matchesEnvelope (self.livenessAck seat) = true := by
  refine Filter.matchesEnvelope_eq_true.mpr ⟨?_, ?_, ?_, ?_, ?_⟩ <;> rintro _ ⟨⟩ <;> rfl

/-! ## Operations -/

/-- The operations of a liveness poll: acknowledgements of this session, and the
    subscription that reads them back. -/
def LivenessOp (self : SigningSession) : Op → Prop
  | .publish env => env.messageClass = .sessionControl ∧ env.ceremonyOrSessionId = self.id
  | .subscribe filter => filter = self.livenessFilter
  | .draw => False

/-- The operations of round 1 on a topic. -/
def CommitOp (topic : String) : Op → Prop
  | .publish env => env.messageClass = .commitments ∧ env.ceremonyOrSessionId = topic
  | .subscribe filter => filter = SigningSession.commitmentFilter topic
  | .draw => True

/-- The operations of round 2 on a topic. -/
def ShareOp (topic : String) : Op → Prop
  | .publish env => env.messageClass = .signatureShare ∧ env.ceremonyOrSessionId = topic
  | .subscribe filter => filter = SigningSession.shareFilter topic
  | .draw => False

/-- The operations of the two rounds on the topics of some inputs. -/
def RoundOp (self : SigningSession) (inputs : List Nat) (op : Op) : Prop :=
  ∃ i ∈ inputs, CommitOp (self.topic i) op ∨ ShareOp (self.topic i) op

theorem RoundOp.publish {self : SigningSession} {inputs : List Nat} {env : Envelope}
    (h : RoundOp self inputs (.publish env)) :
    env.messageClass ≠ .sessionControl ∧ ∃ i ∈ inputs, env.ceremonyOrSessionId = self.topic i := by
  obtain ⟨i, hi, ⟨hclass, htopic⟩ | ⟨hclass, htopic⟩⟩ := h
  · exact ⟨by rw [hclass]; decide, i, hi, htopic⟩
  · exact ⟨by rw [hclass]; decide, i, hi, htopic⟩

theorem uses_lift {α : Type} (P : Op → Prop) (x : Except SessionError α) : (lift x).Uses P :=
  Program.uses_ofExcept P _

theorem uses_publish {ε : Type} {P : Op → Prop} {env : Envelope} (h : P (.publish env)) :
    (publish env : Action ε EnvelopeId).Uses P :=
  (Program.uses_perform P _).mpr h

theorem uses_subscribe {ε : Type} {P : Op → Prop} {filter : Filter} (h : P (.subscribe filter)) :
    (subscribe filter : Action ε (List Envelope)).Uses P :=
  (Program.uses_perform P _).mpr h

theorem uses_draw {ε : Type} {P : Op → Prop} (h : P .draw) : (draw : Action ε Entropy).Uses P :=
  (Program.uses_perform P _).mpr h

namespace SigningSession

theorem livenessSelect_uses (self : SigningSession) :
    self.livenessSelect.Uses (LivenessOp self) := by
  refine Program.Uses.bind (Program.Uses.forM ?_) ?_
  · intro seat _
    exact (uses_publish ⟨rfl, rfl⟩).bind (fun _ => Program.uses_done _ _)
  · intro _
    refine Program.Uses.bind (uses_subscribe ?_) (fun _ => uses_lift _ _)
    rfl

theorem commitSeat_uses (self : SigningSession) (topic : String)
    (nonces : BTreeMap Identifier EphemeralNonces) (id : Identifier) :
    (self.commitSeat topic nonces id).Uses (CommitOp topic) := by
  refine (uses_lift _ _).bind (fun _ => (uses_lift _ _).bind (fun _ => ?_))
  refine (uses_draw trivial).bind (fun _ => (uses_lift _ _).bind (fun _ => ?_))
  exact (uses_publish ⟨rfl, rfl⟩).bind (fun _ => Program.uses_done _ _)

theorem round1_uses [Bitcoin] (self : SigningSession) (i : Nat) (selected : List Identifier) :
    (self.round1 i selected).Uses (CommitOp (self.topic i)) := by
  refine (uses_lift _ _).bind (fun _ => Program.Uses.bind (Program.Uses.foldlM ?_ _) ?_)
  · intro nonces id _
    exact self.commitSeat_uses (self.topic i) nonces id
  · intro nonces
    refine Program.Uses.bind (uses_subscribe ?_) (fun _ => ?_)
    · rfl
    · exact (uses_lift _ _).bind (fun _ => Program.uses_done _ _)

variable [Bitcoin] [Build]

theorem signSeat_uses (self : SigningSession) (i : Nat) (pkg : SigningPackage SigningCommitments)
    (prevouts : List TxOut) (yes : Bool) (seatNonce : Identifier × EphemeralNonces) :
    (self.signSeat i pkg prevouts yes seatNonce).Uses (ShareOp (self.topic i)) := by
  refine (uses_lift _ _).bind (fun _ => (uses_lift _ _).bind (fun _ => ?_))
  refine (Program.uses_ofExcept _ _).bind (fun _ => (uses_lift _ _).bind (fun _ => ?_))
  exact (uses_publish ⟨rfl, rfl⟩).bind (fun _ => Program.uses_done _ _)

theorem collectShares_uses (self : SigningSession) (i : Nat) (r1 : Round1) (yes : Bool) :
    (self.collectShares i r1 yes).Uses (ShareOp (self.topic i)) := by
  refine (uses_lift _ _).bind (fun prevouts => Program.Uses.bind (Program.Uses.forM ?_) ?_)
  · intro seatNonce _
    exact self.signSeat_uses i r1.signingPackage prevouts yes seatNonce
  · intro _
    refine Program.Uses.bind (uses_subscribe ?_) (fun _ => uses_lift _ _)
    rfl

theorem round2_uses (self : SigningSession) (i : Nat) (r1 : Round1) (yes : Bool) :
    (self.round2 i r1 yes).Uses (ShareOp (self.topic i)) :=
  (self.collectShares_uses i r1 yes).bind (fun _ => uses_lift _ _)

theorem signInput_uses (self : SigningSession) (selected : List Identifier) (yes : Bool)
    (tx : Transaction) (i : Nat) :
    (self.signInput selected yes tx i).Uses (RoundOp self [i]) := by
  refine ((self.round1_uses i selected).mono ?_).bind (fun r1 =>
    ((self.round2_uses i r1 yes).mono ?_).bind (fun _ => (uses_lift _ _).bind (fun _ => ?_)))
  · exact fun _ h => ⟨i, List.mem_singleton_self i, Or.inl h⟩
  · exact fun _ h => ⟨i, List.mem_singleton_self i, Or.inr h⟩
  · exact Program.uses_done _ _

theorem loop_uses (self : SigningSession) (selected : List Identifier) (yes : Bool)
    (inputs : List Nat) (tx : Transaction) :
    (inputs.foldlM (self.signInput selected yes) tx).Uses (RoundOp self inputs) := by
  refine Program.Uses.foldlM ?_ tx
  intro tx i hi
  refine (self.signInput_uses selected yes tx i).mono ?_
  rintro op ⟨j, hj, h⟩
  exact ⟨i, hi, List.mem_singleton.mp hj ▸ h⟩

/-! ## Errors -/

omit [Bitcoin] [Build] in
theorem prevouts_error {self : SigningSession} {e : SessionError} (h : self.prevouts = .error e) :
    ∃ k, e = .noWitnessUtxo k := by
  have general : ∀ (inputs : List (PsbtInput × Nat)),
      inputs.mapM prevout = .error e → ∃ k, e = .noWitnessUtxo k := by
    intro inputs
    induction inputs with
    | nil =>
        intro h
        cases h
    | cons input inputs ih =>
        obtain ⟨input, k⟩ := input
        intro h
        rw [List.mapM_cons] at h
        cases hutxo : prevout (input, k) with
        | error e' =>
            rw [hutxo] at h
            cases h
            exact ⟨k, (Option.okOr_eq_error.mp hutxo).2.symm⟩
        | ok utxo =>
            rw [hutxo, Except.ok_bind] at h
            cases hrest : inputs.mapM prevout with
            | error e' =>
                rw [hrest] at h
                cases h
                exact ih hrest
            | ok utxos =>
                rw [hrest] at h
                cases h
  exact general _ h

omit [Bitcoin] [Build] in
theorem finishSignature_error {self : SigningSession} {pkg : SigningPackage SigningCommitments}
    {shares : BTreeMap Identifier SignatureShare} {e : SessionError}
    (h : self.finishSignature pkg shares = .error e) : ∃ e', e = .aggregate e' := by
  unfold finishSignature at h
  cases hagg : aggregate pkg shares self.group with
  | error e' =>
      rw [hagg] at h
      cases h
      exact ⟨e', rfl⟩
  | ok sig =>
      rw [hagg] at h
      cases hverify : verifyAgainstQ sig pkg.message self.group with
      | error e' =>
          simp only [Except.mapError_ok, Except.ok_bind, hverify] at h
          cases h
          exact ⟨e', rfl⟩
      | ok u =>
          simp only [Except.mapError_ok, Except.ok_bind, hverify] at h
          cases h

end SigningSession

end Session
