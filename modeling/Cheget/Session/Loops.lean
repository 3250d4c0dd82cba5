-- SUMMARY: What one seat does in either round, and what the loop over the seats does, whatever the transport answers.
import Cheget.Base.List
import Cheget.Session.Seats
import Cheget.Session.Stages

namespace Session

open Chain Crypto Transport

variable [Frost] {σ : Type}

namespace SigningSession

/-! ## Committing -/

/-- `env` carries the commitments to the nonces that `nonces` holds for `id`. -/
def CommitsTo (self : SigningSession) (topic : String) (nonces : BTreeMap Identifier EphemeralNonces)
    (id : Identifier) (env : Envelope) : Prop :=
  ∃ kp seat entropy payload,
    self.keyPackages[id]? = some kp ∧ self.seatOfId[id]? = some seat ∧
    nonces[id]? = some ⟨Frost.newNonces (Frost.signingShare kp) entropy⟩ ∧
    Frost.serializeCommitments
      (Frost.commitmentsOf (Frost.newNonces (Frost.signingShare kp) entropy)) = .ok payload ∧
    env = commitmentEnvelope topic seat payload

/-- Everything a seat can do in round 1: fail before it publishes anything, or
    publish the commitments to the nonces it keeps. -/
theorem commitSeat_cases (self : SigningSession) (topic : String)
    (nonces : BTreeMap Identifier EphemeralNonces) (id : Identifier) (w : World σ) (s : σ) :
    (∃ e, ((self.commitSeat topic nonces id).run w s).result = .error e ∧
        published ((self.commitSeat topic nonces id).run w s).trace = [] ∧
        (self.keyPackages[id]? = none ∨ self.seatOfId[id]? = none ∨
          ∃ kp entropy e', self.keyPackages[id]? = some kp ∧
            Frost.serializeCommitments
              (Frost.commitmentsOf (Frost.newNonces (Frost.signingShare kp) entropy)) =
                .error e')) ∨
    ∃ nonces' env,
      ((self.commitSeat topic nonces id).run w s).result = .ok nonces' ∧
      published ((self.commitSeat topic nonces id).run w s).trace = [env] ∧
      self.CommitsTo topic nonces' id env ∧ ∀ id', id' ≠ id → nonces'[id']? = nonces[id']? := by
  unfold commitSeat
  cases hkp : self.keyPackages[id]? with
  | none => exact Or.inl ⟨_, rfl, rfl, Or.inl rfl⟩
  | some kp =>
      cases hseat : self.seatOfId[id]? with
      | none => exact Or.inl ⟨_, rfl, rfl, Or.inr (Or.inl rfl)⟩
      | some seat =>
          simp only [Option.okOr_some, lift_ok, Program.done_bind, Program.run_bind, run_draw,
            Program.Run.andThen, EphemeralNonces.commit]
          cases hpayload : Frost.serializeCommitments (Frost.commitmentsOf
              (Frost.newNonces (Frost.signingShare kp) (w .draw s).1)) with
          | error e =>
              exact Or.inl ⟨_, rfl, rfl, Or.inr (Or.inr ⟨kp, _, e, rfl, hpayload⟩)⟩
          | ok payload =>
              refine Or.inr ⟨_, commitmentEnvelope topic seat payload, rfl, rfl, ?_, ?_⟩
              · refine ⟨kp, seat, _, payload, hkp, hseat, ?_, hpayload, rfl⟩
                rw [BTreeMap.getElem?_insert, if_pos rfl]
              · intro id' hid'
                rw [BTreeMap.getElem?_insert, if_neg (Ne.symm hid')]

variable {self : SigningSession} {topic : String} {w : World σ}

/-- The loop of round 1: each selected seat publishes the commitments to the
    nonces that it ends up holding. -/
theorem commitLoop_ok {selected : List Identifier} (hnodup : selected.Nodup)
    {acc nonces : BTreeMap Identifier EphemeralNonces} {s : σ}
    (h : ((selected.foldlM (self.commitSeat topic) acc).run w s).result = .ok nonces) :
    List.Forall₂ (self.CommitsTo topic nonces) selected
        (published ((selected.foldlM (self.commitSeat topic) acc).run w s).trace) ∧
      ∀ id ∉ selected, nonces[id]? = acc[id]? := by
  induction selected generalizing acc s with
  | nil =>
      cases h
      exact ⟨List.Forall₂.nil, fun _ _ => rfl⟩
  | cons id selected ih =>
      obtain ⟨hfresh, hnodup⟩ := List.nodup_cons.mp hnodup
      rw [List.foldlM_cons] at h ⊢
      obtain ⟨acc', hacc', h⟩ := Program.result_bind_ok h
      rw [Program.run_bind_ok hacc', published_append]
      obtain ⟨hrest, hkeep⟩ := ih hnodup h
      rcases self.commitSeat_cases topic acc id w s with
        ⟨e, he, -⟩ | ⟨acc'', env, hok, hpub, hcommit, hframe⟩
      · rw [hacc'] at he
        cases he
      · rw [hacc'] at hok
        cases hok
        rw [hpub]
        refine ⟨List.Forall₂.cons ?_ hrest, ?_⟩
        · obtain ⟨kp, seat, entropy, payload, h₁, h₂, h₃, h₄, h₅⟩ := hcommit
          exact ⟨kp, seat, entropy, payload, h₁, h₂, by rw [hkeep id hfresh, h₃], h₄, h₅⟩
        · intro id' hid'
          rw [List.mem_cons, not_or] at hid'
          rw [hkeep id' hid'.2, hframe id' hid'.1]

/-- The loop of round 1 goes through once every seat is in the roster and its
    commitments can be encoded. -/
theorem commitLoop_completes (self : SigningSession) (topic : String) {selected : List Identifier}
    (hselected : ∀ id ∈ selected, ∃ kp, self.keyPackages[id]? = some kp ∧
      ∀ entropy, ∃ payload, Frost.serializeCommitments
        (Frost.commitmentsOf (Frost.newNonces (Frost.signingShare kp) entropy)) = .ok payload)
    (acc : BTreeMap Identifier EphemeralNonces) (w : World σ) (s : σ) :
    ∃ nonces, ((selected.foldlM (self.commitSeat topic) acc).run w s).result = .ok nonces := by
  induction selected generalizing acc s with
  | nil => exact ⟨acc, rfl⟩
  | cons id selected ih =>
      rw [List.foldlM_cons]
      obtain ⟨kp, hkp, hencode⟩ := hselected id List.mem_cons_self
      obtain ⟨seat, hseat⟩ := seatOfId_of_keyPackage hkp
      rcases self.commitSeat_cases topic acc id w s with
        ⟨e, -, -, h | h | ⟨kp', entropy, e', hkp', h⟩⟩ | ⟨acc', env, hok, -⟩
      · rw [hkp] at h
        cases h
      · rw [hseat] at h
        cases h
      · rw [hkp] at hkp'
        cases hkp'
        obtain ⟨payload, hpayload⟩ := hencode entropy
        rw [hpayload] at h
        cases h
      · rw [Program.run_bind_ok hok]
        exact ih (fun id hid => hselected id (List.mem_cons_of_mem _ hid)) acc' _

/-- Round 1: the nonces are those of the loop, the commitments are what the
    transport returned, and the message is the sighash. -/
theorem round1_eq_ok [Bitcoin] {i : Nat} {selected : List Identifier} {s : σ} {r1 : Round1}
    (h : ((self.round1 i selected).run w s).result = .ok r1) :
    ∃ sighash,
      self.sighash i = .ok sighash ∧ r1.signingPackage.message = sighash.toList ∧
      ((selected.foldlM (self.commitSeat (self.topic i)) ∅).run w s).result = .ok r1.nonces ∧
      published ((self.round1 i selected).run w s).trace =
        published ((selected.foldlM (self.commitSeat (self.topic i)) ∅).run w s).trace ∧
      BTreeMap.collect (self.selectedSender selected)
        (fun env => Frost.deserializeCommitments env.payload)
        (w (.subscribe (commitmentFilter (self.topic i)))
          ((selected.foldlM (self.commitSeat (self.topic i)) ∅).run w s).state).1 =
        .ok r1.signingPackage.signingCommitments := by
  unfold round1 at h ⊢
  cases hsighash : self.sighash i with
  | error e =>
      rw [hsighash] at h
      cases h
  | ok sighash =>
      simp only [hsighash, lift_ok, Program.done_bind] at h ⊢
      obtain ⟨nonces, hnonces, h⟩ := Program.result_bind_ok h
      rw [Program.run_bind_ok hnonces]
      simp only [Program.run_bind, run_subscribe, run_lift, Program.Run.andThen] at h ⊢
      cases hcollect : BTreeMap.collect (self.selectedSender selected)
          (fun env => Frost.deserializeCommitments env.payload)
          (w (.subscribe (commitmentFilter (self.topic i)))
            ((selected.foldlM (self.commitSeat (self.topic i)) ∅).run w s).state).1 with
      | error e =>
          simp [hcollect] at h
      | ok commitments =>
          simp only [hcollect, Except.mapError_ok, Program.pure_def, Program.run_done] at h
          cases h
          exact ⟨sighash, rfl, rfl, hnonces, by simp, rfl⟩

/-! ## Signing -/

variable [Bitcoin] [Build]

/-- `env` carries the share of one seat under its nonces, and the gate was open. -/
def SharesAs (self : SigningSession) (i : Nat) (pkg : SigningPackage SigningCommitments)
    (prevouts : List TxOut) (yes : Bool) (seatNonce : Identifier × EphemeralNonces)
    (env : Envelope) : Prop :=
  ∃ kp seat summary share,
    self.keyPackages[seatNonce.1]? = some kp ∧ self.seatOfId[seatNonce.1]? = some seat ∧
    displayAndAck self.psbt.unsignedTx prevouts i pkg.message yes self.network = .ok summary ∧
    seatNonce.2.sign pkg kp = .ok share ∧
    env = shareEnvelope (self.topic i) seat (Frost.serializeShare share)

/-- Why a seat stops in round 2. -/
inductive SignFailure (self : SigningSession) (i : Nat) (pkg : SigningPackage SigningCommitments)
    (prevouts : List TxOut) (yes : Bool) (seatNonce : Identifier × EphemeralNonces) :
    Abort SessionError → Prop where
  | noKeyPackage (h : self.keyPackages[seatNonce.1]? = none) :
      SignFailure self i pkg prevouts yes seatNonce (.error (.unknownSeat seatNonce.1))
  | noSeat (h : self.seatOfId[seatNonce.1]? = none) :
      SignFailure self i pkg prevouts yes seatNonce (.error (.unknownSeat seatNonce.1))
  | gate (e : Abort DisplayError)
      (h : displayAndAck self.psbt.unsignedTx prevouts i pkg.message yes self.network = .error e) :
      SignFailure self i pkg prevouts yes seatNonce (e.map .display)
  | sign (kp : KeyPackage) (e : Frost.Error) (hkp : self.keyPackages[seatNonce.1]? = some kp)
      (h : seatNonce.2.sign pkg kp = .error e) :
      SignFailure self i pkg prevouts yes seatNonce (.error (.frost e))

/-- Everything a seat can do in round 2: fail before it publishes anything, or
    pass the gate and publish its share. -/
theorem signSeat_cases (self : SigningSession) (i : Nat) (pkg : SigningPackage SigningCommitments)
    (prevouts : List TxOut) (yes : Bool) (seatNonce : Identifier × EphemeralNonces) (w : World σ)
    (s : σ) :
    (∃ e, ((self.signSeat i pkg prevouts yes seatNonce).run w s).result = .error e ∧
        published ((self.signSeat i pkg prevouts yes seatNonce).run w s).trace = [] ∧
        self.SignFailure i pkg prevouts yes seatNonce e) ∨
    ∃ env,
      ((self.signSeat i pkg prevouts yes seatNonce).run w s).result = .ok () ∧
      published ((self.signSeat i pkg prevouts yes seatNonce).run w s).trace = [env] ∧
      self.SharesAs i pkg prevouts yes seatNonce env := by
  obtain ⟨id, nonce⟩ := seatNonce
  simp only [signSeat]
  cases hkp : self.keyPackages[id]? with
  | none => exact Or.inl ⟨_, rfl, rfl, .noKeyPackage hkp⟩
  | some kp =>
      cases hseat : self.seatOfId[id]? with
      | none => exact Or.inl ⟨_, rfl, rfl, .noSeat hseat⟩
      | some seat =>
          cases hgate : displayAndAck self.psbt.unsignedTx prevouts i pkg.message yes
              self.network with
          | error e => exact Or.inl ⟨_, rfl, rfl, .gate e hgate⟩
          | ok summary =>
              simp only [Option.okOr_some, lift_ok, Except.mapError_ok, Program.ofExcept_ok,
                Program.done_bind]
              cases hsign : nonce.sign pkg kp with
              | error e => exact Or.inl ⟨_, rfl, rfl, .sign kp e hkp hsign⟩
              | ok share =>
                  exact Or.inr ⟨_, rfl, rfl, kp, seat, summary, share, hkp, hseat, hgate, hsign, rfl⟩

/-- The loop of round 2: the seats sign in order, one share each, up to the
    first that fails. -/
theorem signLoop_cases (self : SigningSession) (i : Nat) (pkg : SigningPackage SigningCommitments)
    (prevouts : List TxOut) (yes : Bool) (seats : List (Identifier × EphemeralNonces))
    (w : World σ) (s : σ) :
    ∃ done rest, seats = done ++ rest ∧
      List.Forall₂ (self.SharesAs i pkg prevouts yes) done
        (published ((seats.forM (self.signSeat i pkg prevouts yes)).run w s).trace) ∧
      ((rest = [] ∧ ((seats.forM (self.signSeat i pkg prevouts yes)).run w s).result = .ok ()) ∨
        ∃ seatNonce rest' e, rest = seatNonce :: rest' ∧
          ((seats.forM (self.signSeat i pkg prevouts yes)).run w s).result = .error e ∧
          self.SignFailure i pkg prevouts yes seatNonce e) := by
  induction seats generalizing s with
  | nil => exact ⟨[], [], rfl, .nil, Or.inl ⟨rfl, rfl⟩⟩
  | cons seatNonce seats ih =>
      have hcons : (seatNonce :: seats).forM (self.signSeat i pkg prevouts yes) =
          (self.signSeat i pkg prevouts yes seatNonce >>= fun _ =>
            seats.forM (self.signSeat i pkg prevouts yes)) := rfl
      rw [hcons]
      rcases self.signSeat_cases i pkg prevouts yes seatNonce w s with
        ⟨e, he, hpub, hfail⟩ | ⟨env, hok, hpub, hshare⟩
      · rw [Program.run_bind_error he, hpub]
        exact ⟨[], seatNonce :: seats, rfl, .nil, Or.inr ⟨seatNonce, seats, e, rfl, rfl, hfail⟩⟩
      · rw [Program.run_bind_ok hok, published_append, hpub]
        obtain ⟨done, rest, rfl, hshares, hend⟩ :=
          ih ((self.signSeat i pkg prevouts yes seatNonce).run w s).state
        exact ⟨seatNonce :: done, rest, rfl, .cons hshare hshares, hend⟩

/-- The share map: what the transport returned after every seat has signed. -/
theorem collectShares_eq_ok {i : Nat} {r1 : Round1} {yes : Bool} {s : σ} {shares : BTreeMap Identifier SignatureShare}
    (h : ((self.collectShares i r1 yes).run w s).result = .ok shares) :
    ∃ prevouts,
      self.prevouts = .ok prevouts ∧
      ((r1.nonces.toList.forM (self.signSeat i r1.signingPackage prevouts yes)).run w s).result =
        .ok () ∧
      published ((self.collectShares i r1 yes).run w s).trace =
        published ((r1.nonces.toList.forM
          (self.signSeat i r1.signingPackage prevouts yes)).run w s).trace ∧
      BTreeMap.collect (fun env => self.idOfSeat[env.seat]?)
        (fun env => Frost.deserializeShare env.payload)
        (w (.subscribe (shareFilter (self.topic i)))
          ((r1.nonces.toList.forM
            (self.signSeat i r1.signingPackage prevouts yes)).run w s).state).1 = .ok shares := by
  unfold collectShares at h ⊢
  cases hprevouts : self.prevouts with
  | error e =>
      rw [hprevouts] at h
      cases h
  | ok prevouts =>
      simp only [hprevouts, lift_ok, Program.done_bind] at h ⊢
      obtain ⟨u, hloop, h⟩ := Program.result_bind_ok h
      rw [Program.run_bind_ok hloop]
      simp only [Program.run_bind, run_subscribe, run_lift, Program.Run.andThen] at h ⊢
      exact ⟨prevouts, rfl, hloop, by simp,
        Except.mapError_eq_ok.mp (Except.mapError_eq_ok.mp h)⟩

end SigningSession

end Session
