-- SUMMARY: Whatever the transport answers, a transaction that a run returns carries one valid signature per input.
import Cheget.Session.Loops
import Cheget.Session.Plain

namespace Session

open Chain Crypto Transport

variable [Frost]

namespace SigningSession

/-! ## What the rounds guarantee -/

/-- The prevouts are the `witness_utxo` of all inputs, in order. -/
theorem prevouts_eq_ok {self : SigningSession} {prevouts : List TxOut} :
    self.prevouts = .ok prevouts ↔ self.psbt.inputs.map PsbtInput.witnessUtxo = prevouts.map some := by
  have general : ∀ (inputs : List PsbtInput) (k : Nat) (prevouts : List TxOut),
      (inputs.zipIdx k).mapM prevout = .ok prevouts ↔
      inputs.map PsbtInput.witnessUtxo = prevouts.map some := by
    intro inputs
    induction inputs with
    | nil =>
        intro k prevouts
        cases prevouts <;> simp [pure, Except.pure]
    | cons input inputs ih =>
        intro k prevouts
        rw [List.zipIdx_cons, List.mapM_cons, Except.bind_eq_ok]
        constructor
        · rintro ⟨utxo, hutxo, h⟩
          obtain ⟨rest, hrest, h⟩ := Except.bind_eq_ok.mp h
          cases h
          rw [List.map_cons, List.map_cons, Option.okOr_eq_ok.mp hutxo, (ih (k + 1) rest).mp hrest]
        · intro h
          cases prevouts with
          | nil => cases h
          | cons utxo rest =>
              rw [List.map_cons, List.map_cons, List.cons.injEq] at h
              refine ⟨utxo, Option.okOr_eq_ok.mpr h.1, ?_⟩
              rw [(ih (k + 1) rest).mpr h.2]
              rfl
  exact general self.psbt.inputs 0 prevouts

theorem sighash_eq_ok [Bitcoin] {self : SigningSession} {i : Nat} {sighash : TapSighash} :
    self.sighash i = .ok sighash ↔
      ∃ prevouts, self.prevouts = .ok prevouts ∧
        keySpendSighash self.psbt.unsignedTx i prevouts = .ok sighash := by
  simp only [SigningSession.sighash, Except.bind_eq_ok, Except.mapError_eq_ok]

/-- A signature leaves round 2 only once it verifies against the output key. -/
theorem finishSignature_eq_ok {self : SigningSession} {pkg : SigningPackage SigningCommitments}
    {shares : BTreeMap Identifier SignatureShare} {sig : Signature} :
    self.finishSignature pkg shares = .ok sig ↔
      Frost.aggregateWithTweak pkg shares self.group = .ok sig ∧
        Frost.verify (outputKeyQ self.group) pkg.message sig = .ok () := by
  simp only [finishSignature, aggregate, verifyAgainstQ, Except.bind_eq_ok, Except.mapError_eq_ok]
  constructor
  · rintro ⟨sig', hagg, _, hverify, h⟩
    cases h
    exact ⟨hagg, hverify⟩
  · rintro ⟨hagg, hverify⟩
    exact ⟨sig, hagg, (), hverify, rfl⟩

variable [Bitcoin] {σ : Type} {w : World σ} {self : SigningSession}

/-- The message of a signing package is the sighash of the PSBT's own input. -/
theorem round1_message {i : Nat} {selected : List Identifier} {s : σ} {r1 : Round1}
    (h : ((self.round1 i selected).run w s).result = .ok r1) :
    ∃ sighash, self.sighash i = .ok sighash ∧ r1.signingPackage.message = sighash.toList := by
  obtain ⟨sighash, hsighash, hmessage, -⟩ := round1_eq_ok h
  exact ⟨sighash, hsighash, hmessage⟩

variable [Build]

theorem round2_verified {i : Nat} {r1 : Round1} {yes : Bool} {s : σ} {sig : Signature}
    (h : ((self.round2 i r1 yes).run w s).result = .ok sig) :
    Frost.verify (outputKeyQ self.group) r1.signingPackage.message sig = .ok () := by
  obtain ⟨shares, _, h⟩ := Program.result_bind_ok h
  rw [run_lift] at h
  exact (finishSignature_eq_ok.mp (Except.mapError_eq_ok.mp h)).2

/-! ## Soundness -/

/-- Input `i` of `tx` has one 64-byte witness element: a signature under the
    output key for the sighash of that input in the unsigned transaction. -/
def InputSigned (self : SigningSession) (tx : Transaction) (i : Nat) : Prop :=
  ∃ (prevouts : List TxOut) (sighash : TapSighash) (sig : Signature) (bytes : Vector UInt8 64),
    self.psbt.inputs.map PsbtInput.witnessUtxo = prevouts.map some ∧
    keySpendSighash self.psbt.unsignedTx i prevouts = .ok sighash ∧
    Frost.verify (outputKeyQ self.group) sighash.toList sig = .ok () ∧
    Frost.serializeSignature sig = .ok bytes.toList ∧
    tx.input[i]?.map TxIn.witness = some [bytes.toList]

/-- One input: its witness is now signed, and the other inputs are untouched. -/
theorem signInput_sound {selected : List Identifier} {yes : Bool} {tx tx' : Transaction} {i : Nat}
    {s : σ} (hi : i < tx.input.length)
    (h : ((self.signInput selected yes tx i).run w s).result = .ok tx') :
    tx'.stripWitnesses = tx.stripWitnesses ∧ tx'.input.length = tx.input.length ∧
      self.InputSigned tx' i ∧ ∀ j, j ≠ i → tx'.input[j]? = tx.input[j]? := by
  obtain ⟨r1, sig, bytes, hr1, hsig, hbytes, rfl⟩ := signInput_eq_ok.mp h
  obtain ⟨sighash, hsighash, hmessage⟩ := round1_message hr1
  obtain ⟨prevouts, hprevouts, hhash⟩ := sighash_eq_ok.mp hsighash
  have hverified := round2_verified hsig
  rw [hmessage] at hverified
  refine ⟨tx.stripWitnesses_setWitness i _, tx.setWitness_input_length i _, ?_, ?_⟩
  · refine ⟨prevouts, sighash, sig, bytes, prevouts_eq_ok.mp hprevouts, hhash, hverified,
      signatureBytes_eq_ok hbytes, ?_⟩
    rw [tx.getElem?_setWitness, if_pos rfl, List.getElem?_eq_getElem hi]
    rfl
  · intro j hj
    rw [tx.getElem?_setWitness, if_neg (Ne.symm hj)]

/-- The loop: every listed input is signed, and the others are untouched. -/
theorem loop_sound {selected : List Identifier} {yes : Bool} {is : List Nat} (hnodup : is.Nodup)
    {tx tx' : Transaction} {s : σ} (hbound : ∀ i ∈ is, i < tx.input.length)
    (h : ((is.foldlM (self.signInput selected yes) tx).run w s).result = .ok tx') :
    tx'.stripWitnesses = tx.stripWitnesses ∧ (∀ i ∈ is, self.InputSigned tx' i) ∧
      ∀ j ∉ is, tx'.input[j]? = tx.input[j]? := by
  induction is generalizing tx s with
  | nil =>
      cases h
      exact ⟨rfl, by simp, fun _ _ => rfl⟩
  | cons i is ih =>
      obtain ⟨hfresh, hnodup⟩ := List.nodup_cons.mp hnodup
      rw [List.foldlM_cons] at h
      obtain ⟨tx₁, h₁, h⟩ := Program.result_bind_ok h
      obtain ⟨hstrip₁, hlength, hsigned, hkeep₁⟩ :=
        signInput_sound (hbound i List.mem_cons_self) h₁
      obtain ⟨hstrip, hall, hkeep⟩ := ih hnodup
        (fun k hk => hlength ▸ hbound k (List.mem_cons_of_mem i hk)) h
      refine ⟨hstrip.trans hstrip₁, ?_, ?_⟩
      · intro j hj
        rcases List.mem_cons.mp hj with rfl | hj
        · -- The rest of the loop does not touch the witness just attached.
          obtain ⟨prevouts, sighash, sig, bytes, h₁, h₂, h₃, h₄, h₅⟩ := hsigned
          exact ⟨prevouts, sighash, sig, bytes, h₁, h₂, h₃, h₄, by rw [hkeep j hfresh]; exact h₅⟩
        · exact hall j hj
      · intro j hj
        rw [List.mem_cons, not_or] at hj
        rw [hkeep j hj.2, hkeep₁ j hj.1]

/-- A session that returns a transaction has signed every input. -/
theorem signAll_sound {s : σ} {yes : Bool} {tx : Transaction}
    (h : ((self.signAll yes).run w s).result = .ok tx) :
    tx.SameUpToWitnesses self.psbt.unsignedTx ∧
      ∀ i < self.psbt.unsignedTx.input.length, self.InputSigned tx i := by
  obtain ⟨hunspent, -, -⟩ := signAll_completes.mp ⟨tx, h⟩
  simp only [signAll, hunspent, Bool.false_eq_true, if_false] at h
  obtain ⟨selected, -, hloop⟩ := Program.result_bind_ok h
  obtain ⟨hsame, hsigned, -⟩ := loop_sound List.nodup_range (fun i hi => List.mem_range.mp hi) hloop
  exact ⟨hsame, fun i hi => hsigned i (List.mem_range.mpr hi)⟩

/-- A transaction that a run returns, over any transport, is the unsigned
    transaction with a verified signature on every input. -/
theorem run_sound (w : World σ) (s : σ) (self : SigningSession) (yes : Bool) (tx : Transaction)
    (h : ((self.run yes : Action Empty _).run w s).value.1 = .ok tx) :
    tx.SameUpToWitnesses self.psbt.unsignedTx ∧
      ∀ i < self.psbt.unsignedTx.input.length, self.InputSigned tx i := by
  rw [run_run, Program.Run.value_ok] at h
  exact signAll_sound h

end SigningSession

end Session

namespace Session

open Plain

/-- A run of the plain session returns a transaction, and both its inputs are
    signed. -/
theorem SigningSession.run_sound_plain :
    ∃ tx, ((session.run true : Action Empty _).run Host.world host).value.1 = .ok tx ∧
      tx.SameUpToWitnesses session.psbt.unsignedTx ∧
      session.InputSigned tx 0 ∧ session.InputSigned tx 1 := by
  have hok : (((session.run true : Action Empty _).run Host.world host).value.1).isOk = true := by
    decide +kernel
  obtain ⟨tx, htx⟩ := Except.exists_ok_of_isOk hok
  obtain ⟨hsame, hsigned⟩ := run_sound Host.world host session true tx htx
  exact ⟨tx, htx, hsame, hsigned 0 (by decide), hsigned 1 (by decide)⟩

end Session
