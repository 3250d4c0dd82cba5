-- SUMMARY: A run over an in-memory board without earlier traffic completes, with the same threshold of seats on every input.
import Cheget.Session.Attempt
import Cheget.Session.BlindSign
import Cheget.Session.Topic

/-!
# Honest runs

What is assumed of FROST and of the sighash is stated once, as `Ready`. The
rest of the module follows one input through the two rounds and then the loop
over the inputs.
-/

namespace Session

open Chain Crypto Transport

variable [Frost]

/-! ## Assumptions -/

/-- A session that has not run, over a roster of one key generation with
    threshold `m`, for a PSBT that is complete. -/
structure SigningSession.Ready [Bitcoin] (session : SigningSession) (m : Nat) : Prop where
  codec : Codec
  together : SignsTogether session.keyPackages session.group m
  roster : session.keyPackages.size ≤ 65535
  threshold : m ≤ session.t
  enough : session.t ≤ session.keyPackages.size
  unspent : session.spent = false
  inputs : session.psbt.inputs.length = session.psbt.unsignedTx.input.length
  utxos : ∀ input ∈ session.psbt.inputs, input.witnessUtxo.isSome
  inputTotal : total ((session.psbt.inputs.filterMap PsbtInput.witnessUtxo).map TxOut.value) <
    UInt64.size
  outputTotal : total (session.psbt.unsignedTx.output.map TxOut.value) < UInt64.size
  /-- The sighash of an input within range exists once all prevouts are known. -/
  hashes : ∀ i prevouts, i < session.psbt.unsignedTx.input.length →
    prevouts.length = session.psbt.unsignedTx.input.length →
      ∃ sighash, keySpendSighash session.psbt.unsignedTx i prevouts = .ok sighash

namespace SigningSession

variable [Bitcoin] {self : SigningSession} {m : Nat}

theorem Ready.numbered (h : self.Ready m) : self.Numbered := by
  have hroster := h.roster
  rw [Numbered, Std.ExtTreeMap.length_keys]
  omega

/-- The prevouts of a complete PSBT. -/
theorem Ready.prevouts_eq (h : self.Ready m) :
    self.prevouts = .ok (self.psbt.inputs.filterMap PsbtInput.witnessUtxo) := by
  have general : ∀ inputs : List PsbtInput, (∀ input ∈ inputs, input.witnessUtxo.isSome) →
      inputs.map PsbtInput.witnessUtxo = (inputs.filterMap PsbtInput.witnessUtxo).map some := by
    intro inputs
    induction inputs with
    | nil => exact fun _ => rfl
    | cons input inputs ih =>
        intro hall
        obtain ⟨utxo, hutxo⟩ := Option.isSome_iff_exists.mp (hall input List.mem_cons_self)
        rw [List.map_cons, List.filterMap_cons_some hutxo, List.map_cons, hutxo,
          ih (fun input' hin => hall input' (List.mem_cons_of_mem _ hin))]
  exact prevouts_eq_ok.mpr (general _ h.utxos)

omit [Bitcoin] in
/-- As many prevouts as the PSBT has inputs. -/
theorem length_prevouts {prevouts : List TxOut} (h : self.prevouts = .ok prevouts) :
    prevouts.length = self.psbt.inputs.length := by
  rw [← List.length_map (f := some), ← prevouts_eq_ok.mp h, List.length_map]

end SigningSession

/-- The rounds of the session, over these prevouts, have no reason to fail. -/
structure SigningSession.Signable [Bitcoin] [Build] (session : SigningSession) (m : Nat)
    (prevouts : List TxOut) : Prop where
  codec : Codec
  together : SignsTogether session.keyPackages session.group m
  numbered : session.Numbered
  threshold : m ≤ session.t
  prevouts_eq : session.prevouts = .ok prevouts
  summary : ∃ summary, summarize session.psbt.unsignedTx prevouts session.network = some summary
  hashes : ∀ i < session.psbt.unsignedTx.input.length,
    ∃ sighash, keySpendSighash session.psbt.unsignedTx i prevouts = .ok sighash

theorem SigningSession.Ready.signable [Bitcoin] [Build] {self : SigningSession} {m : Nat}
    (h : self.Ready m) : self.Signable m (self.psbt.inputs.filterMap PsbtInput.witnessUtxo) where
  codec := h.codec
  together := h.together
  numbered := h.numbered
  threshold := h.threshold
  prevouts_eq := h.prevouts_eq
  summary := summarize_of_lt self.network h.inputTotal h.outputTotal
  hashes i hi := h.hashes i _ hi ((length_prevouts h.prevouts_eq).trans h.inputs)

/-! ## Liveness -/

namespace SigningSession

variable {self : SigningSession} {s : Host} {envs : Set Envelope}

theorem published_acks (self : SigningSession) {σ : Type} (w : World σ) (seats : List Seat) (s : σ) :
    ((seats.forM (fun seat => do
        let _ ← publish (self.livenessAck seat)) : SessionM PUnit).run w s).result = .ok () ∧
      published ((seats.forM (fun seat => do
        let _ ← publish (self.livenessAck seat)) : SessionM PUnit).run w s).trace =
        seats.map self.livenessAck := by
  induction seats generalizing s with
  | nil => exact ⟨rfl, rfl⟩
  | cons seat seats ih =>
      obtain ⟨hok, hpub⟩ := ih (w (.publish (self.livenessAck seat)) s).2
      exact ⟨hok, congrArg (self.livenessAck seat :: ·) hpub⟩

/-- The responders are seats of the roster. -/
theorem roster_of_mem_responders (hnumbered : self.Numbered) {acks : List Envelope} {id : Identifier}
    (hid : id ∈ self.responders acks) : ∃ kp, self.keyPackages[id]? = some kp := by
  rw [responders, List.mem_destutter_ne, List.mem_insertionSort, List.mem_filterMap] at hid
  obtain ⟨env, -, hseat⟩ := hid
  obtain ⟨i, hi, -⟩ := (idOfSeat_eq_some hnumbered).mp hseat
  exact BTreeMap.mem_keys.mp (List.mem_of_getElem? hi)

theorem nodup_responders (self : SigningSession) (acks : List Envelope) :
    (self.responders acks).Nodup :=
  List.Pairwise.imp ne_of_lt (List.pairwise_destutter_ne (List.pairwise_insertionSort (· ≤ ·) _))

/-- The poll selects `t` seats of the roster, each once. -/
theorem livenessSelect_completes (hnumbered : self.Numbered)
    (henough : self.t ≤ self.keyPackages.size) (hfree : CollisionFree envs)
    (hheld : ∀ e, s.board.Holds e → e ∈ envs)
    (hpub : ∀ e ∈ published (self.livenessSelect.run Host.world s).trace, e ∈ envs) :
    ∃ selected, (self.livenessSelect.run Host.world s).result = .ok selected ∧
      selected.length = self.t ∧ selected.Nodup ∧
      ∀ id ∈ selected, ∃ kp, self.keyPackages[id]? = some kp := by
  obtain ⟨hloop, hacks⟩ := self.published_acks Host.world self.idOfSeat.keys s
  unfold livenessSelect at hpub ⊢
  rw [Program.run_bind_ok hloop] at hpub ⊢
  rw [published_append, hacks] at hpub
  simp only [Program.run_bind, run_subscribe, run_lift, Program.Run.andThen,
    Host.world_subscribe, Host.run_board, hacks]
  generalize hreturned :
    (s.board.publishAll (self.idOfSeat.keys.map self.livenessAck)).subscribe self.livenessFilter =
      returned
  -- Every roster seat is among the responders.
  have hall : self.keyPackages.keys ⊆ self.responders returned := by
    intro id hid
    obtain ⟨kp, hkp⟩ := BTreeMap.mem_keys.mp hid
    obtain ⟨seat, hseat⟩ := seatOfId_of_keyPackage hkp
    have hback := (idOfSeat_iff_seatOfId hnumbered).mpr hseat
    have hmem : self.livenessAck seat ∈ self.idOfSeat.keys.map self.livenessAck :=
      List.mem_map_of_mem (BTreeMap.mem_keys.mpr ⟨id, hback⟩)
    have hack : self.livenessAck seat ∈ returned := by
      rw [← hreturned, InMemoryTransport.mem_subscribe,
        InMemoryTransport.holds_publishAll_of_collisionFree hfree hheld
          (fun e he => hpub e (List.mem_append_left _ he))]
      exact ⟨Or.inr hmem, livenessFilter_matches self seat⟩
    rw [responders, List.mem_destutter_ne, List.mem_insertionSort, List.mem_filterMap]
    exact ⟨_, hack, hback⟩
  have hnodup := self.nodup_responders returned
  have hlength : self.t ≤ (self.responders returned).length := by
    have hkeys : self.keyPackages.keys.Nodup := Std.ExtTreeMap.nodup_keys
    have hsub := (List.subperm_of_subset hkeys hall).length_le
    rw [Std.ExtTreeMap.length_keys] at hsub
    omega
  refine ⟨(self.responders returned).take self.t, ?_, ?_, hnodup.sublist (List.take_sublist _ _), ?_⟩
  · rw [pollAndSelect_eq_ok.mpr ⟨hlength, rfl⟩]
    rfl
  · rw [List.length_take]
    omega
  · exact fun id hid => roster_of_mem_responders hnumbered (List.mem_of_mem_take hid)

/-- A poll succeeds only if the roster has `t` seats. -/
theorem le_size_of_livenessSelect {σ : Type} {w : World σ} {s : σ} (hnumbered : self.Numbered)
    {selected : List Identifier} (h : (self.livenessSelect.run w s).result = .ok selected) :
    self.t ≤ self.keyPackages.size := by
  unfold livenessSelect at h
  obtain ⟨_, -, h⟩ := Program.result_bind_ok h
  obtain ⟨acks, -, h⟩ := Program.result_bind_ok h
  rw [run_lift] at h
  have hpoll := Except.mapError_eq_ok.mp (Except.mapError_eq_ok.mp h)
  have hlength := (pollAndSelect_eq_ok.mp hpoll).1
  have hroster : self.responders acks ⊆ self.keyPackages.keys := fun id hid =>
    BTreeMap.mem_keys.mpr (roster_of_mem_responders hnumbered hid)
  have hle := (List.subperm_of_subset (self.nodup_responders acks) hroster).length_le
  rw [Std.ExtTreeMap.length_keys] at hle
  exact hlength.trans hle

/-! ## Round 1 -/

variable [Bitcoin] {m i : Nat} {selected : List Identifier}

/-- Round 1 completes once the seats are in the roster, the sighash exists, and
    the topic is fresh. -/
theorem round1_completes (hcodec : Codec)
    (hselected : ∀ id ∈ selected, ∃ kp, self.keyPackages[id]? = some kp) (hnodup : selected.Nodup)
    (htogether : SignsTogether self.keyPackages self.group m) {sighash : TapSighash}
    (hsighash : self.sighash i = .ok sighash)
    (hfresh : ∀ e ∈ s.board.subscribe (commitmentFilter (self.topic i)),
      self.selectedSender selected e = none) :
    ∃ r1, ((self.round1 i selected).run Host.world s).result = .ok r1 := by
  obtain ⟨nonces, hloop⟩ := self.commitLoop_completes (self.topic i)
    (fun id hid => by
      obtain ⟨kp, hkp⟩ := hselected id hid
      exact ⟨kp, hkp, fun entropy => htogether.encodes id kp entropy hkp⟩) ∅ Host.world s
  obtain ⟨hcommits, -⟩ := commitLoop_ok hnodup hloop
  obtain ⟨commitments, hcollect⟩ := InMemoryTransport.collect_readBack_ok
    (fun env => Frost.deserializeCommitments env.payload) hfresh (fun e he => by
      obtain ⟨id, -, kp, seat, entropy, payload, -, -, -, hpayload, rfl⟩ :=
        List.Forall₂.exists_left hcommits he
      exact ⟨_, hcodec.commitments _ _ hpayload⟩)
  unfold round1
  simp only [hsighash, lift_ok, Program.done_bind]
  rw [Program.run_bind_ok hloop]
  simp only [Program.run_bind, run_subscribe, run_lift, Program.Run.andThen, Host.world_subscribe,
    Host.run_board, hcollect]
  exact ⟨_, rfl⟩

/-- What round 1 leaves on a fresh topic is an honest round of the selected
    seats. -/
theorem round1_honest (hcodec : Codec) (hnumbered : self.Numbered) (hnodup : selected.Nodup)
    {r1 : Round1} (h : ((self.round1 i selected).run Host.world s).result = .ok r1)
    (hfree : CollisionFree envs) (hheld : ∀ e, s.board.Holds e → e ∈ envs)
    (hpub : ∀ e ∈ published ((self.round1 i selected).run Host.world s).trace, e ∈ envs)
    (hfresh : ∀ e ∈ s.board.subscribe (commitmentFilter (self.topic i)),
      self.selectedSender selected e = none) :
    r1.Honest self.keyPackages ∧ r1.nonces.keys.Perm selected := by
  have hisolated := round1_isolated hcodec (fun id _ => hnumbered.told id) hnodup h hfree hheld hpub hfresh
  obtain ⟨sighash, -, -, hloop, -, -⟩ := round1_eq_ok h
  obtain ⟨hcommits, hother⟩ := commitLoop_ok hnodup hloop
  refine ⟨⟨?_, fun id => (hisolated id).2⟩, ?_⟩
  · intro id nonce hnonce
    have hid : id ∈ selected := (hisolated id).1.mpr ⟨nonce, hnonce⟩
    obtain ⟨env, -, kp, seat, entropy, payload, hkp, -, hnonce', -, -⟩ :=
      List.Forall₂.exists_right hcommits hid
    rw [hnonce, Option.some.injEq] at hnonce'
    exact ⟨kp, entropy, hkp, hnonce'⟩
  · have hkeys : r1.nonces.keys.Nodup := Std.ExtTreeMap.nodup_keys
    rw [List.perm_ext_iff_of_nodup hkeys hnodup]
    intro id
    rw [BTreeMap.mem_keys, (hisolated id).1]

/-! ## Round 2 -/

variable [Build] {r1 : Round1}

/-- Round 2 completes for an acknowledged honest round of enough seats, on a
    topic that is fresh. -/
theorem round2_completes (hcodec : Codec) (hnumbered : self.Numbered)
    (htogether : SignsTogether self.keyPackages self.group m) (hhonest : r1.Honest self.keyPackages)
    (hsize : m ≤ r1.nonces.size) {prevouts : List TxOut} (hprevouts : self.prevouts = .ok prevouts)
    {summary : SpendSummary}
    (hgate : displayAndAck self.psbt.unsignedTx prevouts i r1.signingPackage.message true
      self.network = .ok summary)
    (hfree : CollisionFree envs) (hheld : ∀ e, s.board.Holds e → e ∈ envs)
    (hpub : ∀ e ∈ published ((self.round2 i r1 true).run Host.world s).trace, e ∈ envs)
    (hfresh : ∀ e ∈ s.board.subscribe (shareFilter (self.topic i)),
      self.idOfSeat[e.seat]? = none) :
    (∃ sig bytes, ((self.round2 i r1 true).run Host.world s).result = .ok sig ∧
        signatureBytes sig = .ok bytes) ∧
      List.Forall₂ (self.SharesAs i r1.signingPackage prevouts true) r1.nonces.toList
        (published ((self.round2 i r1 true).run Host.world s).trace) := by
  obtain ⟨done, rest, hsplit, hshares, hend⟩ := self.signLoop_cases i
    r1.signingPackage prevouts true r1.nonces.toList Host.world s
  -- No seat has a reason to stop.
  have hstop : ∀ seatNonce ∈ r1.nonces.toList, ∀ e,
      ¬ self.SignFailure i r1.signingPackage prevouts true seatNonce e := by
    rintro ⟨id, nonce⟩ hmem e hfail
    have hnonce := BTreeMap.mem_toList.mp hmem
    obtain ⟨kp, entropy, hkp, -⟩ := hhonest.nonces id nonce hnonce
    obtain ⟨seat, hseat⟩ := seatOfId_of_keyPackage hkp
    obtain ⟨share, hshare⟩ := htogether.signs r1 hhonest hsize id nonce kp hnonce hkp
    cases hfail with
    | noKeyPackage h => rw [hkp] at h; cases h
    | noSeat h => rw [hseat] at h; cases h
    | gate e' h => rw [hgate] at h; cases h
    | sign kp' e' hkp' h =>
        rw [hkp] at hkp'
        cases hkp'
        rw [hshare] at h
        cases h
  rcases hend with ⟨rfl, hloop⟩ | ⟨seatNonce, rest', e, rfl, -, hfail⟩
  · rw [List.append_nil] at hsplit
    rw [← hsplit] at hshares
    obtain ⟨shares, hcollect⟩ := InMemoryTransport.collect_readBack_ok
      (fun env => Frost.deserializeShare env.payload) hfresh (fun e he => by
        obtain ⟨_, -, kp, seat, _, share, -, -, -, -, rfl⟩ := List.Forall₂.exists_left hshares he
        exact ⟨share, hcodec.shares share⟩)
    have hresult : ((self.collectShares i r1 true).run Host.world s).result = .ok shares := by
      unfold collectShares
      simp only [hprevouts, lift_ok, Program.done_bind]
      rw [Program.run_bind_ok hloop]
      simp only [Program.run_bind, run_subscribe, run_lift, Program.Run.andThen,
        Host.world_subscribe, Host.run_board, hcollect]
      rfl
    have htrace : published ((self.round2 i r1 true).run Host.world s).trace =
        published ((r1.nonces.toList.forM
          (self.signSeat i r1.signingPackage prevouts true)).run Host.world s).trace := by
      obtain ⟨prevouts', hprevouts', -, htrace, -⟩ := collectShares_eq_ok hresult
      rw [hprevouts] at hprevouts'
      cases hprevouts'
      rw [trace_round2, htrace]
    have hown := collectShares_isolated hcodec (fun p _ => hnumbered.told p.1) hresult hfree hheld
      (fun e he => hpub e (by rw [trace_round2]; exact he)) hfresh
    obtain ⟨sig, bytes, hagg, hverify, hbytes⟩ :=
      htogether.verifies r1 hhonest hsize shares hown
    refine ⟨⟨sig, bytes, ?_, hbytes⟩, htrace ▸ hshares⟩
    unfold round2
    rw [Program.run_bind_ok hresult, finishSignature_eq_ok.mpr ⟨hagg, hverify⟩]
    rfl
  · exact absurd hfail (hstop seatNonce (by rw [hsplit]; simp) e)

/-! ## One input -/

/-- The senders of the published envelopes of a class on the topic of an input,
    in order. -/
def senders (self : SigningSession) (messageClass : MessageClass) (i : Nat)
    (envs : List Envelope) : List (Option Identifier) :=
  (envs.filter (fun e => e.messageClass = messageClass ∧
    e.ceremonyOrSessionId = self.topic i)).map (fun e => self.idOfSeat[e.seat]?)

omit [Bitcoin] [Build] in
theorem senders_append (messageClass : MessageClass) (xs ys : List Envelope) :
    self.senders messageClass i (xs ++ ys) =
      self.senders messageClass i xs ++ self.senders messageClass i ys := by
  rw [senders, List.filter_append, List.map_append]
  rfl

omit [Bitcoin] [Build] in
theorem senders_eq_nil {messageClass : MessageClass} {xs : List Envelope}
    (h : ∀ e ∈ xs, e.messageClass = messageClass → e.ceremonyOrSessionId ≠ self.topic i) :
    self.senders messageClass i xs = [] := by
  rw [senders, List.map_eq_nil_iff, List.filter_eq_nil_iff]
  intro e he hboth
  obtain ⟨hclass, htopic⟩ := of_decide_eq_true hboth
  exact h e he hclass htopic

omit [Bitcoin] [Build] in
/-- Envelopes that are paired off with their senders list exactly those. -/
theorem senders_of_forall₂ {β : Type} {R : β → Envelope → Prop} (idOf : β → Identifier)
    {messageClass : MessageClass} {xs : List β} {pub : List Envelope} (h : List.Forall₂ R xs pub)
    (hR : ∀ x env, R x env → env.messageClass = messageClass ∧
      env.ceremonyOrSessionId = self.topic i ∧ self.idOfSeat[env.seat]? = some (idOf x)) :
    self.senders messageClass i pub = (xs.map idOf).map some := by
  induction h with
  | nil => rfl
  | cons hab _ ih =>
      obtain ⟨hclass, htopic, hseat⟩ := hR _ _ hab
      rw [senders, List.filter_cons_of_pos (by simp [hclass, htopic]), List.map_cons, hseat,
        List.map_cons, List.map_cons]
      exact congrArg _ ih

/-- Nothing but liveness traffic is on the topic of an input. -/
def FreshTopic (self : SigningSession) (i : Nat) (s : Host) : Prop :=
  ∀ e, s.board.Holds e → e.ceremonyOrSessionId = self.topic i → e.messageClass = .sessionControl

/-- One input on a fresh topic: it is signed, by exactly the selected seats in
    both rounds. -/
theorem signInput_honest {prevouts : List TxOut} (hsignable : self.Signable m prevouts)
    (hselected : selected.length = self.t)
    (hroster : ∀ id ∈ selected, ∃ kp, self.keyPackages[id]? = some kp) (hnodup : selected.Nodup)
    (hi : i < self.psbt.unsignedTx.input.length) (hfresh : self.FreshTopic i s)
    (hfree : CollisionFree envs) (hheld : ∀ e, s.board.Holds e → e ∈ envs) {tx : Transaction}
    (hpub : ∀ e ∈ published ((self.signInput selected true tx i).run Host.world s).trace, e ∈ envs) :
    (∃ tx', ((self.signInput selected true tx i).run Host.world s).result = .ok tx') ∧
      ∀ c, c = .commitments ∨ c = .signatureShare →
        (self.senders c i
          (published ((self.signInput selected true tx i).run Host.world s).trace)).Perm
            (selected.map some) := by
  have hnumbered := hsignable.numbered
  have hprevouts := hsignable.prevouts_eq
  obtain ⟨sighash, hhash⟩ := hsignable.hashes i hi
  have hsighash := sighash_eq_ok.mpr ⟨prevouts, hprevouts, hhash⟩
  -- Round 1.
  have hfresh₁ : ∀ e ∈ s.board.subscribe (commitmentFilter (self.topic i)),
      self.selectedSender selected e = none := by
    intro e he
    obtain ⟨hholds, hmatch⟩ := InMemoryTransport.mem_subscribe.mp he
    obtain ⟨hclass, htopic⟩ := of_commitmentFilter hmatch
    rw [hfresh e hholds htopic] at hclass
    cases hclass
  obtain ⟨r1, hr1⟩ := round1_completes hsignable.codec hroster hnodup hsignable.together hsighash hfresh₁
  rw [trace_signInput] at hpub ⊢
  simp only [inputStages, hr1, List.flatMap_cons, List.flatMap_nil, List.append_nil, Stage.trace,
    published_append, List.mem_append] at hpub ⊢
  have hpub₁ : ∀ e ∈ published ((self.round1 i selected).run Host.world s).trace, e ∈ envs :=
    fun e he => hpub e (Or.inl he)
  obtain ⟨hhonest, hkeys⟩ :=
    round1_honest hsignable.codec hnumbered hnodup hr1 hfree hheld hpub₁ hfresh₁
  obtain ⟨_, hsighash', hmessage, hloop, htrace₁, -⟩ := round1_eq_ok hr1
  obtain ⟨hcommits, -⟩ := commitLoop_ok hnodup hloop
  rw [hsighash] at hsighash'
  cases hsighash'
  have hsize : m ≤ r1.nonces.size := by
    rw [← Std.ExtTreeMap.length_keys, hkeys.length_eq, hselected]
    exact hsignable.threshold
  -- Round 2, from the board that round 1 left.
  have hheld₂ : ∀ e, ((self.round1 i selected).run Host.world s).state.board.Holds e → e ∈ envs := by
    intro e he
    rw [Host.run_board] at he
    rcases InMemoryTransport.holds_publishAll_sub he with h | h
    · exact hheld e h
    · exact hpub₁ e h
  have hfresh₂ : ∀ e ∈ ((self.round1 i selected).run Host.world s).state.board.subscribe
      (shareFilter (self.topic i)), self.idOfSeat[e.seat]? = none := by
    intro e he
    obtain ⟨hholds, hmatch⟩ := InMemoryTransport.mem_subscribe.mp he
    obtain ⟨hclass, htopic⟩ := of_shareFilter hmatch
    rw [Host.run_board] at hholds
    rcases InMemoryTransport.holds_publishAll_sub hholds with h | h
    · rw [hfresh e h htopic] at hclass
      cases hclass
    · rw [(of_mem_published (self.round1_uses i selected) h).1] at hclass
      cases hclass
  obtain ⟨summary, hsummary⟩ := hsignable.summary
  have hgate := displayAndAck_eq_ok.mpr ⟨rfl, hsummary, sighash, hhash, hmessage⟩
  obtain ⟨⟨sig, bytes, hsig, hbytes⟩, hshares⟩ := round2_completes hsignable.codec hnumbered
    hsignable.together hhonest hsize hprevouts hgate hfree hheld₂ (fun e he => hpub e (Or.inr he))
    hfresh₂
  refine ⟨⟨_, signInput_eq_ok.mpr ⟨r1, sig, bytes, hr1, hsig, hbytes, rfl⟩⟩, ?_⟩
  -- The commitments are all from round 1 and the shares all from round 2.
  have hfirst := senders_of_forall₂ (fun id => id) hcommits
    (fun id env h => by
      have hseat := h.sender (hnumbered.told id)
      obtain ⟨kp, seat, entropy, payload, -, -, -, -, rfl⟩ := h
      exact ⟨rfl, rfl, hseat⟩)
  have hsecond := senders_of_forall₂ Prod.fst hshares
    (fun seatNonce env h => by
      have hseat := h.sender (hnumbered.told seatNonce.1)
      obtain ⟨kp, seat, summary, share, -, -, -, -, rfl⟩ := h
      exact ⟨rfl, rfl, hseat⟩)
  rintro c (rfl | rfl)
  · rw [senders_append, htrace₁, hfirst, List.map_id', senders_eq_nil, List.append_nil]
    · intro e he hclass
      rw [(of_mem_published (self.round2_uses i r1 true) he).1] at hclass
      cases hclass
  · rw [senders_append, hsecond, senders_eq_nil, List.nil_append]
    · rw [Std.ExtTreeMap.map_fst_toList_eq_keys]
      exact hkeys.map some
    · intro e he hclass
      rw [(of_mem_published (self.round1_uses i selected) he).1] at hclass
      cases hclass

/-! ## All inputs -/

/-- The loop over inputs whose topics are fresh: every input is signed, by
    exactly the selected seats in both rounds. -/
theorem loop_honest {prevouts : List TxOut} (hsignable : self.Signable m prevouts)
    (hselected : selected.length = self.t)
    (hroster : ∀ id ∈ selected, ∃ kp, self.keyPackages[id]? = some kp) (hnodup : selected.Nodup)
    (hfree : CollisionFree envs) {is : List Nat} (his : is.Nodup)
    (hbound : ∀ i ∈ is, i < self.psbt.unsignedTx.input.length) {s : Host}
    (hfresh : ∀ i ∈ is, self.FreshTopic i s) (hheld : ∀ e, s.board.Holds e → e ∈ envs)
    {tx : Transaction}
    (hpub : ∀ e ∈ published ((is.foldlM (self.signInput selected true) tx).run Host.world s).trace,
      e ∈ envs) :
    (∃ tx', ((is.foldlM (self.signInput selected true) tx).run Host.world s).result = .ok tx') ∧
      ∀ i ∈ is, ∀ c, c = .commitments ∨ c = .signatureShare →
        (self.senders c i (published
          ((is.foldlM (self.signInput selected true) tx).run Host.world s).trace)).Perm
            (selected.map some) := by
  induction is generalizing tx s with
  | nil => exact ⟨⟨tx, rfl⟩, by simp⟩
  | cons i is ih =>
      obtain ⟨hnotin, his⟩ := List.nodup_cons.mp his
      rw [List.foldlM_cons] at hpub ⊢
      have hpub₁ : ∀ e ∈ published ((self.signInput selected true tx i).run Host.world s).trace,
          e ∈ envs :=
        fun e he => hpub e (published_subset (Program.trace_prefix_bind _ _ _ _) he)
      obtain ⟨⟨tx₁, htx₁⟩, hfirst⟩ := signInput_honest hsignable hselected hroster hnodup
        (hbound i List.mem_cons_self) (hfresh i List.mem_cons_self) hfree hheld hpub₁
      have htopics : ∀ e ∈ published ((self.signInput selected true tx i).run Host.world s).trace,
          e.ceremonyOrSessionId = self.topic i := by
        intro e he
        obtain ⟨-, j, hj, htopic⟩ := (of_mem_published (self.signInput_uses selected true tx i) he).publish
        rw [htopic, List.mem_singleton.mp hj]
      rw [Program.run_bind_ok htx₁] at hpub ⊢
      rw [published_append] at hpub ⊢
      -- The board that the first input leaves is fresh for the topics of the others.
      have hboard : ∀ e, ((self.signInput selected true tx i).run Host.world s).state.board.Holds e →
          s.board.Holds e ∨
            e ∈ published ((self.signInput selected true tx i).run Host.world s).trace := by
        intro e he
        rw [Host.run_board] at he
        exact InMemoryTransport.holds_publishAll_sub he
      obtain ⟨hrest, hothers⟩ := ih his (fun k hk => hbound k (List.mem_cons_of_mem _ hk))
        (s := ((self.signInput selected true tx i).run Host.world s).state)
        (fun k hk e he htopic => by
          rcases hboard e he with h | h
          · exact hfresh k (List.mem_cons_of_mem _ hk) e h htopic
          · rw [htopics e h] at htopic
            exact absurd ((topic_inj.mp htopic).2 ▸ hk) hnotin)
        (fun e he => (hboard e he).elim (hheld e) (hpub₁ e))
        (fun e he => hpub e (List.mem_append_right _ he))
      refine ⟨hrest, ?_⟩
      intro k hk c hc
      rw [senders_append]
      rcases List.mem_cons.mp hk with rfl | hk
      · have hnone : self.senders c k (published ((is.foldlM (self.signInput selected true) tx₁).run
            Host.world ((self.signInput selected true tx k).run Host.world s).state).trace) = [] := by
          refine senders_eq_nil ?_
          intro e he _ htopic
          obtain ⟨-, j, hj, htopic'⟩ := (of_mem_published (self.loop_uses selected true is tx₁) he).publish
          rw [htopic'] at htopic
          exact hnotin ((topic_inj.mp htopic).2 ▸ hj)
        rw [hnone, List.append_nil]
        exact hfirst c hc
      · have hnone : self.senders c k
            (published ((self.signInput selected true tx i).run Host.world s).trace) = [] := by
          refine senders_eq_nil ?_
          intro e he _ htopic
          rw [htopics e he] at htopic
          exact hnotin ((topic_inj.mp htopic).2 ▸ hk)
        rw [hnone, List.nil_append]
        exact hothers k hk c hc

/-- A session with no reason to fail signs every input over a board without any
    envelope of its id or topics, and exactly the same `t` seats commit and sign
    on every input. -/
theorem signAll_honest {prevouts : List TxOut} (hsignable : self.Signable m prevouts)
    (hunspent : self.spent = false) (henough : self.t ≤ self.keyPackages.size)
    (hboard : ∀ e, s.board.Holds e →
      e.ceremonyOrSessionId ≠ self.id ∧ ∀ i, e.ceremonyOrSessionId ≠ self.topic i)
    (hfree : CollisionFree {e | s.board.Holds e ∨
      e ∈ published ((self.signAll true).run Host.world s).trace}) :
    ∃ (tx : Transaction) (selected : List Identifier),
      ((self.signAll true).run Host.world s).result = .ok tx ∧
      selected.length = self.t ∧ selected.Nodup ∧
      (∀ id ∈ selected, ∃ kp, self.keyPackages[id]? = some kp) ∧
      ∀ i < self.psbt.unsignedTx.input.length, ∀ c, c = .commitments ∨ c = .signatureShare →
        (self.senders c i (published ((self.signAll true).run Host.world s).trace)).Perm
          (selected.map some) := by
  simp only [signAll, hunspent, Bool.false_eq_true, if_false] at hfree ⊢
  have hinit := published_subset (Program.trace_prefix_bind Host.world
    self.livenessSelect (fun selected =>
      (List.range self.psbt.unsignedTx.input.length).foldlM (self.signInput selected true)
        self.psbt.unsignedTx) s)
  obtain ⟨selected, hlive, hlength, hnodup, hroster⟩ := livenessSelect_completes hsignable.numbered
    henough hfree (fun e he => Or.inl he) (fun e he => Or.inr (hinit he))
  rw [Program.run_bind_ok hlive, published_append] at hfree ⊢
  have hacks : ∀ e ∈ published (self.livenessSelect.run Host.world s).trace,
      e.messageClass = .sessionControl :=
    fun e he => (of_mem_published self.livenessSelect_uses he).1
  have hstate : ∀ e, (self.livenessSelect.run Host.world s).state.board.Holds e →
      s.board.Holds e ∨ e ∈ published (self.livenessSelect.run Host.world s).trace := by
    intro e he
    rw [Host.run_board] at he
    exact InMemoryTransport.holds_publishAll_sub he
  obtain ⟨⟨tx, htx⟩, hsenders⟩ := loop_honest hsignable hlength hroster hnodup hfree
    List.nodup_range (fun i hi => List.mem_range.mp hi)
    (fun i _ e he htopic => (hstate e he).elim
      (fun h => absurd htopic ((hboard e h).2 i)) (hacks e))
    (fun e he => (hstate e he).imp_right (List.mem_append_left _))
    (fun e he => Or.inr (List.mem_append_right _ he))
  refine ⟨tx, selected, htx, hlength, hnodup, hroster, ?_⟩
  intro i hi c hc
  have hnone : self.senders c i (published (self.livenessSelect.run Host.world s).trace) = [] := by
    refine senders_eq_nil ?_
    intro e he hclass
    rw [hacks e he] at hclass
    rcases hc with rfl | rfl <;> cases hclass
  rw [senders_append, hnone, List.nil_append]
  exact hsenders i (List.mem_range.mpr hi) c hc

/-- A run of a ready session over a board without any envelope of its id or
    topics returns a transaction, and exactly the same `t` seats commit and sign
    on every input. -/
theorem run_completes (self : SigningSession) (m : Nat) (s : Host) (hready : self.Ready m)
    (hboard : ∀ e, s.board.Holds e →
      e.ceremonyOrSessionId ≠ self.id ∧ ∀ i, e.ceremonyOrSessionId ≠ self.topic i)
    (hfree : CollisionFree {e | s.board.Holds e ∨
      e ∈ published ((self.run true : Action Empty _).run Host.world s).trace}) :
    ∃ (tx : Transaction) (selected : List Identifier),
      ((self.run true : Action Empty _).run Host.world s).value.1 = .ok tx ∧
      selected.length = self.t ∧ selected.Nodup ∧
      (∀ id ∈ selected, ∃ kp, self.keyPackages[id]? = some kp) ∧
      ∀ i < self.psbt.unsignedTx.input.length, ∀ c, c = .commitments ∨ c = .signatureShare →
        (self.senders c i
          (published ((self.run true : Action Empty _).run Host.world s).trace)).Perm
            (selected.map some) := by
  rw [run_run] at hfree ⊢
  obtain ⟨tx, selected, htx, hselected⟩ := signAll_honest hready.signable hready.unspent hready.enough
    hboard hfree
  refine ⟨tx, selected, ?_, hselected⟩
  rw [Program.Run.value_ok, htx]

end SigningSession

end Session

namespace Session

open Transport Plain

/-- The plain session is ready, and its run completes. -/
theorem SigningSession.run_completes_plain :
    ∃ (tx : Chain.Transaction) (selected : List Crypto.Identifier),
      ((session.run true : Action Empty _).run Host.world host).value.1 = .ok tx ∧
      selected.length = session.t ∧ selected.Nodup ∧
      (∀ id ∈ selected, ∃ kp, session.keyPackages[id]? = some kp) ∧
      ∀ i < session.psbt.unsignedTx.input.length, ∀ c, c = .commitments ∨ c = .signatureShare →
        (session.senders c i
          (published ((session.run true : Action Empty _).run Host.world host).trace)).Perm
            (selected.map some) := by
  have hids : ∀ a ∈ published ((session.run true : Action Empty _).run Host.world host).trace,
      ∀ b ∈ published ((session.run true : Action Empty _).run Host.world host).trace,
        a.id = b.id → a = b := by
    decide +kernel
  have hready : session.Ready 2 := by
    refine ⟨codec, signsTogether 2 (fun id kp => own_keyPackages_session), by decide +kernel,
      by decide, by decide +kernel, rfl, rfl, by decide, by decide, by decide, ?_⟩
    intro i prevouts hi hprevouts
    exact sighash_exists hi hprevouts
  refine run_completes session 2 host hready ?_ ?_
  · intro e he
    exact absurd he (InMemoryTransport.holds_new e)
  · refine (collisionFree_list hids).mono ?_
    rintro e (hheld | hpub)
    · exact absurd hheld (InMemoryTransport.holds_new e)
    · exact hpub

end Session
