-- SUMMARY: A round that finds no earlier envelope of its seats on its topic uses exactly the commitments and shares it produced itself.
import Cheget.Session.Assumptions
import Cheget.Session.Effects
import Cheget.Session.History
import Cheget.Session.Host
import Cheget.Session.Loops
import Cheget.Session.Plain

/-!
# Attempts

Both rounds re-read the board by topic, and of several envelopes of one seat
they keep the last by id. A round therefore uses its own envelopes exactly as
long as none of an earlier attempt takes part in that choice.
-/

namespace Session

open Chain Crypto Transport

variable [Frost]

/-! ## Round 1 -/

namespace SigningSession

variable {self : SigningSession}

theorem CommitsTo.sender {topic : String} {nonces : BTreeMap Identifier EphemeralNonces}
    {id : Identifier} {env : Envelope} (h : self.CommitsTo topic nonces id env)
    (htold : self.Told id) : self.idOfSeat[env.seat]? = some id := by
  obtain ⟨kp, seat, entropy, payload, -, hseat, -, -, rfl⟩ := h
  exact htold seat hseat

theorem CommitsTo.unique {topic : String} {nonces : BTreeMap Identifier EphemeralNonces}
    {id : Identifier} {a b : Envelope} (ha : self.CommitsTo topic nonces id a)
    (hb : self.CommitsTo topic nonces id b) : a = b := by
  obtain ⟨_, seat, _, payload, _, hseat, hn, hpayload, rfl⟩ := ha
  obtain ⟨_, seat', _, payload', _, hseat', hn', hpayload', rfl⟩ := hb
  rw [hseat] at hseat'
  rw [hn] at hn'
  cases hseat'
  rw [EphemeralNonces.mk.inj (Option.some.inj hn'), hpayload'] at hpayload
  cases hpayload
  rfl

variable [Bitcoin]

/-- Round 1 on a topic without earlier commitments of the selected seats: the
    signing package holds, for exactly the selected seats, the commitments to the
    nonces that `r1` holds. -/
theorem round1_isolated (hcodec : Codec) {i : Nat} {selected : List Identifier}
    (htold : ∀ id ∈ selected, self.Told id) (hnodup : selected.Nodup) {s : Host} {r1 : Round1}
    (h : ((self.round1 i selected).run Host.world s).result = .ok r1)
    {envs : Set Envelope} (hfree : CollisionFree envs) (hheld : ∀ e, s.board.Holds e → e ∈ envs)
    (hpub : ∀ e ∈ published ((self.round1 i selected).run Host.world s).trace, e ∈ envs)
    (hfresh : ∀ e ∈ s.board.subscribe (commitmentFilter (self.topic i)),
      self.selectedSender selected e = none) (id : Identifier) :
    (id ∈ selected ↔ ∃ nonce, r1.nonces[id]? = some nonce) ∧
      r1.signingPackage.signingCommitments[id]? = r1.ownCommitments id := by
  obtain ⟨sighash, -, -, hloop, htrace, hcollect⟩ := round1_eq_ok h
  obtain ⟨hcommits, hother⟩ := commitLoop_ok hnodup hloop
  rw [htrace] at hpub
  simp only [Host.world_subscribe, Host.run_board] at hcollect
  have hread := InMemoryTransport.collect_readBack hfree hheld hpub hfresh hcollect (k := id)
  -- The sender of a published commitment is the selected seat it commits for.
  have hsender : ∀ id' ∈ selected, ∀ env, self.CommitsTo (self.topic i) r1.nonces id' env →
      self.selectedSender selected env = some id' := by
    intro id' hid' env henv
    simp [selectedSender, henv.sender (htold id' hid'), hid']
  by_cases hid : id ∈ selected
  · obtain ⟨env, henv, hcommit⟩ := List.Forall₂.exists_right hcommits hid
    have hmap := hread.1 env henv ?_ (hsender id hid env hcommit) ?_
    · obtain ⟨kp, seat, entropy, payload, -, -, hnonce, hpayload, rfl⟩ := hcommit
      rw [hmap, Round1.ownCommitments, hnonce]
      refine ⟨⟨fun _ => ⟨_, rfl⟩, fun _ => hid⟩, ?_⟩
      simp [commitmentEnvelope, Envelope.broadcast, hcodec.commitments _ _ hpayload]
    · obtain ⟨kp, seat, entropy, payload, -, -, -, -, rfl⟩ := hcommit
      exact commitmentFilter_matches _ _ _
    · intro e he hkey
      obtain ⟨id', hid', hcommit'⟩ := List.Forall₂.exists_left hcommits he
      rw [hsender id' hid' e hcommit', Option.some.injEq] at hkey
      subst hkey
      exact hcommit'.unique hcommit
  · have hnone : r1.nonces[id]? = none := by
      rw [hother id hid]
      simp
    have hmap := hread.2 ?_
    · rw [hmap, Round1.ownCommitments, hnone]
      exact ⟨⟨fun h => absurd h hid, by simp⟩, rfl⟩
    · intro e he hkey
      obtain ⟨id', hid', hcommit'⟩ := List.Forall₂.exists_left hcommits he
      rw [hsender id' hid' e hcommit', Option.some.injEq] at hkey
      exact hid (hkey ▸ hid')

/-! ## Round 2 -/

variable [Build]

theorem SharesAs.sender {i : Nat} {pkg : SigningPackage SigningCommitments} {prevouts : List TxOut}
    {yes : Bool} {seatNonce : Identifier × EphemeralNonces} {env : Envelope}
    (h : self.SharesAs i pkg prevouts yes seatNonce env) (htold : self.Told seatNonce.1) :
    self.idOfSeat[env.seat]? = some seatNonce.1 := by
  obtain ⟨kp, seat, summary, share, -, hseat, -, -, rfl⟩ := h
  exact htold seat hseat

theorem SharesAs.unique {i : Nat} {pkg : SigningPackage SigningCommitments} {prevouts : List TxOut}
    {yes : Bool} {seatNonce : Identifier × EphemeralNonces} {a b : Envelope}
    (ha : self.SharesAs i pkg prevouts yes seatNonce a)
    (hb : self.SharesAs i pkg prevouts yes seatNonce b) : a = b := by
  obtain ⟨kp, seat, -, share, hkp, hseat, -, hsign, rfl⟩ := ha
  obtain ⟨kp', seat', -, share', hkp', hseat', -, hsign', rfl⟩ := hb
  rw [hkp] at hkp'
  rw [hseat] at hseat'
  cases hkp'
  cases hseat'
  rw [hsign] at hsign'
  cases hsign'
  rfl

theorem trace_round2 {σ : Type} {w : World σ} {i : Nat} {r1 : Round1} {yes : Bool} {s : σ} :
    ((self.round2 i r1 yes).run w s).trace = ((self.collectShares i r1 yes).run w s).trace := by
  unfold round2
  cases hshares : ((self.collectShares i r1 yes).run w s).result with
  | error e => rw [Program.run_bind_error hshares]
  | ok shares =>
      rw [Program.run_bind_ok hshares]
      simp

/-- Round 2 on a topic without earlier shares from the roster: the share map is
    exactly the shares made under the nonces of `r1`. -/
theorem collectShares_isolated (hcodec : Codec) {i : Nat} {r1 : Round1}
    (htold : ∀ p ∈ r1.nonces.toList, self.Told p.1) {yes : Bool} {s : Host}
    {shares : BTreeMap Identifier SignatureShare}
    (h : ((self.collectShares i r1 yes).run Host.world s).result = .ok shares)
    {envs : Set Envelope} (hfree : CollisionFree envs) (hheld : ∀ e, s.board.Holds e → e ∈ envs)
    (hpub : ∀ e ∈ published ((self.collectShares i r1 yes).run Host.world s).trace, e ∈ envs)
    (hfresh : ∀ e ∈ s.board.subscribe (shareFilter (self.topic i)),
      self.idOfSeat[e.seat]? = none) (id : Identifier) :
    shares[id]? = r1.ownShare self.keyPackages id := by
  obtain ⟨prevouts, -, hloop, htrace, hcollect⟩ := collectShares_eq_ok h
  obtain ⟨done, rest, hsplit, hshares, hend⟩ := self.signLoop_cases i
    r1.signingPackage prevouts yes r1.nonces.toList Host.world s
  have hdone : done = r1.nonces.toList := by
    rcases hend with ⟨rfl, -⟩ | ⟨_, _, e, -, he, -⟩
    · rw [hsplit, List.append_nil]
    · rw [hloop] at he
      cases he
  rw [hdone] at hshares
  rw [htrace] at hpub
  simp only [Host.world_subscribe, Host.run_board] at hcollect
  have hread := InMemoryTransport.collect_readBack hfree hheld hpub hfresh hcollect (k := id)
  unfold Round1.ownShare
  cases hnonce : r1.nonces[id]? with
  | some nonce =>
      obtain ⟨env, henv, hshare⟩ :=
        List.Forall₂.exists_right hshares (BTreeMap.mem_toList.mpr hnonce)
      have hmap := hread.1 env henv ?_ (hshare.sender (htold _ (BTreeMap.mem_toList.mpr hnonce))) ?_
      · obtain ⟨kp, seat, summary, share, hkp, hseat, -, hsign, rfl⟩ := hshare
        simp only [hmap, hkp, hsign]
        simp [shareEnvelope, Envelope.directed, hcodec.shares]
      · obtain ⟨kp, seat, summary, share, -, -, -, -, rfl⟩ := hshare
        exact shareFilter_matches _ _ _
      · intro e he hkey
        obtain ⟨⟨id', nonce'⟩, hmem', hshare'⟩ := List.Forall₂.exists_left hshares he
        rw [hshare'.sender (htold _ hmem'), Option.some.injEq] at hkey
        cases hkey
        rw [BTreeMap.mem_toList, hnonce, Option.some.injEq] at hmem'
        cases hmem'
        exact hshare'.unique hshare
  | none =>
      refine hread.2 ?_
      intro e he hkey
      obtain ⟨⟨id', nonce'⟩, hmem', hshare'⟩ := List.Forall₂.exists_left hshares he
      rw [hshare'.sender (htold _ hmem'), Option.some.injEq] at hkey
      cases hkey
      rw [BTreeMap.mem_toList, hnonce] at hmem'
      cases hmem'

end SigningSession

/-! ## What a round checks before it reads the board -/

namespace SigningSession

/-- A seat is of the roster, and its commitments under the `n`-th draw from now on
    can be encoded. -/
def commits (self : SigningSession) (s : Host) (n : Nat) (id : Identifier) : Bool :=
  self.seatOfId[id]?.isSome && self.keyPackages[id]?.any (fun kp =>
    (Frost.serializeCommitments
      (EphemeralNonces.commit (Frost.signingShare kp) (s.entropy (s.drawn + n))).2).isOk)

theorem commitSeat_commits {self : SigningSession} {topic : String} {id : Identifier}
    {nonces nonces' : BTreeMap Identifier EphemeralNonces} {s : Host}
    (h : ((self.commitSeat topic nonces id).run Host.world s).result = .ok nonces') :
    self.commits s 0 id = true ∧
      ((self.commitSeat topic nonces id).run Host.world s).state.entropy = s.entropy ∧
      ((self.commitSeat topic nonces id).run Host.world s).state.drawn = s.drawn + 1 := by
  unfold commitSeat at h ⊢
  unfold commits
  cases hkp : self.keyPackages[id]? with
  | none =>
      rw [hkp] at h
      cases h
  | some kp =>
      cases hseat : self.seatOfId[id]? with
      | none =>
          rw [hkp, hseat] at h
          cases h
      | some seat =>
          simp only [hkp, hseat, Option.okOr_some, lift_ok, Program.done_bind, Program.run_bind, run_draw,
            Program.Run.andThen, EphemeralNonces.commit] at h ⊢
          cases hpayload : Frost.serializeCommitments (Frost.commitmentsOf
              (Frost.newNonces (Frost.signingShare kp) (s.entropy s.drawn))) with
          | error e =>
              simp only [Host.world, hpayload] at h
              cases h
          | ok payload =>
              simp [Host.world, hpayload, Except.isOk, Except.toBool]

/-- The loop of round 1 goes through for seats that all commit, each under a draw
    of its own. -/
theorem commitLoop_commits {self : SigningSession} {topic : String} {selected : List Identifier}
    {acc nonces : BTreeMap Identifier EphemeralNonces} {s : Host}
    (h : ((selected.foldlM (self.commitSeat topic) acc).run Host.world s).result = .ok nonces)
    {n : Nat} {id : Identifier} (hid : selected[n]? = some id) : self.commits s n id = true := by
  induction selected generalizing acc s n with
  | nil => cases hid
  | cons id' selected ih =>
      rw [List.foldlM_cons] at h
      obtain ⟨acc', hacc', h⟩ := Program.result_bind_ok h
      obtain ⟨hcommits, hentropy, hdrawn⟩ := commitSeat_commits hacc'
      cases n with
      | zero =>
          cases hid
          exact hcommits
      | succ n =>
          have hrest := ih h hid
          rwa [commits, hentropy, hdrawn, Nat.add_assoc, Nat.add_comm 1 n] at hrest

variable [Bitcoin] [Build]

/-- A seat is of the roster, passes the display gate, and can sign. -/
def signs (self : SigningSession) (i : Nat) (pkg : SigningPackage SigningCommitments)
    (prevouts : List TxOut) (yes : Bool) (seatNonce : Identifier × EphemeralNonces) : Bool :=
  self.seatOfId[seatNonce.1]?.isSome &&
    self.keyPackages[seatNonce.1]?.any (fun kp => (seatNonce.2.sign pkg kp).isOk) &&
    (displayAndAck self.psbt.unsignedTx prevouts i pkg.message yes self.network).isOk

theorem SharesAs.signs {self : SigningSession} {i : Nat} {pkg : SigningPackage SigningCommitments}
    {prevouts : List TxOut} {yes : Bool} {seatNonce : Identifier × EphemeralNonces} {env : Envelope}
    (h : self.SharesAs i pkg prevouts yes seatNonce env) :
    self.signs i pkg prevouts yes seatNonce = true := by
  obtain ⟨kp, seat, summary, share, hkp, hseat, hgate, hsign, -⟩ := h
  simp [SigningSession.signs, hkp, hseat, hgate, hsign, Except.isOk, Except.toBool]

end SigningSession

/-! ## Histories -/

namespace Stage

variable [Bitcoin] [Build]

/-- The round gets past its checks, so that it reads the board again. -/
def Passes : Stage Host → Prop
  | .round1 self i selected s =>
      (self.sighash i).isOk ∧ ∀ p ∈ selected.zipIdx, self.commits s p.2 p.1
  | .round2 self i r1 yes _ _ =>
      match self.prevouts with
      | .ok prevouts => ∀ p ∈ r1.nonces.toList, self.signs i r1.signingPackage prevouts yes p
      | .error _ => False

instance (stage : Stage Host) : Decidable stage.Passes :=
  match stage with
  | .round1 self i selected s =>
      inferInstanceAs (Decidable ((self.sighash i).isOk ∧ ∀ p ∈ selected.zipIdx, self.commits s p.2 p.1))
  | .round2 self i r1 yes _ _ =>
      match hprevouts : self.prevouts with
      | .ok prevouts =>
          decidable_of_iff (∀ p ∈ r1.nonces.toList, self.signs i r1.signingPackage prevouts yes p)
            (by simp only [Passes, hprevouts])
      | .error _ => isFalse (by simp only [Passes, hprevouts, not_false_eq_true])

theorem passes_round1 {self : SigningSession} {i : Nat} {selected : List Identifier} {s : Host}
    {r1 : Round1} (h : ((self.round1 i selected).run Host.world s).result = .ok r1) :
    (Stage.round1 self i selected s).Passes := by
  obtain ⟨sighash, hsighash, -, hloop, -⟩ := SigningSession.round1_eq_ok h
  refine ⟨by rw [hsighash]; rfl, fun p hp => ?_⟩
  exact SigningSession.commitLoop_commits hloop (List.mem_zipIdx_iff_getElem?.mp hp)

theorem passes_round2 {self : SigningSession} {i : Nat} {r1 : Round1} {yes : Bool} {slot : Option Nat}
    {s : Host} {shares : BTreeMap Identifier SignatureShare}
    (h : ((self.collectShares i r1 yes).run Host.world s).result = .ok shares) :
    (Stage.round2 self i r1 yes slot s).Passes := by
  obtain ⟨prevouts, hprevouts, hloop, -⟩ := SigningSession.collectShares_eq_ok h
  obtain ⟨done, rest, hsplit, hshares, hend⟩ := self.signLoop_cases i
    r1.signingPackage prevouts yes r1.nonces.toList Host.world s
  simp only [Passes, hprevouts]
  intro p hp
  rcases hend with ⟨rfl, -⟩ | ⟨_, _, e, -, he, -⟩
  · rw [hsplit, List.append_nil] at hp
    obtain ⟨env, -, hshare⟩ := List.Forall₂.exists_right hshares hp
    exact hshare.signs
  · rw [hloop] at he
    cases he

/-- The seats that the stage concerns are told apart by their numbers. -/
def Told : Stage Host → Prop
  | .round1 self _ selected _ => ∀ id ∈ selected, self.Told id
  | .round2 self _ r1 _ _ _ => ∀ p ∈ r1.nonces.toList, self.Told p.1

instance (stage : Stage Host) : Decidable stage.Told :=
  match stage with
  | .round1 self _ selected _ => inferInstanceAs (Decidable (∀ id ∈ selected, self.Told id))
  | .round2 self _ r1 _ _ _ => inferInstanceAs (Decidable (∀ p ∈ r1.nonces.toList, self.Told p.1))

/-- Before the stage, a subscription on its topic returns nothing of the seats
    it concerns: for round 1 the selected ones, for round 2 the roster. -/
def Fresh : Stage Host → Prop
  | .round1 self i selected s =>
      ∀ env ∈ s.board.subscribe (SigningSession.commitmentFilter (self.topic i)),
        self.selectedSender selected env = none
  | .round2 self i _ _ _ s =>
      ∀ env ∈ s.board.subscribe (SigningSession.shareFilter (self.topic i)),
        self.idOfSeat[env.seat]? = none

instance (stage : Stage Host) : Decidable stage.Fresh :=
  match stage with
  | .round1 self i selected s =>
      inferInstanceAs (Decidable (∀ env ∈ s.board.subscribe
        (SigningSession.commitmentFilter (self.topic i)), self.selectedSender selected env = none))
  | .round2 self i _ _ _ s =>
      inferInstanceAs (Decidable (∀ env ∈ s.board.subscribe
        (SigningSession.shareFilter (self.topic i)), self.idOfSeat[env.seat]? = none))

/-- The stage uses exactly what it produced: the signing package of a round 1
    holds the commitments to the nonces of its own selected seats, and the map
    that a round 2 hands to `aggregate` holds its own shares. -/
def Isolated : Stage Host → Prop
  | .round1 self i selected s =>
      ∀ r1, ((self.round1 i selected).run Host.world s).result = .ok r1 → selected.Nodup →
        ∀ id, (id ∈ selected ↔ ∃ nonce, r1.nonces[id]? = some nonce) ∧
          r1.signingPackage.signingCommitments[id]? = r1.ownCommitments id
  | .round2 self i r1 yes _ s =>
      ∀ shares, ((self.collectShares i r1 yes).run Host.world s).result = .ok shares →
        ∀ id, shares[id]? = r1.ownShare self.keyPackages id

end Stage

variable [Bitcoin] [Build]

/-- What was published before a stage of a history, and by it, is part of what
    the history published. -/
theorem Stage.OccursIn.published {start : Host} {trace : List (Event Op Op.Resp)}
    {stage : Stage Host} (h : stage.OccursIn Host.world start trace) :
    (∀ e, stage.before.board.Holds e → start.board.Holds e ∨ e ∈ published trace) ∧
      ∀ e ∈ Session.published (stage.trace Host.world), e ∈ Session.published trace := by
  obtain ⟨pre, post, rfl, hbefore⟩ := h
  simp only [published_append, List.mem_append]
  constructor
  · intro e he
    rw [hbefore, Host.replay_board] at he
    rcases InMemoryTransport.holds_publishAll_sub he with h | h
    · exact Or.inl h
    · exact Or.inr (Or.inl (Or.inl h))
  · intro e he
    exact Or.inl (Or.inr he)

/-- In every history, a stage is isolated whose seats are told apart and that finds its
    topic fresh, or that does not get as far as reading it: nothing of an earlier
    attempt takes the place of a current commitment or share. -/
theorem Client.attempts_isolated (hcodec : Codec) (calls : List Call) (client : Client) (s : Host)
    (hfree : CollisionFree
      {e | s.board.Holds e ∨ e ∈ published (trace Host.world calls client s)}) :
    ∀ stage ∈ stages Host.world calls client s,
      (stage.Passes → stage.Told ∧ stage.Fresh) → stage.Isolated := by
  intro stage hstage hclean
  obtain ⟨hheld, hpub⟩ := (occursIn_trace hstage).published
  cases stage with
  | round1 self i selected before =>
      intro r1 hr1 hnodup id
      obtain ⟨htold, hfresh⟩ := hclean (Stage.passes_round1 hr1)
      exact SigningSession.round1_isolated hcodec htold hnodup hr1 hfree hheld
        (fun e he => Or.inr (hpub e he)) hfresh id
  | round2 self i r1 yes slot before =>
      intro shares hshares id
      obtain ⟨htold, hfresh⟩ := hclean (Stage.passes_round2 hshares)
      refine SigningSession.collectShares_isolated hcodec htold hshares hfree hheld
        (fun e he => Or.inr (hpub e ?_)) hfresh id
      rw [Stage.trace, SigningSession.trace_round2]
      exact he

end Session

namespace Session

open Transport Plain

/-- An attempt, and what may follow it: a round 1 with a seat of no roster, a run under
    a new id, a round 1 of the other seat, and a round 2 for each of the two, with the
    second one refused at the display. -/
def Plain.retries : List Call :=
  [.on 0 (.round1 0 [firstSeat]),
    .on 0 (.round1 0 [firstSeat, seat 3 (by decide)]),
    .newSessionOnAbort 0 "r",
    .on 1 (.run true),
    .on 0 (.round1 0 [secondSeat]),
    .on 0 (.round2 0 0 true),
    .on 0 (.round2 0 1 false)]

theorem Client.attempts_isolated_retries :
    (stages Host.world retries ⟨[session], []⟩ host).length = 9 ∧
    (∃ stage ∈ stages Host.world retries ⟨[session], []⟩ host, ¬ stage.Fresh) ∧
    ∀ stage ∈ stages Host.world retries ⟨[session], []⟩ host, stage.Isolated := by
  have hids : ∀ a ∈ published (trace Host.world retries ⟨[session], []⟩ host),
      ∀ b ∈ published (trace Host.world retries ⟨[session], []⟩ host), a.id = b.id → a = b := by
    decide +kernel
  have hfree : CollisionFree
      {e | host.board.Holds e ∨ e ∈ published (trace Host.world retries ⟨[session], []⟩ host)} := by
    refine (collisionFree_list hids).mono ?_
    rintro e (hheld | hpub)
    · exact absurd hheld (InMemoryTransport.holds_new e)
    · exact hpub
  have hclean : ∀ stage ∈ stages Host.world retries ⟨[session], []⟩ host,
      stage.Passes → stage.Told ∧ stage.Fresh := by
    decide +kernel
  refine ⟨by decide +kernel, by decide +kernel, fun stage hstage => ?_⟩
  exact attempts_isolated codec retries ⟨[session], []⟩ host hfree stage hstage (hclean stage hstage)

/-- Whether a round 1 hands out a signing package with other commitments for a
    seat than those of the nonces that it holds. -/
def Stage.mismatched (id : Crypto.Identifier) : Stage Host → Bool
  | .round1 self i selected s =>
      match ((self.round1 i selected).run Host.world s).result with
      | .ok r1 =>
          decide (selected.Nodup ∧
            r1.signingPackage.signingCommitments[id]? ≠ r1.ownCommitments id)
      | .error _ => false
  | .round2 .. => false

/-- Repeating round 1 for a seat, with distinct envelopes throughout, puts the
    commitments of the first attempt in the place of the current ones. -/
theorem Client.repeated_round1_not_isolated :
    CollisionFree {e | e ∈ published (trace Host.world
      [.on 0 (.round1 0 [firstSeat]), .on 0 (.round1 0 [firstSeat])] ⟨[session], []⟩ host)} ∧
    ¬ ∀ stage ∈ stages Host.world
      [.on 0 (.round1 0 [firstSeat]), .on 0 (.round1 0 [firstSeat])] ⟨[session], []⟩ host,
        stage.Isolated := by
  refine ⟨collisionFree_list (by decide +kernel), ?_⟩
  intro hall
  have hbad : ∃ stage ∈ stages Host.world
      [.on 0 (.round1 0 [firstSeat]), .on 0 (.round1 0 [firstSeat])] ⟨[session], []⟩ host,
        stage.mismatched firstSeat = true := by
    decide +kernel
  obtain ⟨stage, hstage, hmismatch⟩ := hbad
  have hisolated := hall stage hstage
  cases stage with
  | round1 self i selected s =>
      simp only [Stage.mismatched] at hmismatch
      split at hmismatch
      · next r1 hr1 =>
          obtain ⟨hnodup, hne⟩ := of_decide_eq_true hmismatch
          exact hne (hisolated r1 hr1 hnodup firstSeat).2
      · cases hmismatch
  | round2 => cases hmismatch

end Session
