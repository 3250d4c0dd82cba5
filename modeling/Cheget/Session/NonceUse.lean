-- SUMMARY: Every signature share goes back to a drawing of randomness of its own, over any history of calls.
import Cheget.Base.Affine
import Cheget.Session.History

/-!
# The use of nonces

Nonces are made from one drawing of randomness. A caller that reused them for a
second message would give its share away. Here every share that is published, in
any history of calls on any number of sessions, is assigned the drawing that its
nonces were made from, and no drawing is assigned twice.
-/

namespace Session

open Chain Crypto Transport

variable [Frost]

/-! ## Nonces as tokens -/

/-- `env` carries a share that was signed under the nonces. -/
def SignedUnder (nonce : EphemeralNonces) (env : Envelope) : Prop :=
  ∃ (topic : String) (pkg : SigningPackage SigningCommitments) (kp : KeyPackage) (seat : Seat)
    (share : SignatureShare), nonce.sign pkg kp = .ok share ∧
      env = SigningSession.shareEnvelope topic seat (Frost.serializeShare share)

/-- A drawing mints the material for nonces, and publishing a share spends them. -/
def nonceMint : Mint Op Op.Resp Entropy EphemeralNonces where
  mints
    | ⟨.draw, entropy⟩ => some entropy
    | _ => none
  spends
    | ⟨.publish env, _⟩ => env.messageClass == .signatureShare
    | _ => false
  Made entropy nonce := ∃ share, (EphemeralNonces.commit share entropy).1 = nonce
  Spends nonce ev := ∃ env, ev.op = .publish env ∧ SignedUnder nonce env

/-- The nonces of a map from seats. -/
def noncesOf (nonces : BTreeMap Identifier EphemeralNonces) : List EphemeralNonces :=
  nonces.toList.map Prod.snd

/-- The nonces of the `Round1` values that a caller holds. -/
def noncesOfPool (pool : Pool) : List EphemeralNonces :=
  pool.flatMap (fun slot => match slot with | some r1 => noncesOf r1.nonces | none => [])

theorem noncesOf_insert (nonces : BTreeMap Identifier EphemeralNonces) (id : Identifier)
    (nonce : EphemeralNonces) :
    (noncesOf (nonces.insert id nonce)).Subperm (nonce :: noncesOf nonces) := by
  have hsubset : (nonces.insert id nonce).toList ⊆ (id, nonce) :: nonces.toList := by
    rintro ⟨id', nonce'⟩ hmem
    rw [BTreeMap.mem_toList, BTreeMap.getElem?_insert] at hmem
    split at hmem
    · next hid =>
        cases hmem
        rw [hid]
        exact List.mem_cons_self
    · exact List.mem_cons_of_mem _ (BTreeMap.mem_toList.mpr hmem)
  obtain ⟨kept, hperm, hsub⟩ := List.subperm_of_subset (BTreeMap.nodup_toList _) hsubset
  exact ⟨kept.map Prod.snd, hperm.map Prod.snd, hsub.map Prod.snd⟩

theorem noncesOfPool_append (pool : Pool) (r1 : Round1) :
    noncesOfPool (pool ++ [some r1]) = noncesOfPool pool ++ noncesOf r1.nonces := by
  simp [noncesOfPool]

/-- Moving a `Round1` out takes its nonces out. -/
theorem noncesOfPool_set {pool : Pool} {slot : Nat} {r1 : Round1} (h : pool[slot]? = some (some r1)) :
    (noncesOf r1.nonces ++ noncesOfPool (pool.set slot none)).Perm (noncesOfPool pool) := by
  induction pool generalizing slot with
  | nil => cases h
  | cons held pool ih =>
      cases slot with
      | zero =>
          cases h
          exact List.Perm.refl _
      | succ slot =>
          have hrest := @ih slot h
          simp only [noncesOfPool, List.set_cons_succ, List.flatMap_cons] at hrest ⊢
          exact (List.perm_append_comm_assoc _ _ _).trans (hrest.append_left _)

variable {σ : Type} {w : World σ}

/-! ## Rounds -/

theorem triple_lift {α : Type} {x : Except SessionError α} {bag : List EphemeralNonces} :
    nonceMint.Triple w bag (lift x) (fun _ => bag) :=
  Mint.triple_ofExcept (fun _ _ => rfl)

theorem triple_shown {α : Type} {x : Except (Abort SessionError) α} (bag : List EphemeralNonces) :
    nonceMint.Triple w bag (Program.ofExcept x) (fun _ => bag) :=
  Mint.triple_ofExcept (fun _ _ => rfl)

theorem triple_publish {ε : Type} {env : Envelope} (h : env.messageClass ≠ .signatureShare) :
    nonceMint.Triple w [] (publish env : Action ε EnvelopeId) (fun _ => []) :=
  Mint.triple_idle (fun _ => beq_false_of_ne h)

theorem triple_subscribe {ε : Type} (filter : Filter) :
    nonceMint.Triple w [] (subscribe filter : Action ε (List Envelope)) (fun _ => []) :=
  Mint.triple_idle (fun _ => rfl)

namespace SigningSession

variable (self : SigningSession)

theorem livenessSelect_triple : nonceMint.Triple w [] self.livenessSelect (fun _ => []) := by
  have hloop : nonceMint.Triple w ([] : List EphemeralNonces) (self.idOfSeat.keys.forM (fun seat => do
      let _ ← publish (self.livenessAck seat)) : SessionM PUnit) (fun _ => []) := by
    have hack : ∀ seat, nonceMint.Triple w ([] : List EphemeralNonces) (do
        let _ ← publish (self.livenessAck seat) : SessionM PUnit) (fun _ => []) := by
      intro seat
      exact (triple_publish (show MessageClass.sessionControl ≠ .signatureShare by decide)).bind
        (fun _ => Mint.triple_return rfl)
    exact Mint.Triple.loop (fun seat _ => hack seat)
  refine hloop.bind (fun _ => ?_)
  exact (triple_subscribe self.livenessFilter).bind (fun _ => triple_lift)

theorem commitSeat_triple (topic : String) (nonces : BTreeMap Identifier EphemeralNonces) (id : Identifier) :
    nonceMint.Triple w (noncesOf nonces) (self.commitSeat topic nonces id) noncesOf := by
  refine triple_lift.bind (fun kp => ?_)
  refine triple_lift.bind (fun seat => ?_)
  have hdraw : nonceMint.Triple w [] (draw : SessionM Entropy)
      (fun entropy => [(EphemeralNonces.commit (Frost.signingShare kp) entropy).1]) :=
    Mint.triple_mint (fun _ => rfl) (fun _ => rfl) (fun _ => ⟨_, rfl⟩)
  refine (hdraw.framed (noncesOf nonces)).bind (fun entropy => ?_)
  refine triple_lift.bind (fun payload => ?_)
  have hclass : MessageClass.commitments ≠ .signatureShare := by decide
  refine ((triple_publish hclass).framed _).bind (fun _ => ?_)
  exact (Mint.triple_done _ _).weaken (noncesOf_insert _ _ _) (fun _ => List.Subperm.refl _)

theorem round1_triple [Bitcoin] (i : Nat) (selected : List Identifier) :
    nonceMint.Triple w [] (self.round1 i selected) (fun r1 => noncesOf r1.nonces) := by
  refine triple_lift.bind (fun sighash => ?_)
  have hloop : nonceMint.Triple w (noncesOf ∅)
      (selected.foldlM (self.commitSeat (self.topic i)) ∅) noncesOf :=
    Mint.Triple.foldlM (fun nonces id _ => self.commitSeat_triple (self.topic i) nonces id) ∅
  refine Mint.Triple.bind (hloop : nonceMint.Triple w [] _ _) (fun nonces => ?_)
  refine ((triple_subscribe _).framed (noncesOf nonces)).bind (fun collected => ?_)
  exact triple_lift.bind (fun commitments => Mint.triple_return rfl)

variable [Bitcoin] [Build]

theorem signSeat_triple (i : Nat) (pkg : SigningPackage SigningCommitments) (prevouts : List TxOut)
    (yes : Bool) (seatNonce : Identifier × EphemeralNonces) :
    nonceMint.Triple w [seatNonce.2] (self.signSeat i pkg prevouts yes seatNonce) (fun _ => []) := by
  refine triple_lift.bind (fun kp => ?_)
  refine triple_lift.bind (fun seat => ?_)
  refine (triple_shown [seatNonce.2]).bind (fun _ => ?_)
  cases hsign : seatNonce.2.sign pkg kp with
  | error e => exact Mint.triple_fail _ _ _
  | ok share =>
      have hsigned : SignedUnder seatNonce.2
          (shareEnvelope (self.topic i) seat (Frost.serializeShare share)) :=
        ⟨_, pkg, kp, seat, share, hsign, rfl⟩
      have hpublish : nonceMint.Triple w [seatNonce.2]
          (publish (shareEnvelope (self.topic i) seat (Frost.serializeShare share)) : SessionM _) (fun _ => []) :=
        Mint.triple_spend (fun _ => ⟨_, rfl, hsigned⟩)
      exact hpublish.bind (fun _ => Mint.triple_return rfl)

theorem round2_triple (i : Nat) (r1 : Round1) (yes : Bool) :
    nonceMint.Triple w (noncesOf r1.nonces) (self.round2 i r1 yes) (fun _ => []) := by
  have hcollect : nonceMint.Triple w (noncesOf r1.nonces) (self.collectShares i r1 yes) (fun _ => []) := by
    refine triple_lift.bind (fun prevouts => ?_)
    have hsign : nonceMint.Triple w (noncesOf r1.nonces)
        (r1.nonces.toList.forM (self.signSeat i r1.signingPackage prevouts yes)) (fun _ => []) :=
      Mint.Triple.forM (fun seatNonce _ => self.signSeat_triple i _ prevouts yes seatNonce)
    refine hsign.bind (fun _ => ?_)
    exact (triple_subscribe _).bind (fun _ => triple_lift)
  exact hcollect.bind (fun _ => triple_lift)

theorem signInput_triple (selected : List Identifier) (yes : Bool) (tx : Transaction) (i : Nat) :
    nonceMint.Triple w [] (self.signInput selected yes tx i) (fun _ => []) := by
  refine (self.round1_triple i selected).bind (fun r1 => ?_)
  refine (self.round2_triple i r1 yes).bind (fun sig => ?_)
  exact triple_lift.bind (fun bytes => Mint.triple_return rfl)

theorem run_triple {ε : Type} (yes : Bool) :
    nonceMint.Triple w [] (self.run yes : Action ε _) (fun _ => []) := by
  have hall : nonceMint.Triple w [] (self.signAll yes) (fun _ => []) := by
    unfold signAll
    split
    · exact Mint.triple_fail _ _ _
    · refine self.livenessSelect_triple.bind (fun selected => ?_)
      exact Mint.Triple.foldlM (fun tx i _ => self.signInput_triple selected yes tx i) _
  refine hall.attempt.bind (fun result => ?_)
  cases result with
  | ok tx => exact Mint.triple_return rfl
  | error e => exact Mint.triple_return rfl

end SigningSession

/-! ## Histories -/

variable [Bitcoin] [Build]

theorem SessionCall.exec_triple {ε : Type} (call : SessionCall) (self : SigningSession) (pool : Pool) :
    nonceMint.Triple w (noncesOfPool pool) (call.exec self pool : Action ε _)
      (fun out => noncesOfPool out.2.2) := by
  cases call with
  | livenessSelect =>
      have hselect : nonceMint.Triple w [] (self.livenessSelect.attempt : Action ε _) _ :=
        self.livenessSelect_triple.attempt
      refine (hselect.framed (noncesOfPool pool)).bind (fun result => ?_)
      cases result with
      | ok selected => exact Mint.triple_return rfl
      | error e => exact Mint.triple_return rfl
  | round1 i selected =>
      have hround : nonceMint.Triple w [] ((self.round1 i selected).attempt : Action ε _) _ :=
        (self.round1_triple i selected).attempt
      refine (hround.framed (noncesOfPool pool)).bind (fun result => ?_)
      cases result with
      | ok r1 =>
          refine Mint.Triple.weaken (Mint.triple_return rfl) ?_ (fun _ => List.Subperm.refl _)
          rw [noncesOfPool_append]
          exact List.perm_append_comm.subperm
      | error e => exact Mint.triple_return rfl
  | round2 i slot yes =>
      simp only [exec]
      split
      · next r1 hslot =>
          have hround : nonceMint.Triple w _ ((self.round2 i r1 yes).attempt : Action ε _) _ :=
            (self.round2_triple i r1 yes).attempt
          have hframed := hround.framed (noncesOfPool (pool.set slot none))
          have hmoved := hframed.weaken (noncesOfPool_set hslot).subperm (fun _ => List.Subperm.refl _)
          refine hmoved.bind (fun result => ?_)
          cases result with
          | ok sig => exact Mint.triple_return rfl
          | error e => exact Mint.triple_return rfl
      · exact Mint.triple_return rfl
  | run yes =>
      have hrun : nonceMint.Triple w [] (self.run yes : Action ε _) _ := self.run_triple yes
      refine (hrun.framed (noncesOfPool pool)).bind (fun out => ?_)
      exact Mint.triple_return rfl

theorem Call.exec_triple (call : Call) (client : Client) :
    nonceMint.Triple w (noncesOfPool client.pool) (call.exec client)
      (fun client => noncesOfPool client.pool) := by
  cases call with
  | on k call =>
      simp only [Call.exec]
      split
      · next self hself =>
          exact (call.exec_triple self client.pool).bind (fun out => Mint.triple_return rfl)
      · exact Mint.triple_return rfl
  | newSessionOnAbort k newId =>
      simp only [Call.exec]
      split
      · exact Mint.triple_return rfl
      · exact Mint.triple_return rfl

/-- Calls continue the ledger of what the client holds. -/
theorem Client.ledger_trace (calls : List Call) (client : Client) (s : σ) (past : List (Event Op Op.Resp))
    (hl : nonceMint.Ledger (noncesOfPool client.pool) past) :
    nonceMint.Ledger [] (past ++ Client.trace w calls client s) := by
  induction calls generalizing client s past with
  | nil =>
      simp only [Client.trace, List.append_nil]
      exact hl.subperm (List.nil_subperm)
  | cons call calls ih =>
      rw [← List.append_nil (noncesOfPool client.pool)] at hl
      have hcall := (call.exec_triple (w := w) client).ledger hl s
      rw [Program.Run.result_eq_value] at hcall
      dsimp only at hcall
      rw [List.append_nil] at hcall
      simp only [Client.trace]
      rw [← List.append_assoc]
      exact ih _ _ _ hcall

/-- The event at a position publishes a signature share. -/
def ShareAt (past : List (Event Op Op.Resp)) (i : Nat) (env : Envelope) : Prop :=
  ∃ id, past[i]? = some ⟨.publish env, id⟩ ∧ env.messageClass = .signatureShare

/-- Every share that a history publishes was signed under nonces made from an
    earlier drawing of randomness, and no two from the same. -/
theorem Client.shares_use_own_drawings (w : World σ) (calls : List Call)
    (sessions : List SigningSession) (s : σ) :
    ∃ drawing : Nat → Nat,
      (∀ i env, ShareAt (Client.trace w calls ⟨sessions, []⟩ s) i env →
        drawing i < i ∧ ∃ signingShare entropy,
          (Client.trace w calls ⟨sessions, []⟩ s)[drawing i]? = some ⟨.draw, entropy⟩ ∧
            SignedUnder (EphemeralNonces.commit signingShare entropy).1 env) ∧
      ∀ i j env env', ShareAt (Client.trace w calls ⟨sessions, []⟩ s) i env →
        ShareAt (Client.trace w calls ⟨sessions, []⟩ s) j env' → drawing i = drawing j → i = j := by
  have hledger := Client.ledger_trace (w := w) calls ⟨sessions, []⟩ s [] Mint.ledger_nil
  rw [List.nil_append] at hledger
  obtain ⟨-, drawing, -, -, haccounts, -⟩ := hledger
  have hspends : ∀ {i env}, ShareAt (Client.trace w calls ⟨sessions, []⟩ s) i env →
      ∃ id, nonceMint.SpendsAt (Client.trace w calls ⟨sessions, []⟩ s) i ⟨.publish env, id⟩ := by
    rintro i env ⟨id, hat, hclass⟩
    exact ⟨id, hat, beq_iff_eq.mpr hclass⟩
  refine ⟨drawing, ?_, ?_⟩
  · intro i env hat
    obtain ⟨id, hat⟩ := hspends hat
    obtain ⟨hlt, nonce, hmade, env', henv, hsigned⟩ := haccounts.made hat
    obtain ⟨ev, entropy, hdraw, hmints, signingShare, hmade⟩ := hmade
    cases henv
    refine ⟨hlt, signingShare, entropy, ?_, hmade ▸ hsigned⟩
    obtain ⟨op, r⟩ := ev
    cases op <;> cases hmints
    exact hdraw
  · intro i j env env' hi hj hdrawing
    obtain ⟨_, hi⟩ := hspends hi
    obtain ⟨_, hj⟩ := hspends hj
    exact haccounts.distinct hi hj hdrawing

end Session
