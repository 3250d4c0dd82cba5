-- SUMMARY: The signing session: its effects on the transport, liveness selection, the two rounds, and the run over every input.
import Cheget.Base.Program
import Cheget.Crypto.Frost
import Cheget.Session.Display
import Cheget.Session.Liveness
import Cheget.Transport.Envelope
import Cheget.Transport.InMemory

/-!
# The signing session

The session talks to the world through three operations: publish an envelope,
subscribe with a filter, and draw randomness from the operating system. What
answers them is left open, so a program here runs against any transport.
-/

namespace Session

open Chain Crypto Transport

/-! ## Effects -/

inductive Op where
  | publish (env : Envelope)
  | subscribe (filter : Filter)
  | draw

inductive SessionError [Frost] where
  | liveness (e : LivenessError)
  | display (e : DisplayError)
  | aggregate (e : AggregateError)
  | chain (e : ChainError)
  | frost (e : Frost.Error)
  | noWitnessUtxo (inputIndex : Nat)
  | unknownSeat (id : Identifier)
  | spent

variable [Frost]

abbrev Op.Resp : Op → Type
  | .publish _ => EnvelopeId
  | .subscribe _ => List Envelope
  | .draw => Entropy

/-- Programs of the session that end with an error of type `ε`. -/
abbrev Action (ε α : Type) := Program Op Op.Resp ε α

abbrev SessionM (α : Type) := Action (Abort SessionError) α

/-- A transport together with the source of randomness, as a handler. -/
abbrev World (σ : Type) := Handler Op Op.Resp σ

def publish {ε : Type} (env : Envelope) : Action ε EnvelopeId :=
  Program.perform (Op.publish env)

def subscribe {ε : Type} (filter : Filter) : Action ε (List Envelope) :=
  Program.perform (Op.subscribe filter)

def draw {ε : Type} : Action ε Entropy := Program.perform Op.draw

/-- `Err(e)?` for a computed result. -/
def lift {α : Type} (x : Except SessionError α) : SessionM α := .ofExcept (x.mapError .error)

@[simp] theorem lift_ok {α : Type} (a : α) : lift (.ok a : Except SessionError α) = .done a := rfl

@[simp] theorem lift_error {α : Type} (e : SessionError) :
    lift (.error e : Except SessionError α) = .fail (.error e) := rfl

section Run

variable {σ ε : Type}

@[simp] theorem run_publish (w : World σ) (env : Envelope) (s : σ) :
    (publish env : Action ε EnvelopeId).run w s =
      ⟨[⟨.publish env, (w (.publish env) s).1⟩], .ok (w (.publish env) s).1,
        (w (.publish env) s).2⟩ := rfl

@[simp] theorem run_subscribe (w : World σ) (filter : Filter) (s : σ) :
    (subscribe filter : Action ε (List Envelope)).run w s =
      ⟨[⟨.subscribe filter, (w (.subscribe filter) s).1⟩], .ok (w (.subscribe filter) s).1,
        (w (.subscribe filter) s).2⟩ := rfl

@[simp] theorem run_draw (w : World σ) (s : σ) :
    (draw : Action ε Entropy).run w s = ⟨[⟨.draw, (w .draw s).1⟩], .ok (w .draw s).1, (w .draw s).2⟩ :=
  rfl

@[simp] theorem run_lift {α : Type} (w : World σ) (x : Except SessionError α) (s : σ) :
    (lift x).run w s = ⟨[], x.mapError .error, s⟩ :=
  Program.run_ofExcept w _ s

end Run

/-! ## Sessions -/

/-- The coordinator's seat, which is no signer's. -/
def coordinatorSeat : Seat := ⟨0⟩

/-- Number the roster: seat `i + 1`, as a `u16`, for the `i`-th identifier. -/
def assignSeats (roster : List Identifier) : BTreeMap Seat Identifier × BTreeMap Identifier Seat :=
  roster.zipIdx.foldl (fun maps (id, i) =>
    let seat : Seat := ⟨UInt16.ofNat (i + 1)⟩
    (maps.1.insert seat id, maps.2.insert id seat)) (∅, ∅)

/-- The coordinator's signing package for one input and the nonces of the seats
    that committed. -/
structure Round1 where
  signingPackage : SigningPackage SigningCommitments
  nonces : BTreeMap Identifier EphemeralNonces

/-- A signing session. The two seat maps are those of its roster. -/
structure SigningSession where
  id : String
  keyPackages : BTreeMap Identifier KeyPackage
  group : PublicKeyPackage
  psbt : Psbt
  t : Nat
  network : Network
  idOfSeat : BTreeMap Seat Identifier
  seatOfId : BTreeMap Identifier Seat
  spent : Bool
  seats_eq : (idOfSeat, seatOfId) = assignSeats keyPackages.keys

namespace SigningSession

def new (id : String) (keyPackages : BTreeMap Identifier KeyPackage) (group : PublicKeyPackage)
    (psbt : Psbt) (t : Nat) (network : Network) : SigningSession where
  id := id
  keyPackages := keyPackages
  group := group
  psbt := psbt
  t := t
  network := network
  idOfSeat := (assignSeats keyPackages.keys).1
  seatOfId := (assignSeats keyPackages.keys).2
  spent := false
  seats_eq := rfl

/-- A new session under a new id for the same roster, PSBT and threshold. -/
def newSessionOnAbort (self : SigningSession) (newId : String) : SigningSession :=
  new newId self.keyPackages self.group self.psbt self.t self.network

/-- The `witness_utxo` of one input, given with its index. -/
def prevout (indexed : PsbtInput × Nat) : Except SessionError TxOut :=
  indexed.1.witnessUtxo.okOr (.noWitnessUtxo indexed.2)

/-- The `witness_utxo` of every input, in order. -/
def prevouts (self : SigningSession) : Except SessionError (List TxOut) :=
  self.psbt.inputs.zipIdx.mapM prevout

/-- The message the seats sign for an input. -/
def sighash [Bitcoin] (self : SigningSession) (inputIndex : Nat) :
    Except SessionError TapSighash := do
  let prevouts ← self.prevouts
  (keySpendSighash self.psbt.unsignedTx inputIndex prevouts).mapError .chain

/-- The topic of one input of this session. -/
def topic (self : SigningSession) (inputIndex : Nat) : String :=
  self.id ++ "#" ++ toString inputIndex

/-! ## Liveness -/

def livenessFilter (self : SigningSession) : Filter :=
  (Filter.all.withClass .sessionControl).withCeremony self.id

/-- The acknowledgement of one seat. The payload is `live`. -/
def livenessAck (self : SigningSession) (seat : Seat) : Envelope :=
  .broadcast .sessionControl self.id 0 seat [0x6c, 0x69, 0x76, 0x65]

/-- The roster identifiers behind the acknowledgements, sorted, each once. -/
def responders (self : SigningSession) (acks : List Envelope) : List Identifier :=
  ((acks.filterMap (fun e => self.idOfSeat[e.seat]?)).insertionSort (· ≤ ·)).destutter (· ≠ ·)

/-- Every roster seat acknowledges; `t` of those the transport reports are selected. -/
def livenessSelect (self : SigningSession) : SessionM (List Identifier) := do
  self.idOfSeat.keys.forM (fun seat => do
    let _ ← publish (self.livenessAck seat))
  let acks ← subscribe self.livenessFilter
  lift ((pollAndSelect (self.responders acks) self.t).mapError .liveness)

/-! ## Round 1 -/

def commitmentFilter (topic : String) : Filter :=
  ((Filter.all.withClass .commitments).withCeremony topic).withRound 1

def commitmentEnvelope (topic : String) (seat : Seat) (payload : Bytes) : Envelope :=
  .broadcast .commitments topic 1 seat payload

/-- One selected seat commits to fresh nonces and publishes the commitments. -/
def commitSeat (self : SigningSession) (topic : String)
    (nonces : BTreeMap Identifier EphemeralNonces) (id : Identifier) :
    SessionM (BTreeMap Identifier EphemeralNonces) := do
  let kp ← lift (self.keyPackages[id]?.okOr (.unknownSeat id))
  let seat ← lift (self.seatOfId[id]?.okOr (.unknownSeat id))
  let entropy ← draw
  let (nonce, commitments) := EphemeralNonces.commit (Frost.signingShare kp) entropy
  let payload ← lift ((Frost.serializeCommitments commitments).mapError .frost)
  let _ ← publish (commitmentEnvelope topic seat payload)
  pure (nonces.insert id nonce)

/-- The selected seat that an envelope is attributed to. -/
def selectedSender (self : SigningSession) (selected : List Identifier) (env : Envelope) :
    Option Identifier :=
  self.idOfSeat[env.seat]?.filter (· ∈ selected)

/-- The selected seats commit; the coordinator builds the signing package from
    what the transport returns on the topic. -/
def round1 [Bitcoin] (self : SigningSession) (inputIndex : Nat) (selected : List Identifier) :
    SessionM Round1 := do
  let sighash ← lift (self.sighash inputIndex)
  let topic := self.topic inputIndex
  let nonces ← selected.foldlM (self.commitSeat topic) ∅
  let collected ← subscribe (commitmentFilter topic)
  let commitments ← lift ((BTreeMap.collect (self.selectedSender selected)
    (fun env => Frost.deserializeCommitments env.payload) collected).mapError .frost)
  pure { signingPackage := ⟨commitments, sighash.toList⟩, nonces }

/-! ## Round 2 -/

def shareFilter (topic : String) : Filter :=
  (((Filter.all.withClass .signatureShare).withCeremony topic).withRound 2).withRecipient
    coordinatorSeat

def shareEnvelope (topic : String) (seat : Seat) (payload : Bytes) : Envelope :=
  .directed .signatureShare topic 2 seat coordinatorSeat payload

/-- One seat passes the display gate, signs under its nonces, and publishes the
    share to the coordinator. -/
def signSeat [Bitcoin] [Build] (self : SigningSession) (inputIndex : Nat)
    (signingPackage : SigningPackage SigningCommitments) (prevouts : List TxOut) (yes : Bool)
    (seatNonce : Identifier × EphemeralNonces) : SessionM Unit := do
  let (id, nonce) := seatNonce
  let kp ← lift (self.keyPackages[id]?.okOr (.unknownSeat id))
  let seat ← lift (self.seatOfId[id]?.okOr (.unknownSeat id))
  let _ ← Program.ofExcept
    ((displayAndAck self.psbt.unsignedTx prevouts inputIndex signingPackage.message yes
      self.network).mapError (Abort.map .display))
  let share ← lift ((nonce.sign signingPackage kp).mapError .frost)
  let _ ← publish (shareEnvelope (self.topic inputIndex) seat (Frost.serializeShare share))

/-- The first part of round 2: the seats of `r1` sign, and the coordinator
    collects the shares that it aggregates from what the transport returns. -/
def collectShares [Bitcoin] [Build] (self : SigningSession) (inputIndex : Nat) (r1 : Round1)
    (yes : Bool) : SessionM (BTreeMap Identifier SignatureShare) := do
  let prevouts ← lift self.prevouts
  r1.nonces.toList.forM (self.signSeat inputIndex r1.signingPackage prevouts yes)
  let collected ← subscribe (shareFilter (self.topic inputIndex))
  lift ((BTreeMap.collect (fun env => self.idOfSeat[env.seat]?)
    (fun env => Frost.deserializeShare env.payload) collected).mapError .frost)

/-- The second part of round 2: aggregate, and verify against the output key. -/
def finishSignature (self : SigningSession)
    (signingPackage : SigningPackage SigningCommitments)
    (shares : BTreeMap Identifier SignatureShare) : Except SessionError Signature := do
  let sig ← (aggregate signingPackage shares self.group).mapError .aggregate
  let _ ← (verifyAgainstQ sig signingPackage.message self.group).mapError .aggregate
  pure sig

def round2 [Bitcoin] [Build] (self : SigningSession) (inputIndex : Nat) (r1 : Round1)
    (yes : Bool) : SessionM Signature := do
  let shares ← self.collectShares inputIndex r1 yes
  lift (self.finishSignature r1.signingPackage shares)

/-! ## The run -/

/-- Both rounds for one input, and the signature attached as its only witness
    element. -/
def signInput [Bitcoin] [Build] (self : SigningSession) (selected : List Identifier) (yes : Bool)
    (tx : Transaction) (inputIndex : Nat) : SessionM Transaction := do
  let r1 ← self.round1 inputIndex selected
  let sig ← self.round2 inputIndex r1 yes
  let bytes ← lift ((signatureBytes sig).mapError .aggregate)
  pure (tx.setWitness inputIndex [bytes.toList])

/-- The body of `run`, up to the point that marks the session spent. -/
def signAll [Bitcoin] [Build] (self : SigningSession) (yes : Bool) : SessionM Transaction := do
  if self.spent then .fail (.error .spent) else
    let selected ← self.livenessSelect
    (List.range self.psbt.unsignedTx.input.length).foldlM (self.signInput selected yes)
      self.psbt.unsignedTx

/-- The spend that the session would authorize. -/
def preview [Bitcoin] [Build] (self : SigningSession) : Except (Abort SessionError) SpendSummary := do
  let prevouts ← self.prevouts.mapError .error
  (summarize self.psbt.unsignedTx prevouts self.network).okOr .panic

/-- Sign every input. Only a run that returns a transaction marks the session
    spent. -/
def run [Bitcoin] [Build] {ε : Type} (self : SigningSession) (yes : Bool) :
    Action ε (Except (Abort SessionError) Transaction × SigningSession) := do
  let result ← (self.signAll yes).attempt
  match result with
  | .ok tx => pure (.ok tx, { self with spent := true })
  | .error e => pure (.error e, self)

end SigningSession

end Session
