-- SUMMARY: The sign command over an in-memory board, and when the transaction that it signs spends the group's coins.
import Cheget.Bridge.Taproot
import Cheget.Session.Honest

/-!
# The sign command

The command reads a PSBT, obtains key material, prints the address of the
group, and runs one signing session on a board of its own. The file it reads,
the key material, and the operator's answer to the prompt are given to it.
-/

namespace Cli

open Bridge Chain Crypto Session Transport

/-! ## The command -/

/-- The prefix that the addresses of a network are rendered with. -/
def knownHrp : Network → KnownHrp
  | .bitcoin => .mainnet
  | .testnet => .testnets
  | .signet => .testnets
  | .regtest => .regtest

structure SignArgs where
  session : Option String
  psbt : Option String
  seats : Option UInt16
  threshold : Option UInt16
  full : Bool
  network : Network
  persist : Bool
  yes : Bool

namespace SignArgs

def fullThreshold : UInt16 := 51
def fullSeats : UInt16 := 100
def smallThreshold : UInt16 := 3
def smallSeats : UInt16 := 5

/-- The effective threshold and number of seats. -/
def resolveTn (args : SignArgs) : UInt16 × UInt16 :=
  let defaults := if args.full then (fullThreshold, fullSeats) else (smallThreshold, smallSeats)
  (args.threshold.getD defaults.1, args.seats.getD defaults.2)

end SignArgs

section Command

variable [Frost]

/-- What the command is given: the PSBT files, the stored shares, a key
    generation, and the operator's answer to the prompt. -/
structure SignInputs (ε : Type) where
  readPsbt : String → Except ε Psbt
  loadPersistedShares : UInt16 → Except ε (BTreeMap Identifier KeyPackage × PublicKeyPackage)
  runInprocessDkg : UInt16 → UInt16 → Except ε (BTreeMap Identifier KeyPackage × PublicKeyPackage)
  promptAck : Bool

inductive SignError [Taproot] (ε : Type) where
  | noPsbt
  | input (e : ε)
  | invalidTn (t n : UInt16)
  | bridge (e : BridgeError)
  | notAuthorized
  | session (e : SessionError)

variable [Taproot] [Bitcoin] [Build] {ε : Type}

/-- The key packages and the group that the command signs with. -/
def SignArgs.keyMaterial (args : SignArgs) (inputs : SignInputs ε) :
    Except ε (BTreeMap Identifier KeyPackage × PublicKeyPackage) :=
  if args.persist then inputs.loadPersistedShares args.resolveTn.1
  else inputs.runInprocessDkg args.resolveTn.1 args.resolveTn.2

/-- The session that the command runs. -/
def SignArgs.newSession (args : SignArgs) (keyPackages : BTreeMap Identifier KeyPackage)
    (group : PublicKeyPackage) (psbt : Psbt) : SigningSession :=
  .new (args.session.getD "cli-session") keyPackages group psbt args.resolveTn.1.toNat args.network

/-- Everything up to the session's run. -/
def SignArgs.prepare (args : SignArgs) (inputs : SignInputs ε) :
    Except (Abort (SignError ε)) SigningSession := do
  let path ← args.psbt.okOr (.error .noPsbt)
  let psbt ← (inputs.readPsbt path).mapError (fun e => .error (.input e))
  let (t, n) := args.resolveTn
  if t = 0 ∨ n = 0 ∨ n < t then
    .error (.error (.invalidTn t n))
  else
    let (keyPackages, group) ← (args.keyMaterial inputs).mapError (fun e => .error (.input e))
    let _addr ← (addressFromGroupKey (FrostKeys.groupKey group) (knownHrp args.network)).mapError
      (Abort.map .bridge)
    let session := args.newSession keyPackages group psbt
    let _summary ← session.preview.mapError (Abort.map .session)
    if args.yes = false ∧ inputs.promptAck = false then
      .error (.error .notAuthorized)
    else
      pure session

/-- Run the sign command. -/
def SignArgs.run (args : SignArgs) (inputs : SignInputs ε) : Action (Abort (SignError ε)) Transaction := do
  let session ← Program.ofExcept (args.prepare inputs)
  let (signed, _) ← session.run true
  .ofExcept (signed.mapError (Abort.map .session))

/-! ## What the command signs -/

/-- What the command has read, the key material it has obtained, and the address
    that it prints. -/
structure SignArgs.Obtains (args : SignArgs) (inputs : SignInputs ε) (psbt : Psbt)
    (keyPackages : BTreeMap Identifier KeyPackage) (group : PublicKeyPackage) (addr : Address) :
    Prop where
  psbt : ∃ path, args.psbt = some path ∧ inputs.readPsbt path = .ok psbt
  keys : args.keyMaterial inputs = .ok (keyPackages, group)
  address : addressFromGroupKey (FrostKeys.groupKey group) (knownHrp args.network) = .ok addr

/-- The input spends a coin of the address. -/
def PaysTo (addr : Address) (input : PsbtInput) : Prop :=
  ∃ utxo, input.witnessUtxo = some utxo ∧ utxo.scriptPubkey = Taproot.scriptPubkey addr

/-- A signed transaction spends coins of the address only, and where an input
    spends another coin no signature share is published. -/
def SignArgs.SpendsOwn (args : SignArgs) (inputs : SignInputs ε) (entropy : Nat → Entropy) : Prop :=
  let out := (args.run inputs).run Host.world ⟨.new, entropy, 0⟩
  ∀ psbt keyPackages group addr, args.Obtains inputs psbt keyPackages group addr →
    (∀ tx, out.result = .ok tx → ∀ input ∈ psbt.inputs, PaysTo addr input) ∧
      ((∃ input ∈ psbt.inputs, ¬ PaysTo addr input) →
        ∀ env ∈ published out.trace, env.messageClass ≠ .signatureShare)

/-- The command gets past its own checks, none of which is about the coins. -/
structure SignArgs.Proceeds (args : SignArgs) (inputs : SignInputs ε) (psbt : Psbt)
    (keyPackages : BTreeMap Identifier KeyPackage) (group : PublicKeyPackage) : Prop where
  counts : args.resolveTn.1 ≠ 0 ∧ args.resolveTn.2 ≠ 0 ∧ args.resolveTn.1 ≤ args.resolveTn.2
  preview : ∃ summary, (args.newSession keyPackages group psbt).preview = .ok summary
  ack : args.yes = true ∨ inputs.promptAck = true
  seats : args.resolveTn.1.toNat ≤ keyPackages.size

variable {args : SignArgs} {inputs : SignInputs ε} {psbt : Psbt}
  {keyPackages : BTreeMap Identifier KeyPackage} {group : PublicKeyPackage} {addr : Address}

/-- The session is prepared exactly once all checks but that of the seats have
    passed. -/
theorem prepare_eq_ok (h : args.Obtains inputs psbt keyPackages group addr) {session : SigningSession} :
    args.prepare inputs = .ok session ↔
      session = args.newSession keyPackages group psbt ∧
        (args.resolveTn.1 ≠ 0 ∧ args.resolveTn.2 ≠ 0 ∧ args.resolveTn.1 ≤ args.resolveTn.2) ∧
        (∃ summary, (args.newSession keyPackages group psbt).preview = .ok summary) ∧
        (args.yes = true ∨ inputs.promptAck = true) := by
  obtain ⟨path, hpath, hread⟩ := h.psbt
  unfold SignArgs.prepare
  rw [hpath, Option.okOr_some, Except.ok_bind, hread, Except.mapError_ok, Except.ok_bind]
  by_cases hcounts : args.resolveTn.1 = 0 ∨ args.resolveTn.2 = 0 ∨ args.resolveTn.2 < args.resolveTn.1
  · simp only [if_pos hcounts]
    constructor
    · intro h
      cases h
    · rintro ⟨-, ⟨ht, hn, hle⟩, -⟩
      exact absurd hcounts (not_or.mpr ⟨ht, not_or.mpr ⟨hn, UInt16.not_lt.mpr hle⟩⟩)
  · simp only [if_neg hcounts, h.keys, Except.mapError_ok, Except.ok_bind, h.address]
    obtain ⟨ht, hrest⟩ := not_or.mp hcounts
    obtain ⟨hn, hle⟩ := not_or.mp hrest
    have hle := UInt16.not_lt.mp hle
    cases hpreview : (args.newSession keyPackages group psbt).preview with
    | error e => simp
    | ok summary =>
        simp only [Except.mapError_ok, Except.ok_bind]
        by_cases hack : args.yes = false ∧ inputs.promptAck = false
        · simp [hack]
        · rw [if_neg hack]
          have hack' : args.yes = true ∨ inputs.promptAck = true := by simpa [or_iff_not_and_not] using hack
          constructor
          · intro hsession
            cases hsession
            exact ⟨rfl, ⟨ht, hn, hle⟩, ⟨summary, rfl⟩, hack'⟩
          · rintro ⟨rfl, -⟩
            rfl

/-- A prepared session is run, and its result is that of the command. -/
theorem run_prepared {σ : Type} {session : SigningSession} (h : args.prepare inputs = .ok session)
    (w : World σ) (s : σ) :
    (args.run inputs).run w s =
      ⟨((session.signAll true).run w s).trace,
        ((session.signAll true).run w s).result.mapError (Abort.map .session),
        ((session.signAll true).run w s).state⟩ := by
  unfold SignArgs.run
  rw [h, Program.ofExcept_ok, Program.done_bind, Program.run_bind, SigningSession.run_run]
  simp [Program.Run.andThen]

/-- Nothing is done without a session. -/
theorem run_unprepared {σ : Type} {e : Abort (SignError ε)} (h : args.prepare inputs = .error e)
    (w : World σ) (s : σ) : (args.run inputs).run w s = ⟨[], .error e, s⟩ := by
  unfold SignArgs.run
  rw [h, Program.ofExcept_error, Program.fail_bind, Program.run_fail]

/-! ## When a share is published -/

omit [Taproot] in
theorem preview_eq_ok {self : SigningSession} {summary : SpendSummary} :
    self.preview = .ok summary ↔ ∃ prevouts, self.prevouts = .ok prevouts ∧
      summarize self.psbt.unsignedTx prevouts self.network = some summary := by
  unfold SigningSession.preview
  rw [Except.bind_eq_ok]
  simp only [Except.mapError_eq_ok, Option.okOr_eq_ok]

omit [Taproot] [Bitcoin] [Build] in
theorem numbered_newSession (hsize : keyPackages.size ≤ 65535) :
    (args.newSession keyPackages group psbt).Numbered := by
  rw [SigningSession.Numbered, Std.ExtTreeMap.length_keys]
  exact le_trans hsize (by decide)

omit [Taproot] in
/-- Shares are only published once the poll has succeeded. -/
theorem live_of_share {σ : Type} {w : World σ} {s : σ} {session : SigningSession} {env : Envelope}
    (henv : env ∈ published ((session.signAll true).run w s).trace)
    (hclass : env.messageClass = .signatureShare) :
    ∃ selected, (session.livenessSelect.run w s).result = .ok selected := by
  unfold SigningSession.signAll at henv
  split at henv
  · simp at henv
  · cases hlive : (session.livenessSelect.run w s).result with
    | ok selected => exact ⟨selected, rfl⟩
    | error e =>
        rw [Program.run_bind_error hlive] at henv
        have hack := (of_mem_published session.livenessSelect_uses henv).1
        cases hack.symm.trans hclass

/-- A command that publishes a share, or returns a transaction, has got past its
    own checks. -/
theorem proceeds_of_live {σ : Type} {w : World σ} {s : σ}
    (h : args.Obtains inputs psbt keyPackages group addr) (hsize : keyPackages.size ≤ 65535)
    {session : SigningSession} (hsession : args.prepare inputs = .ok session)
    {selected : List Identifier} (hlive : (session.livenessSelect.run w s).result = .ok selected) :
    args.Proceeds inputs psbt keyPackages group := by
  obtain ⟨rfl, hcounts, hpreview, hack⟩ := (prepare_eq_ok h).mp hsession
  exact ⟨hcounts, hpreview, hack, SigningSession.le_size_of_livenessSelect (numbered_newSession hsize) hlive⟩

/-- What is assumed of FROST, of the key material, and of the PSBT decoder: the
    seats sign together, and every input of a PSBT has a sighash once all prevouts
    are known. -/
structure SignArgs.Genuine (args : SignArgs) (inputs : SignInputs ε) : Prop where
  codec : Codec
  roster : ∀ keyPackages group, args.keyMaterial inputs = .ok (keyPackages, group) →
    keyPackages.size ≤ 65535
  together : ∀ keyPackages group, args.keyMaterial inputs = .ok (keyPackages, group) →
    ∃ m ≤ args.resolveTn.1.toNat, SignsTogether keyPackages group m
  psbtInputs : ∀ path psbt, inputs.readPsbt path = .ok psbt →
    psbt.inputs.length = psbt.unsignedTx.input.length
  hashes : ∀ path psbt, inputs.readPsbt path = .ok psbt → ∀ i prevouts,
    i < psbt.unsignedTx.input.length → prevouts.length = psbt.unsignedTx.input.length →
      ∃ sighash, keySpendSighash psbt.unsignedTx i prevouts = .ok sighash

/-- A command that gets past its own checks signs, whatever coins the PSBT
    spends. -/
theorem signs_of_proceeds (hgenuine : args.Genuine inputs)
    (h : args.Obtains inputs psbt keyPackages group addr)
    (hproceeds : args.Proceeds inputs psbt keyPackages group) {entropy : Nat → Entropy}
    (hfree : CollisionFree {e | e ∈ published
      ((args.run inputs).run Host.world ⟨.new, entropy, 0⟩).trace}) :
    ∃ tx, ((args.run inputs).run Host.world ⟨.new, entropy, 0⟩).result = .ok tx := by
  have hsession := (prepare_eq_ok h).mpr ⟨rfl, hproceeds.counts, hproceeds.preview, hproceeds.ack⟩
  rw [run_prepared hsession] at hfree ⊢
  obtain ⟨summary, hpreview⟩ := hproceeds.preview
  obtain ⟨prevouts, hprevouts, hsummary⟩ := preview_eq_ok.mp hpreview
  obtain ⟨m, hm, htogether⟩ := hgenuine.together keyPackages group h.keys
  obtain ⟨path, -, hread⟩ := h.psbt
  have hlength := (SigningSession.length_prevouts hprevouts).trans (hgenuine.psbtInputs path psbt hread)
  have hsignable : (args.newSession keyPackages group psbt).Signable m prevouts :=
    { codec := hgenuine.codec
      together := htogether
      numbered := numbered_newSession (hgenuine.roster keyPackages group h.keys)
      threshold := hm
      prevouts_eq := hprevouts
      summary := ⟨summary, hsummary⟩
      hashes := fun i hi => hgenuine.hashes path psbt hread i prevouts hi hlength }
  obtain ⟨tx, -, htx, -⟩ := SigningSession.signAll_honest (s := ⟨.new, entropy, 0⟩) hsignable rfl
    hproceeds.seats (fun e he => absurd he (InMemoryTransport.holds_new e)) (hfree.mono (fun e he =>
      he.resolve_left (InMemoryTransport.holds_new e)))
  refine ⟨tx, ?_⟩
  rw [htx]
  rfl

/-- Whatever the seats answer: if every PSBT that gets past the command's checks
    spends coins of the group's address only, no other coin is signed for. -/
theorem spendsOwn_of_paysTo {args : SignArgs} {inputs : SignInputs ε}
    (hroster : ∀ keyPackages group, args.keyMaterial inputs = .ok (keyPackages, group) → keyPackages.size ≤ 65535)
    (entropy : Nat → Entropy)
    (hpays : ∀ psbt keyPackages group addr, args.Obtains inputs psbt keyPackages group addr →
      args.Proceeds inputs psbt keyPackages group → ∀ input ∈ psbt.inputs, PaysTo addr input) :
    args.SpendsOwn inputs entropy := by
  intro psbt keyPackages group addr h
  have hsize := hroster keyPackages group h.keys
  cases hprepare : args.prepare inputs with
  | error e =>
      rw [run_unprepared hprepare]
      refine ⟨fun tx htx => ?_, fun _ env henv => ?_⟩
      · cases htx
      · cases henv
  | ok session =>
      rw [run_prepared hprepare]
      constructor
      · intro tx htx
        obtain ⟨-, ⟨selected, hlive⟩, -⟩ :=
          SigningSession.signAll_completes.mp ⟨tx, Except.mapError_eq_ok.mp htx⟩
        exact hpays psbt keyPackages group addr h (proceeds_of_live h hsize hprepare hlive)
      · rintro ⟨input, hinput, hforeign⟩ env henv hclass
        obtain ⟨selected, hlive⟩ := live_of_share henv hclass
        exact hforeign (hpays psbt keyPackages group addr h
          (proceeds_of_live h hsize hprepare hlive) input hinput)

/-- The signed transaction spends the group's own coins, and no share is
    published for another coin, exactly if every PSBT that gets past the command's
    checks spends coins of the group's address only. -/
theorem sign_spends_own_iff {args : SignArgs} {inputs : SignInputs ε} (hgenuine : args.Genuine inputs)
    (entropy : Nat → Entropy) (hfree : CollisionFree {e | e ∈ published
      ((args.run inputs).run Host.world ⟨.new, entropy, 0⟩).trace}) :
    args.SpendsOwn inputs entropy ↔ ∀ psbt keyPackages group addr,
      args.Obtains inputs psbt keyPackages group addr → args.Proceeds inputs psbt keyPackages group →
        ∀ input ∈ psbt.inputs, PaysTo addr input := by
  constructor
  · intro hspends psbt keyPackages group addr h hproceeds
    obtain ⟨tx, htx⟩ := signs_of_proceeds hgenuine h hproceeds hfree
    exact (hspends psbt keyPackages group addr h).1 tx htx
  · exact spendsOwn_of_paysTo hgenuine.roster entropy

end Command

/-! ## A coin of the group and another -/

open Session.Plain

/-- Addresses that are the bytes of their scripts. -/
@[reducible] def plainTaproot : Taproot where
  XOnlyPublicKey := Bytes
  Address := Bytes
  SecpError := Unit
  hasEvenY _ := true
  serialize _ := some (2 :: List.replicate 32 0)
  fromSlice bytes := .ok bytes
  p2tr key _ := 0x51 :: 0x20 :: key
  scriptPubkey addr := addr

scoped instance : Taproot := plainTaproot

/-- A coin that pays to the group, or one that anyone can spend. -/
def coin (own : Bool) : TxOut := ⟨500, if own then 0x51 :: 0x20 :: List.replicate 32 0 else []⟩

/-- A spend of two coins, the first of which is the group's. -/
def spendOf (own : Bool) : Psbt := ⟨psbt.unsignedTx, [⟨some (coin true)⟩, ⟨some (coin own)⟩]⟩

def signInputs (own : Bool) : SignInputs Unit where
  readPsbt _ := .ok (spendOf own)
  loadPersistedShares _ := .error ()
  runInprocessDkg _ _ := .ok (Session.Plain.session.keyPackages, ())
  promptAck := false

/-- `sign --psbt tx.psbt --threshold 2 --seats 2 --yes` -/
def signArgs : SignArgs := ⟨none, some "tx.psbt", some 2, some 2, false, .regtest, false, true⟩

def signRun (own : Bool) : Program.Run Op Op.Resp Host (Abort (SignError Unit)) Transaction :=
  (signArgs.run (signInputs own)).run Host.world host

theorem signArgs_genuine (own : Bool) : signArgs.Genuine (signInputs own) where
  codec := codec
  roster := by
    intro keyPackages group h
    cases h
    decide +kernel
  together := by
    intro keyPackages group h
    cases h
    exact ⟨2, by decide, signsTogether 2 (fun id kp => own_keyPackages_session)⟩
  psbtInputs := by
    intro path psbt h
    cases h
    rfl
  hashes := by
    intro path psbt h i prevouts hi hlength
    exact sighash_exists hi hlength

/-- Both commands sign, and no two of their envelopes have the same id. -/
theorem signRun_signs (own : Bool) : (signRun own).result.isOk = true ∧
    ∀ a ∈ published (signRun own).trace, ∀ b ∈ published (signRun own).trace, a.id = b.id → a = b := by
  cases own <;> decide +kernel

/-- Both coins are the group's. -/
theorem sign_spends_own_iff_coins : signArgs.SpendsOwn (signInputs true) host.entropy := by
  have hfree := collisionFree_list (signRun_signs true).2
  refine (sign_spends_own_iff (signArgs_genuine true) host.entropy hfree).mpr ?_
  intro psbt keyPackages group addr h _ input hinput
  obtain ⟨path, -, hread⟩ := h.psbt
  cases hread
  cases h.address
  have hcoin : input = ⟨some (coin true)⟩ := by simpa [spendOf] using hinput
  exact ⟨coin true, by rw [hcoin], rfl⟩

/-- The transaction that is signed spends a coin of somebody else's. -/
theorem sign_spends_foreign_coin : ¬ signArgs.SpendsOwn (signInputs false) host.entropy := by
  intro h
  obtain ⟨tx, htx⟩ := Except.exists_ok_of_isOk (signRun_signs false).1
  have hobtains : signArgs.Obtains (signInputs false) (spendOf false)
      Session.Plain.session.keyPackages () (0x51 :: 0x20 :: List.replicate 32 0 : Bytes) :=
    ⟨⟨"tx.psbt", rfl, rfl⟩, rfl, rfl⟩
  obtain ⟨utxo, hutxo, hscript⟩ := (h _ _ _ _ hobtains).1 tx htx ⟨some (coin false)⟩ (by simp [spendOf])
  cases hutxo
  cases hscript

end Cli
