-- SUMMARY: The keygen command: resolving its sizes, the ceremony, persisting every seat, and the public envelope.
import Cheget.Crypto.Ceremony
import Cheget.Store.Participant

/-!
# The keygen command

The command runs the ceremony in one process and persists every seat to a store
root of its own below one base directory.
-/

namespace Cli

open Crypto Store

def fullThreshold : UInt16 := 51
def fullSeats : UInt16 := 100
def smallThreshold : UInt16 := 3
def smallSeats : UInt16 := 5

/-- The arguments of the command; its ceremony label is only informational. -/
structure KeygenArgs where
  seats : Option UInt16
  threshold : Option UInt16
  full : Bool
  keyId : String
  out : Option FilePath
  persist : Bool
  base : Option FilePath

/-- The effective threshold and number of seats. -/
def KeygenArgs.resolveTn (self : KeygenArgs) : UInt16 × UInt16 :=
  let defaults := if self.full then (fullThreshold, fullSeats) else (smallThreshold, smallSeats)
  (self.threshold.getD defaults.1, self.seats.getD defaults.2)

/-- The name of the `i`-th seat root: the number, padded to four digits. -/
def seatDir (i : Nat) : String :=
  let digits := Nat.toDigits 10 i
  String.ofList ("seat-".toList ++ List.replicate (4 - digits.length) '0' ++ digits)

variable [KeyCodec] [Json] [Age]

/-- What the operating system contributes to a ceremony: the randomness, and how
    the parallel rounds are split. -/
structure CeremonyInput where
  rng : Rng
  split2 : List Nat
  split3 : List Nat

/-- The ceremony with the randomness of the operating system. -/
def runInprocessDkg (input : CeremonyInput) (minSigners maxSigners : UInt16)
    [DecidableEq VerifyingKey] :
    Except (Abort (KeygenError Dkg.Error)) (BTreeMap Identifier KeyPackage × PublicKeyPackage) :=
  runInprocessDkgWithRng input.split2 input.split3 minSigners maxSigners input.rng

inductive CliError where
  | keygen (e : KeygenError Dkg.Error)
  | store (e : StoreError)
  | envelope (e : EnvelopeError)
  | json (e : Json.Error)
  | io (e : IoError)
  | invalidTn (threshold seats : UInt16)
  | noOutput
  | cannotReadBase (e : IoError)
  | insufficientRoots (found needed : Nat)

/-- Programs of the command line. -/
abbrev CliM (α : Type) := SysM (Abort CliError) α

/-- `?` for a computed result. -/
def lift {α : Type} (x : Except CliError α) : CliM α := .ofExcept (x.mapError .error)

/-- `?` for an operation of the store. -/
def store {α : Type} (p : StoreM α) : CliM α := p.mapError (fun e => .error (.store e))

variable [DecidableEq VerifyingKey]

/-- Persist one seat. -/
def persistSeat (base : FilePath) (secret : Passphrase) (group : PublicKeyPackage)
    (seat : (Identifier × KeyPackage) × Nat) : CliM PUnit :=
  let root := base ++ [seatDir (seat.2 + 1)]
  let store' : ParticipantStore := ⟨root, .ok secret⟩
  let tag : ShareTag := ⟨.active, .genesis, seat.1.1⟩
  store (store'.putShare tag seat.1.2 group .active)

/-- Run the ceremony and persist every seat below the base. -/
def persistDkgShares (input : CeremonyInput) (base : FilePath) (t n : UInt16)
    (passphrase : Except StoreError Passphrase) :
    CliM (BTreeMap Identifier KeyPackage × PublicKeyPackage) := do
  let (shares, group) ← Program.ofExcept
    ((runInprocessDkg input t n).mapError (fun e => e.map CliError.keygen))
  let secret ← lift (passphrase.mapError .store)
  shares.toList.zipIdx.forM (persistSeat base secret group)
  pure (shares, group)

/-- `fs::write` of the public envelope. -/
def writePublicEnvelope (keyId : String) (group : PublicKeyPackage) (out : FilePath) : CliM Unit := do
  let envelope ← lift ((PubkeyEnvelope.fromPackage keyId 0 group).mapError .envelope)
  let json ← lift ((Json.envelopeToVec envelope).mapError .json)
  let created ← sys (SysOp.createTruncate out)
  lift (created.mapError .io)
  let written ← sys (SysOp.writeAll out json)
  lift (written.mapError .io)

/-- The command. `home` is the store root that applies when none is given, and
    `passphrase` what the prompt yields. -/
def keygen (input : CeremonyInput) (home : Option FilePath) (passphrase : Except StoreError Passphrase)
    (args : KeygenArgs) : CliM Unit := do
  let (t, n) := args.resolveTn
  if t = 0 ∨ n = 0 ∨ n < t then
    lift (.error (.invalidTn t n))
  if args.out.isNone ∧ args.persist = false then
    lift (.error .noOutput)
  if args.persist then
    let base ← lift ((args.base <|> home).okOr (.store .noHomeDir))
    let secret ← lift (passphrase.mapError .store)
    let (_, group) ← persistDkgShares input base t n (.ok secret)
    match args.out with
    | some out => writePublicEnvelope args.keyId group out
    | none => pure ()
  else
    let (_, group) ← Program.ofExcept
      ((runInprocessDkg input t n).mapError (fun e => e.map CliError.keygen))
    match args.out with
    | some out => writePublicEnvelope args.keyId group out
    | none => .fail .panic

end Cli
