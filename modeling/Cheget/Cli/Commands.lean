-- SUMMARY: The commands that read what a key generation has stored: share-status, address, and sign on a disk.
import Cheget.Cli.Sign
import Cheget.Cli.Spend
import Cheget.Store.Loads

/-!
# Commands over a disk

Each command reads the disk that it finds. `sign` has been modelled over inputs
that are given to it; here they are what its reads yield, one after the other.
-/

namespace Cli

open Bridge Chain Crypto Session Store Transport

/-- The FROST library as both halves of the program link it: the key generation
    with its encodings, and the signing operations. -/
class FrostLibrary extends KeyCodec, Frost

/-- `Psbt::deserialize` -/
class PsbtDecoder where
  Error : Type
  deserialize : Bytes → Except Error Psbt

section Reads

variable [KeyCodec] [Json] [Age]

/-- The directory that a command takes for its store: the one it is given, or the
    one that applies when none is. -/
def resolveRoot (given home : Option FilePath) : Except StoreError FilePath :=
  (given <|> home).okOr .noHomeDir

/-- Read a manifest without a passphrase. -/
def readManifest (root : FilePath) : StoreM Manifest :=
  ParticipantStore.loadManifest ⟨root, .error .noHomeDir⟩

/-- The rows that `share-status` prints. -/
def shareStatus (given home : Option FilePath) : StoreM (List ShareEntry) := do
  let root ← Program.ofExcept (resolveRoot given home)
  let manifest ← readManifest root
  pure manifest.shares

inductive AddressError [Taproot] where
  | io (e : IoError)
  | json (e : Json.Error)
  | envelope (e : EnvelopeError)
  | bridge (e : BridgeError)

/-- The address of the group in a public envelope, which `address` prints. -/
def addressFromPubkeyFile [Taproot] [Build] (path : FilePath) (network : Network) :
    SysM (Abort AddressError) Address := do
  let content ← sys (SysOp.read path)
  let raw ← Program.ofExcept (content.mapError (fun e => .error (.io e)))
  let envelope ← Program.ofExcept ((Json.envelopeFromSlice raw).mapError (fun e => .error (.json e)))
  let pkg ← Program.ofExcept (envelope.decodePackage.mapError (Abort.map .envelope))
  .ofExcept ((addressFromGroupKey (FrostKeys.groupKey pkg) (knownHrp network)).mapError
    (Abort.map .bridge))

end Reads

/-! ## Sign -/

section Sign

variable [FrostLibrary] [Json] [Age] [PsbtDecoder] [DecidableEq VerifyingKey]

/-- What the machine that the command runs on contributes. -/
structure Shell where
  env : SysEnv
  disk : Disk
  /-- The path that an argument names. -/
  resolve : String → FilePath
  home : Option FilePath
  passphrase : Except StoreError Passphrase
  input : CeremonyInput
  promptAck : Bool

inductive SignInputError where
  | io (e : IoError)
  | psbt (e : PsbtDecoder.Error)
  | store (e : Abort CliError)
  | keygen (e : Abort (KeygenError Dkg.Error))

/-- Read a PSBT. -/
def readPsbt (path : FilePath) : SysM SignInputError Psbt := do
  let content ← sys (SysOp.read path)
  let raw ← Program.ofExcept (content.mapError .io)
  .ofExcept ((PsbtDecoder.deserialize raw).mapError .psbt)

/-- Load the shares from the store that the arguments name. -/
def loadStoredShares (given home : Option FilePath) (passphrase : Except StoreError Passphrase)
    (t : UInt16) : CliM (BTreeMap Identifier KeyPackage × PublicKeyPackage) := do
  let base ← lift ((resolveRoot given home).mapError .store)
  let secret ← lift (passphrase.mapError .store)
  loadPersistedShares base t (.ok secret)

/-- The disk once the PSBT has been read. -/
def Shell.afterPsbt (self : Shell) (args : SignArgs) : Disk :=
  match args.psbt with
  | some path => ((readPsbt (self.resolve path)).run self.env.world self.disk).state
  | none => self.disk

/-- What the command is given, with `--base` as `given`. -/
def Shell.signInputs (self : Shell) (args : SignArgs) (given : Option FilePath) :
    SignInputs SignInputError where
  readPsbt path := ((readPsbt (self.resolve path)).run self.env.world self.disk).result
  loadPersistedShares t :=
    ((loadStoredShares given self.home self.passphrase t).run self.env.world
      (self.afterPsbt args)).result.mapError .store
  runInprocessDkg t n := (runInprocessDkg self.input t n).mapError .keygen
  promptAck := self.promptAck

end Sign

/-! ## Nothing is written -/

section ReadOnly

theorem sysRead_readOnly {ε : Type} (p : FilePath) : (sys (.read p) : SysM ε _).Uses ReadOnly :=
  ⟨fun _ h => h, fun _ => trivial⟩

theorem readPsbt_readOnly [FrostLibrary] [Json] [Age] [PsbtDecoder] (path : FilePath) :
    (readPsbt path).Uses ReadOnly :=
  (sysRead_readOnly path).bind (fun _ => (Program.uses_ofExcept _ _).bind (fun _ => Program.uses_ofExcept _ _))

theorem Shell.afterPsbt_tree [FrostLibrary] [Json] [Age] [PsbtDecoder] (self : Shell) (args : SignArgs) :
    (self.afterPsbt args).tree = self.disk.tree := by
  unfold afterPsbt
  split
  · exact readOnly_tree (readPsbt_readOnly _) self.env self.disk
  · rfl

end ReadOnly

end Cli
