-- SUMMARY: The checkpoints of a key generation: one encrypted file for each ceremony, seat and round, and their removal.
import Cheget.Store.Participant

/-!
# The checkpoint store

A ceremony that is interrupted can be resumed from the secret packages of its
rounds. They are stored under the id of the ceremony, and removed together.
-/

namespace Store

open Crypto

/-- The directory that holds all checkpoints. -/
def ceremoniesDir : String := "ceremonies"

/-- The id of a ceremony, a single safe path component. -/
structure CeremonyId where
  id : String
  safe : safeComponent id = true

theorem CeremonyId.id_injective : Function.Injective CeremonyId.id := by
  rintro ⟨a, _⟩ ⟨b, _⟩ h
  cases h
  rfl

instance CeremonyId.decidableEq : DecidableEq CeremonyId := CeremonyId.id_injective.decidableEq

/-- FROST's encodings of the secret packages of a key generation. -/
class RoundCodec [Dkg] where
  serializeRound1 : R1Secret → Except Dkg.Error Bytes
  deserializeRound1 : Bytes → Except Dkg.Error R1Secret
  serializeRound2 : R2Secret → Except Dkg.Error Bytes
  deserializeRound2 : Bytes → Except Dkg.Error R2Secret

variable [KeyCodec] [Json] [Age]

/-- Validate the id of a ceremony. -/
def CeremonyId.new (id : String) : Except StoreError CeremonyId :=
  if h : safeComponent id = true then .ok ⟨id, h⟩ else .error (.io (.other 22))

/-! ## Paths -/

def ceremonyDir (root : FilePath) (cid : CeremonyId) : FilePath := root ++ [ceremoniesDir, cid.id]

def roundPath (root : FilePath) (cid : CeremonyId) (seat : SeatId) (round : UInt8) : FilePath :=
  ceremonyDir root cid ++ [seatHex seat, "round-" ++ toString round.toNat ++ ".age"]

/-- A checkpoint store at a root, driven by one source of its passphrase. -/
structure CheckpointStore where
  root : FilePath
  passphrase : Except StoreError Passphrase

namespace CheckpointStore

variable (self : CheckpointStore)

/-- Encrypt and write the checkpoint of a round. -/
def putRound (cid : CeremonyId) (seat : SeatId) (round : UInt8) (plaintext : Bytes) : StoreM Unit := do
  let passphrase ← Program.ofExcept self.passphrase
  let entropy ← sys SysOp.entropy
  let ciphertext ← Program.ofExcept (encryptSecret passphrase entropy plaintext)
  let path := roundPath self.root cid seat round
  createDirSecure path.dropLast
  writeAtomic path ciphertext

/-- Read and decrypt the checkpoint of a round. -/
def loadRound (cid : CeremonyId) (seat : SeatId) (round : UInt8) : StoreM Bytes := do
  let passphrase ← Program.ofExcept self.passphrase
  let ciphertext ← io (sys (SysOp.read (roundPath self.root cid seat round)))
  .ofExcept (decryptSecret passphrase ciphertext)

/-- Remove a ceremony's directory; none is no error. -/
def wipe (cid : CeremonyId) : StoreM Unit := do
  let removed ← sys (SysOp.removeDirAll (ceremonyDir self.root cid))
  match removed with
  | .ok () => pure ()
  | .error .notFound => pure ()
  | .error e => .fail (.io e)

variable [RoundCodec]

def putRound1 (cid : CeremonyId) (seat : SeatId) (pkg : R1Secret) : StoreM Unit := do
  let plaintext ← Program.ofExcept ((RoundCodec.serializeRound1 pkg).mapError StoreError.serialize)
  self.putRound cid seat 1 plaintext

def loadRound1 (cid : CeremonyId) (seat : SeatId) : StoreM R1Secret := do
  let plaintext ← self.loadRound cid seat 1
  .ofExcept ((RoundCodec.deserializeRound1 plaintext).mapError .frost)

def putRound2 (cid : CeremonyId) (seat : SeatId) (pkg : R2Secret) : StoreM Unit := do
  let plaintext ← Program.ofExcept ((RoundCodec.serializeRound2 pkg).mapError StoreError.serialize)
  self.putRound cid seat 2 plaintext

def loadRound2 (cid : CeremonyId) (seat : SeatId) : StoreM R2Secret := do
  let plaintext ← self.loadRound cid seat 2
  .ofExcept ((RoundCodec.deserializeRound2 plaintext).mapError .frost)

end CheckpointStore

end Store
