-- SUMMARY: The participant's store: encrypted shares, plaintext public envelopes, and the manifest that is written last.
import Cheget.Store.Atomic

/-!
# The participant store

A store is a directory. A share is written in three steps, each replacing one
file: the public envelope, the encrypted share, and the manifest that indexes
it.
-/

namespace Store

open Cli Crypto

/-- The coordinates of one stored share. -/
structure ShareTag where
  keyId : KeyId
  epoch : Epoch
  seat : SeatId

/-! ## Paths -/

def manifestPath (root : FilePath) : FilePath := root ++ ["manifest.json"]

def sharePath (root : FilePath) (tag : ShareTag) : FilePath :=
  root ++ ["shares", tag.keyId.label, "epoch-" ++ toString tag.epoch.number.toNat,
    "seat-" ++ seatHex tag.seat ++ ".age"]

def publicPath (root : FilePath) (keyId : KeyId) (epoch : Epoch) : FilePath :=
  root ++ ["pubkey", keyId.label, "epoch-" ++ toString epoch.number.toNat ++ ".json"]

variable [KeyCodec] [Json] [Age]

/-- A store at a root, driven by one source of its passphrase. -/
structure ParticipantStore where
  root : FilePath
  passphrase : Except StoreError Passphrase

/-! ## Encryption -/

/-- The logarithm of the scrypt work factor. -/
def scryptLogN : Nat := 18

def encryptSecret (passphrase : Passphrase) (entropy plaintext : Bytes) : Except StoreError Bytes :=
  (Age.encrypt passphrase scryptLogN entropy plaintext).mapError .age

def decryptSecret (passphrase : Passphrase) (ciphertext : Bytes) : Except StoreError Bytes :=
  (Age.decrypt passphrase ciphertext).mapError .age

/-! ## Seats -/

/-- The bytes that pairs of digits denote, or the fault of the first bad pair. -/
def seatBytes (hex : String) : Bytes → Except ManifestFault Bytes
  | a :: b :: rest =>
      -- a lone lead or continuation byte is not a string, a two-byte character is
      if (a.toNat < 128 ∧ b.toNat < 128) ∨
          (194 ≤ a.toNat ∧ a.toNat < 224 ∧ isContinuation b = true) then
        match Bytes.hexPair a b with
        | none => .error (.seatNotHex hex)
        | some x => (seatBytes hex rest).map (x :: ·)
      else
        .error (.seatNotAscii hex)
  | _ => .ok []

/-- The seat that a spelling denotes. -/
def seatFromHex (hex : String) : Except StoreError SeatId := do
  if (Bytes.utf8 hex).length % 2 ≠ 0 then
    .error (.manifest (.seatOddLength hex))
  else
    let bytes ← (seatBytes hex (Bytes.utf8 hex)).mapError .manifest
    (Identifier.deserialize bytes).okOr (.frost (KeyCodec.malformedIdentifier bytes))

/-! ## Public envelopes -/

def mapEnvelopeErr : EnvelopeError → StoreError
  | .serialize e => .serialize e
  | .package e => .frost e
  | .hex => .manifest .envelopeHex

namespace ParticipantStore

variable (self : ParticipantStore)

/-- Write the plaintext envelope. -/
def putPublicEnvelope (keyId : KeyId) (epoch : Epoch) (group : PublicKeyPackage) : StoreM Unit := do
  let envelope ← Program.ofExcept
    ((PubkeyEnvelope.fromPackage keyId.label epoch.number group).mapError mapEnvelopeErr)
  let json ← Program.ofExcept ((Json.envelopeToVec envelope).mapError StoreError.json)
  let path := publicPath self.root keyId epoch
  createDirSecure path.dropLast
  writeAtomic path json

/-- Read the plaintext envelope, with no passphrase. -/
def loadPublicEnvelope (keyId : KeyId) (epoch : Epoch) : StoreM PubkeyEnvelope := do
  let bytes ← io (sys (SysOp.read (publicPath self.root keyId epoch)))
  .ofExcept ((Json.envelopeFromSlice bytes).mapError .json)

/-! ## The manifest -/

/-- Read the manifest; none is an empty one. -/
def loadManifest : StoreM Manifest := do
  let content ← sys (SysOp.read (manifestPath self.root))
  match content with
  | .ok bytes => .ofExcept (Manifest.fromJsonBytes bytes)
  | .error .notFound => pure .new
  | .error e => .fail (.io e)

/-! ## Shares -/

/-- Persist a share, its group's envelope first and the manifest last. -/
def putShare (tag : ShareTag) (keyPackage : KeyPackage) (group : PublicKeyPackage)
    (state : ShareState) : StoreM Unit := do
  let passphrase ← Program.ofExcept self.passphrase
  self.putPublicEnvelope tag.keyId tag.epoch group
  let path := sharePath self.root tag
  createDirSecure path.dropLast
  let plaintext ← Program.ofExcept
    ((KeyCodec.serializeKeyPackage keyPackage).mapError StoreError.serialize)
  let entropy ← sys SysOp.entropy
  let ciphertext ← Program.ofExcept (encryptSecret passphrase entropy plaintext)
  writeAtomic path ciphertext
  let manifest ← self.loadManifest
  let now ← sys SysOp.unixTime
  let manifest := manifest.addEntry (.new tag.keyId tag.epoch tag.seat state now)
  createDirSecure self.root
  let json ← Program.ofExcept manifest.toJsonBytes
  writeAtomic (manifestPath self.root) json

/-- Load and decrypt a share. -/
def loadShare (tag : ShareTag) : StoreM KeyPackage := do
  let passphrase ← Program.ofExcept self.passphrase
  let ciphertext ← io (sys (SysOp.read (sharePath self.root tag)))
  let plaintext ← Program.ofExcept (decryptSecret passphrase ciphertext)
  .ofExcept ((KeyCodec.deserializeKeyPackage plaintext).mapError .frost)

/-- Load the first active share that the manifest lists. -/
def loadOnlyActive : StoreM (SeatId × KeyPackage) := do
  let manifest ← self.loadManifest
  let entry ← Program.ofExcept
    ((manifest.shares.find? (fun e => e.state == .active)).okOr
      (StoreError.manifest .noActiveShare))
  let keyId ← Program.ofExcept
    ((KeyId.new entry.keyId).mapError (fun e => StoreError.manifest (.keyId e)))
  let seat ← Program.ofExcept (seatFromHex entry.seat)
  let keyPackage ← self.loadShare ⟨keyId, ⟨entry.epoch⟩, seat⟩
  pure (seat, keyPackage)

end ParticipantStore

end Store
