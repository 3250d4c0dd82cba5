-- SUMMARY: The plaintext index of a store's encrypted shares, and the errors of the store.
import Cheget.Base.FileSystem
import Cheget.Cli.Address

/-!
# The manifest

The manifest lists the stored shares by key label, epoch and seat. Its JSON
encoding and the encryption of the shares are class parameters.
-/

namespace Store

open Cli Crypto

/-- The manifest schema version that is written, and the newest accepted. -/
def currentSchemaVersion : UInt32 := 1

inductive ShareState where
  | active
  | standby
  | retired
  deriving DecidableEq

/-- Lowercase hex of a seat identifier's canonical serialization. -/
def seatHex (seat : SeatId) : String := Bytes.hex seat.serialize

/-- One entry, indexing a share by its tag. -/
structure ShareEntry where
  keyId : String
  epoch : UInt64
  seat : String
  state : ShareState
  createdAt : UInt64
  deriving DecidableEq

def ShareEntry.new (keyId : KeyId) (epoch : Epoch) (seat : SeatId) (state : ShareState)
    (createdAt : UInt64) : ShareEntry :=
  ⟨keyId.label, epoch.number, seatHex seat, state, createdAt⟩

/-- Two entries that index the same share. -/
def ShareEntry.sameTag (a b : ShareEntry) : Bool :=
  a.keyId == b.keyId && a.epoch == b.epoch && a.seat == b.seat

structure Manifest where
  schemaVersion : UInt32
  shares : List ShareEntry
  deriving DecidableEq

/-- The JSON encodings of what a store holds in plain text. -/
class Json where
  Error : Type
  manifestToVec : Manifest → Except Error Bytes
  manifestFromSlice : Bytes → Except Error Manifest
  envelopeToVec : PubkeyEnvelope → Except Error Bytes
  envelopeFromSlice : Bytes → Except Error PubkeyEnvelope

/-- Encryption to a passphrase. -/
class Age where
  Passphrase : Type
  /-- The work factor is the second argument; the last but one is randomness. -/
  encrypt : Passphrase → Nat → Bytes → Bytes → Except String Bytes
  decrypt : Passphrase → Bytes → Except String Bytes

export Age (Passphrase)

/-- What is wrong with a manifest. -/
inductive ManifestFault where
  | noActiveShare
  | keyId (e : KeyIdError)
  | seatOddLength (hex : String)
  | seatNotAscii (hex : String)
  | seatNotHex (hex : String)
  | envelopeHex

/-- What is wrong with a stored identity secret. -/
inductive IdentityFault where
  | length (n : Nat)
  | notASecret

inductive StoreError [KeyCodec] [Json] where
  | io (e : IoError)
  | age (message : String)
  | frost (e : Dkg.Error)
  | serialize (e : Dkg.Error)
  | json (e : Json.Error)
  | manifest (fault : ManifestFault)
  | schema (version : UInt32)
  | identity (fault : IdentityFault)
  | noHomeDir

/-- Programs of the store. -/
abbrev StoreM [KeyCodec] [Json] (α : Type) := SysM StoreError α

variable [KeyCodec] [Json]

/-- A system call whose failure is an I/O error of the store. -/
def io {α : Type} (call : SysM StoreError (Except IoError α)) : StoreM α := do
  let result ← call
  .ofExcept (result.mapError .io)

namespace Manifest

omit [KeyCodec] [Json] in
/-- An empty manifest of the current version. -/
def new : Manifest := ⟨currentSchemaVersion, []⟩

def toJsonBytes (self : Manifest) : Except StoreError Bytes :=
  (Json.manifestToVec self).mapError .json

/-- Parse, refusing a version that this build does not know. -/
def fromJsonBytes (bytes : Bytes) : Except StoreError Manifest := do
  let manifest ← (Json.manifestFromSlice bytes).mapError .json
  if manifest.schemaVersion = 0 ∨ manifest.schemaVersion > currentSchemaVersion then
    .error (.schema manifest.schemaVersion)
  else
    pure manifest

omit [KeyCodec] [Json]

/-- Put the entry in the place of the first with its tag, or at the end. -/
def insertEntry (entry : ShareEntry) : List ShareEntry → List ShareEntry
  | [] => [entry]
  | e :: es => if e.sameTag entry then entry :: es else e :: insertEntry entry es

/-- Insert an entry, replacing one that carries the same tag. -/
def addEntry (self : Manifest) (entry : ShareEntry) : Manifest :=
  { self with shares := insertEntry entry self.shares }

end Manifest

end Store
