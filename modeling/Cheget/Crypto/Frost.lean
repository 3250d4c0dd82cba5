-- SUMMARY: The FROST library as the crate links it: key packages, signing operations, and the package a coordinator sends.
import Cheget.Base.BTreeMap
import Cheget.Base.Bytes
import Cheget.Crypto.Types

/-!
# The FROST library

`frost_secp256k1_tr` is not part of the repository. Its types and operations
are a class parameter, and nothing is assumed of them here: a result that
relies on a property of FROST states it as a hypothesis.
-/

namespace Crypto

/-! ## Keys -/

/-- Key material: a seat's package, the group's public package, and the
    verifying key that each of them carries. -/
class FrostKeys where
  KeyPackage : Type
  PublicKeyPackage : Type
  VerifyingKey : Type
  /-- `KeyPackage::verifying_key` -/
  seatKey : KeyPackage → VerifyingKey
  /-- `PublicKeyPackage::verifying_key` -/
  groupKey : PublicKeyPackage → VerifyingKey
  /-- `KeyPackage::into_even_y(None)` -/
  seatIntoEvenY : KeyPackage → KeyPackage
  /-- `PublicKeyPackage::into_even_y(None)` -/
  groupIntoEvenY : PublicKeyPackage → PublicKeyPackage

export FrostKeys (KeyPackage PublicKeyPackage VerifyingKey)

/-! ## Signing -/

/-- `SigningPackage`: the commitments of the signing seats and the message. -/
structure SigningPackage (Commitments : Type) where
  signingCommitments : BTreeMap Identifier Commitments
  message : Bytes

/-- The two-round signing operations. `Entropy` is what one nonce generation
    draws from the operating system. -/
class Frost extends FrostKeys where
  SigningShare : Type
  SigningNonces : Type
  SigningCommitments : Type
  SignatureShare : Type
  Signature : Type
  Error : Type
  Entropy : Type
  signingShare : KeyPackage → SigningShare
  /-- `SigningNonces::new`, which `round1::commit` calls. -/
  newNonces : SigningShare → Entropy → SigningNonces
  /-- `SigningCommitments::from(&nonces)`, the other half of `round1::commit`. -/
  commitmentsOf : SigningNonces → SigningCommitments
  serializeCommitments : SigningCommitments → Except Error Bytes
  deserializeCommitments : Bytes → Except Error SigningCommitments
  /-- `round2::sign_with_tweak` with no merkle root. -/
  signWithTweak :
    SigningPackage SigningCommitments → SigningNonces → KeyPackage → Except Error SignatureShare
  serializeShare : SignatureShare → Bytes
  deserializeShare : Bytes → Except Error SignatureShare
  /-- `aggregate_with_tweak` with no merkle root. -/
  aggregateWithTweak :
    SigningPackage SigningCommitments → BTreeMap Identifier SignatureShare → PublicKeyPackage →
      Except Error Signature
  culprits : Error → List Identifier
  /-- `PublicKeyPackage::tweak` with no merkle root. -/
  groupTweak : PublicKeyPackage → PublicKeyPackage
  verify : VerifyingKey → Bytes → Signature → Except Error Unit
  serializeSignature : Signature → Except Error Bytes

export Frost (SigningShare SigningNonces SigningCommitments SignatureShare Signature Entropy)

variable [Frost]

/-! ## Nonces -/

/-- Signing nonces of one round. -/
structure EphemeralNonces where
  nonces : SigningNonces

/-- Round 1: fresh nonces and the commitments to them. -/
def EphemeralNonces.commit (share : SigningShare) (entropy : Entropy) :
    EphemeralNonces × SigningCommitments :=
  let nonces := Frost.newNonces share entropy
  (⟨nonces⟩, Frost.commitmentsOf nonces)

/-- Round 2: the tweaked signature share under these nonces. -/
def EphemeralNonces.sign (self : EphemeralNonces)
    (signingPackage : SigningPackage SigningCommitments) (keyPackage : KeyPackage) :
    Except Frost.Error SignatureShare :=
  Frost.signWithTweak signingPackage self.nonces keyPackage

/-! ## Aggregation -/

/-- The tweaked output key the group's signatures verify against. -/
def outputKeyQ (pubkeys : PublicKeyPackage) : VerifyingKey :=
  FrostKeys.groupKey (Frost.groupTweak (FrostKeys.groupIntoEvenY pubkeys))

inductive AggregateError where
  | culprits (seats : List Identifier)
  | frost (e : Frost.Error)
  | verifyAgainstQ
  | length (n : Nat)

/-- Aggregate the shares, reporting the seats that cheater detection blames. -/
def aggregate (signingPackage : SigningPackage SigningCommitments)
    (shares : BTreeMap Identifier SignatureShare) (pubkeys : PublicKeyPackage) :
    Except AggregateError Signature :=
  (Frost.aggregateWithTweak signingPackage shares pubkeys).mapError (fun e =>
    if Frost.culprits e = [] then .frost e else .culprits (Frost.culprits e))

/-- Verify against the output key, never the internal key. -/
def verifyAgainstQ (sig : Signature) (message : Bytes) (pubkeys : PublicKeyPackage) :
    Except AggregateError Unit :=
  (Frost.verify (outputKeyQ pubkeys) message sig).mapError (fun _ => .verifyAgainstQ)

/-- The 64-byte encoding that goes into the witness. -/
def signatureBytes (sig : Signature) : Except AggregateError (Vector UInt8 64) := do
  let bytes ← (Frost.serializeSignature sig).mapError AggregateError.frost
  if h : bytes.length = 64 then
    .ok ⟨bytes.toArray, by simpa using h⟩
  else
    .error (.length bytes.length)

theorem signatureBytes_eq_ok {sig : Signature} {bytes : Vector UInt8 64}
    (h : signatureBytes sig = .ok bytes) : Frost.serializeSignature sig = .ok bytes.toList := by
  unfold signatureBytes at h
  obtain ⟨raw, hraw, h⟩ := Except.bind_eq_ok.mp h
  split at h
  · cases h
    simpa using Except.mapError_eq_ok.mp hraw
  · cases h

end Crypto
