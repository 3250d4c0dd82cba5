-- SUMMARY: What is assumed of FROST where a result needs more than its interface.
import Cheget.Session.SigningSession

/-!
# Assumptions about FROST

The interface of FROST promises nothing. The results that rely on a property of
the scheme take one of the structures below as a hypothesis.
-/

namespace Session

open Crypto

variable [Frost]

/-- Encoded commitments and shares decode to themselves. -/
structure Codec : Prop where
  commitments : ∀ (c : SigningCommitments) (bytes : Bytes),
    Frost.serializeCommitments c = .ok bytes → Frost.deserializeCommitments bytes = .ok c
  shares : ∀ share : SignatureShare, Frost.deserializeShare (Frost.serializeShare share) = .ok share

/-! ## Honest rounds -/

/-- The commitments to the nonces that `r1` holds for a seat. -/
def Round1.ownCommitments (r1 : Round1) (id : Identifier) : Option SigningCommitments :=
  r1.nonces[id]?.map (fun nonce => Frost.commitmentsOf nonce.nonces)

/-- The share of a seat under the nonces that `r1` holds for it. -/
def Round1.ownShare (r1 : Round1) (keyPackages : BTreeMap Identifier KeyPackage)
    (id : Identifier) : Option SignatureShare :=
  match r1.nonces[id]?, keyPackages[id]? with
  | some nonce, some kp => (nonce.sign r1.signingPackage kp).toOption
  | _, _ => none

/-- `r1` is a round 1 that seats of the roster carried out honestly. -/
structure Round1.Honest (r1 : Round1) (keyPackages : BTreeMap Identifier KeyPackage) : Prop where
  nonces : ∀ (id : Identifier) (nonce : EphemeralNonces), r1.nonces[id]? = some nonce →
    ∃ kp entropy, keyPackages[id]? = some kp ∧
      nonce = ⟨Frost.newNonces (Frost.signingShare kp) entropy⟩
  commitments : ∀ id : Identifier, r1.signingPackage.signingCommitments[id]? = r1.ownCommitments id

/-- A roster and group from one key generation with threshold `m`: any `m` seats
    that sign honestly produce a signature that verifies. -/
structure SignsTogether (keyPackages : BTreeMap Identifier KeyPackage) (group : PublicKeyPackage)
    (m : Nat) : Prop where
  encodes : ∀ (id : Identifier) (kp : KeyPackage) (entropy : Entropy), keyPackages[id]? = some kp →
    ∃ payload, Frost.serializeCommitments
      (Frost.commitmentsOf (Frost.newNonces (Frost.signingShare kp) entropy)) = .ok payload
  signs : ∀ r1 : Round1, r1.Honest keyPackages → m ≤ r1.nonces.size →
    ∀ (id : Identifier) (nonce : EphemeralNonces) (kp : KeyPackage),
      r1.nonces[id]? = some nonce → keyPackages[id]? = some kp → ∃ share, nonce.sign r1.signingPackage kp = .ok share
  verifies : ∀ r1 : Round1, r1.Honest keyPackages → m ≤ r1.nonces.size →
    ∀ shares : BTreeMap Identifier SignatureShare,
      (∀ id : Identifier, shares[id]? = r1.ownShare keyPackages id) →
        ∃ sig bytes, Frost.aggregateWithTweak r1.signingPackage shares group = .ok sig ∧
          Frost.verify (outputKeyQ group) r1.signingPackage.message sig = .ok () ∧
          signatureBytes sig = .ok bytes

end Session
