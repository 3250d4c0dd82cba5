-- SUMMARY: A plain instance of FROST and of the sighash, in which nothing is secret, that meets every assumption made of them.
import Cheget.Session.Assumptions
import Cheget.Session.Host

/-!
# The plain instance

Nonces, commitments and shares are the drawn bytes themselves, and a signature
is the message padded to 64 bytes. The scheme keeps what the session relies on:
a seat signs only a package that holds its own commitment, and aggregation
blames the seats whose share does not fit their commitment.
-/

namespace Session.Plain

open Chain Crypto

/-- The signature of a message: its bytes, padded to the right length. -/
def signature (message : Bytes) : Bytes := (message ++ List.replicate 64 0).take 64

theorem length_signature (message : Bytes) : (signature message).length = 64 := by
  simp [signature]

@[reducible] def frost : Frost where
  KeyPackage := Identifier
  PublicKeyPackage := Unit
  VerifyingKey := Unit
  seatKey _ := ()
  groupKey _ := ()
  seatIntoEvenY kp := kp
  groupIntoEvenY group := group
  SigningShare := Unit
  SigningNonces := Bytes
  SigningCommitments := Bytes
  SignatureShare := Bytes
  Signature := Bytes
  Error := List Identifier
  Entropy := Bytes
  signingShare _ := ()
  newNonces _ entropy := entropy
  commitmentsOf nonces := nonces
  serializeCommitments c := .ok c
  deserializeCommitments bytes := .ok bytes
  signWithTweak pkg nonces kp :=
    if pkg.signingCommitments[kp]? = some nonces then .ok nonces else .error []
  serializeShare share := share
  deserializeShare bytes := .ok bytes
  aggregateWithTweak pkg shares _ :=
    if shares.toList = pkg.signingCommitments.toList then .ok (signature pkg.message)
    else .error (pkg.signingCommitments.keys.filter
      (fun id => shares[id]? ≠ pkg.signingCommitments[id]?))
  culprits e := e
  groupTweak group := group
  verify _ message sig := if sig = signature message then .ok () else .error []
  serializeSignature sig := .ok sig

/-- A sighash that names the input, and no standard addresses. -/
@[reducible] def bitcoin : Bitcoin where
  taprootKeySpendSignatureHash tx i prevouts :=
    if i < tx.input.length ∧ prevouts.length = tx.input.length then
      .ok (Vector.replicate 32 (UInt8.ofNat i))
    else .error "out of range"
  addressFromScript _ _ := none

@[reducible] def build : Build := ⟨true⟩

scoped instance : Frost := frost
scoped instance : Bitcoin := bitcoin
scoped instance : Build := build
scoped instance : DecidableEq SigningCommitments := inferInstanceAs (DecidableEq Bytes)

/-! ## The assumptions hold -/

theorem codec : Codec where
  commitments := by
    intro c bytes h
    cases h
    rfl
  shares := fun _ => rfl

/-- Every roster whose packages carry their own identifiers signs together. -/
theorem signsTogether {keyPackages : BTreeMap Identifier KeyPackage} (m : Nat)
    (hown : ∀ (id : Identifier) (kp : KeyPackage), keyPackages[id]? = some kp → kp = id) :
    SignsTogether keyPackages () m where
  encodes := fun _ _ entropy _ => ⟨entropy, rfl⟩
  signs := by
    intro r1 hhonest _ id nonce kp hnonce hkp
    have hcommit := hhonest.commitments id
    rw [Round1.ownCommitments, hnonce, Option.map_some] at hcommit
    obtain rfl := hown id kp hkp
    exact ⟨nonce.nonces, if_pos hcommit⟩
  verifies := by
    intro r1 hhonest _ shares hshares
    have heq : shares = r1.signingPackage.signingCommitments := by
      apply BTreeMap.ext_getElem?
      intro id
      rw [hshares id, hhonest.commitments id, Round1.ownShare, Round1.ownCommitments]
      cases hnonce : r1.nonces[id]? with
      | none => rfl
      | some nonce =>
          obtain ⟨kp, -, hkp, -⟩ := hhonest.nonces id nonce hnonce
          have hcommit := hhonest.commitments id
          rw [Round1.ownCommitments, hnonce, Option.map_some] at hcommit
          obtain rfl := hown id kp hkp
          simp only [hkp, Option.map_some]
          exact congrArg Except.toOption (if_pos hcommit)
    have hlength : (signature r1.signingPackage.message).length = 64 := length_signature _
    refine ⟨signature r1.signingPackage.message, ⟨(signature r1.signingPackage.message).toArray,
      by simpa using hlength⟩, if_pos (by rw [heq]), if_pos rfl, ?_⟩
    exact dif_pos hlength

theorem sighash_exists {tx : Transaction} {i : Nat} {prevouts : List TxOut}
    (hi : i < tx.input.length) (hprevouts : prevouts.length = tx.input.length) :
    ∃ sighash, keySpendSighash tx i prevouts = .ok sighash := by
  refine ⟨Vector.replicate 32 (UInt8.ofNat i), ?_⟩
  have hhash : Bitcoin.taprootKeySpendSignatureHash tx i prevouts =
      .ok (Vector.replicate 32 (UInt8.ofNat i)) := if_pos ⟨hi, hprevouts⟩
  rw [keySpendSighash, hhash, Except.mapError_ok]

/-! ## A session -/

def seat (i : UInt16) (h : 0 < i.toNat) : Identifier := ⟨i.toNat, h, Identifier.uint16_lt_order i⟩

def firstSeat : Identifier := seat 1 (by decide)

def secondSeat : Identifier := seat 2 (by decide)

def txIn (vout : UInt32) : TxIn := ⟨⟨Vector.replicate 32 0, vout⟩, [], 0xffffffff, []⟩

def txOut (value : Amount) : TxOut := ⟨value, []⟩

/-- A spend of two inputs. -/
def psbt : Psbt where
  unsignedTx := ⟨2, 0, [txIn 0, txIn 1], [txOut 900]⟩
  inputs := [⟨some (txOut 500)⟩, ⟨some (txOut 500)⟩]

/-- Both seats of a two-seat roster sign the spend. -/
def session : SigningSession :=
  .new "s" ((∅ : BTreeMap Identifier Identifier).insert firstSeat firstSeat
    |>.insert secondSeat secondSeat) () psbt 2 .regtest

/-- Every seat of the roster holds its own package. -/
theorem own_keyPackages_session {id : Identifier} {kp : KeyPackage}
    (h : session.keyPackages[id]? = some kp) : kp = id := by
  simp only [session, SigningSession.new, BTreeMap.getElem?_insert] at h
  split at h
  · next hid =>
      cases h
      exact hid
  · split at h
    · next hid =>
        cases h
        exact hid
    · simp at h

/-- An empty board, and entropy that counts the draws. -/
def host : Host := ⟨.new, fun i => [UInt8.ofNat i], 0⟩

end Session.Plain
