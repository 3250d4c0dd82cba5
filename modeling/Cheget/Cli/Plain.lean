-- SUMMARY: A plain instance of the whole FROST library over a curve of seven points, that meets every assumption made of it.
import Cheget.Bridge.OutputKey
import Cheget.Cli.Commands
import Cheget.Session.Plain
import Cheget.Store.Plain

/-!
# The plain library

A key is a point, which the ceremony takes for its randomness, and a seat's
package is its identifier and the point. Rounds are as in the plain signing
instance, files as in the plain store.
-/

namespace Cli.Plain

open Bridge Chain Crypto Session Store

/-! ## The library -/

/-- The package in two bytes. -/
def decodePackage : Bytes → Option (Identifier × ZMod 7)
  | [seat, key] => (Identifier.ofU16 seat.toUInt16).map (fun id => (id, (key.toNat : ZMod 7)))
  | _ => none

def decodeGroup : Bytes → Option (ZMod 7)
  | [key] => some key.toNat
  | _ => none

/-- The bytes, if they decode to the value. -/
def checked {α : Type} [DecidableEq α] (decode : Bytes → Option α) (a : α) (bytes : Bytes) :
    Except (List Identifier) Bytes :=
  (Store.Plain.encode decode a bytes).mapError (fun _ => [])

@[reducible] def library : FrostLibrary where
  KeyPackage := Identifier × ZMod 7
  PublicKeyPackage := ZMod 7
  VerifyingKey := ZMod 7
  seatKey kp := kp.2
  groupKey p := p
  seatIntoEvenY kp := (kp.1, Bridge.Plain.sevenPoints.intoEvenY kp.2)
  groupIntoEvenY p := Bridge.Plain.sevenPoints.intoEvenY p
  Rng := ZMod 7
  Error := List Identifier
  R1Secret := Identifier × ZMod 7
  R1Package := Unit
  R2Secret := Identifier × ZMod 7
  R2Package := Unit
  part1 id _ _ rng := .ok ((id, rng), (), rng)
  part2 secret _ := .ok (secret, ∅)
  part3 secret _ _ := .ok (secret, secret.2)
  serializeKeyPackage kp :=
    checked decodePackage kp [UInt8.ofNat kp.1.scalar, UInt8.ofNat kp.2.val]
  deserializeKeyPackage bytes := (decodePackage bytes).okOr []
  serializePublic p := checked decodeGroup p [UInt8.ofNat p.val]
  deserializePublic bytes := (decodeGroup bytes).okOr []
  malformedIdentifier _ := []
  SigningShare := Unit
  SigningNonces := Bytes
  SigningCommitments := Bytes
  SignatureShare := Bytes
  Signature := Bytes
  Entropy := Bytes
  signingShare _ := ()
  newNonces _ entropy := entropy
  commitmentsOf nonces := nonces
  serializeCommitments c := .ok c
  deserializeCommitments bytes := .ok bytes
  signWithTweak pkg nonces kp :=
    if pkg.signingCommitments[kp.1]? = some nonces then .ok nonces else .error []
  serializeShare share := share
  deserializeShare bytes := .ok bytes
  aggregateWithTweak pkg shares _ :=
    if shares.toList = pkg.signingCommitments.toList then .ok (Session.Plain.signature pkg.message)
    else .error (pkg.signingCommitments.keys.filter
      (fun id => shares[id]? ≠ pkg.signingCommitments[id]?))
  culprits e := e
  groupTweak p := Bridge.Plain.sevenPoints.outputKey p
  verify _ message sig := if sig = Session.Plain.signature message then .ok () else .error []
  serializeSignature sig := .ok sig

scoped instance instLibrary : FrostLibrary := library

@[reducible] def taproot : Taproot where
  XOnlyPublicKey := Bytes
  Address := Bytes
  SecpError := Unit
  hasEvenY p := Bridge.Plain.isEven p
  serialize p := some ((if Bridge.Plain.isEven p then 2 else 3) :: Bridge.Plain.square p)
  fromSlice bytes := .ok bytes
  p2tr key _ := 0x51 :: 0x20 :: Bridge.Plain.square
    (Bridge.Plain.lift key + Bridge.Plain.sevenPoints.tapTweakHash key • Bridge.Plain.sevenPoints.generator)
  scriptPubkey addr := addr

scoped instance instTaproot : Taproot := taproot
scoped instance instJson : Json := Store.Plain.json
scoped instance instAge : Age := Store.Plain.age
scoped instance instBitcoin : Bitcoin := Session.Plain.bitcoin
scoped instance instBuild : Build := Session.Plain.build
scoped instance instDecidableEqKey : DecidableEq VerifyingKey := inferInstanceAs (DecidableEq (ZMod 7))
scoped instance instDecidableEqGroup : DecidableEq PublicKeyPackage :=
  inferInstanceAs (DecidableEq (ZMod 7))
scoped instance instDecidableEqAddress : DecidableEq Address := inferInstanceAs (DecidableEq Bytes)

/-- An even point. -/
def evenPoint : ZMod 7 := ((4 : Nat) : ZMod 7)

/-! ## The assumptions hold -/

theorem readsAs : ReadsAs Bridge.Plain.sevenPoints (fun vk => vk) (fun key => key) where
  hasEvenY _ := rfl
  serialize _ _ := rfl
  length_x p _ := by simp [Bridge.Plain.square]
  fromSlice p _ := ⟨Bridge.Plain.square p, rfl, rfl⟩
  p2tr _ _ := rfl
  groupIntoEvenY _ := rfl
  groupTweak _ := rfl

theorem decode_of_checked {α : Type} [DecidableEq α] {decode : Bytes → Option α} {a : α}
    {bytes bytes' : Bytes} (h : checked decode a bytes = .ok bytes') : decode bytes' = some a :=
  Store.Plain.decode_of_encode (Except.mapError_eq_ok.mp h)

theorem roundTrips : RoundTrips where
  decrypt := @RoundTrips.decrypt Store.Plain.keyCodec Store.Plain.json Store.Plain.age Store.Plain.roundTrips
  keyPackage _ _ h := Option.okOr_eq_ok.mpr (decode_of_checked h)
  publicPackage _ _ h := Option.okOr_eq_ok.mpr (decode_of_checked h)
  manifest _ _ h := Option.okOr_eq_ok.mpr (Store.Plain.decode_of_encode h)
  envelope _ _ h := Option.okOr_eq_ok.mpr (Store.Plain.decode_of_encode h)

theorem decrypts : Decrypts := Store.Plain.decrypts

theorem codec : Codec where
  commitments := by
    intro c bytes h
    cases h
    rfl
  shares := fun _ => rfl

/-- Seats whose packages carry their own identifiers sign together. -/
theorem signsTogether {keyPackages : BTreeMap Identifier KeyPackage} (group : PublicKeyPackage) (m : Nat)
    (hown : ∀ (id : Identifier) (kp : KeyPackage), keyPackages[id]? = some kp → kp.1 = id) :
    SignsTogether keyPackages group m := by
  -- the commitment of a seat with nonces is in the package
  have hcommitted : ∀ r1 : Round1, r1.Honest keyPackages → ∀ (id : Identifier) (nonce : EphemeralNonces)
      (kp : KeyPackage), r1.nonces[id]? = some nonce → keyPackages[id]? = some kp →
        nonce.sign r1.signingPackage kp = .ok nonce.nonces := by
    intro r1 hhonest id nonce kp hnonce hkp
    have hcommit := hhonest.commitments id
    rw [Round1.ownCommitments, hnonce, Option.map_some] at hcommit
    refine if_pos ?_
    rw [hown id kp hkp]
    exact hcommit
  constructor
  · exact fun _ _ entropy _ => ⟨entropy, rfl⟩
  · exact fun r1 hhonest _ id nonce kp hnonce hkp => ⟨_, hcommitted r1 hhonest id nonce kp hnonce hkp⟩
  · intro r1 hhonest _ shares hshares
    have heq : shares = r1.signingPackage.signingCommitments := by
      apply BTreeMap.ext_getElem?
      intro id
      rw [hshares id, hhonest.commitments id, Round1.ownShare, Round1.ownCommitments]
      cases hnonce : r1.nonces[id]? with
      | none => rfl
      | some nonce =>
          obtain ⟨kp, -, hkp, -⟩ := hhonest.nonces id nonce hnonce
          simp only [hkp, hcommitted r1 hhonest id nonce kp hnonce hkp, Option.map_some]
          rfl
    have hlength : (Session.Plain.signature r1.signingPackage.message).length = 64 :=
      Session.Plain.length_signature _
    refine ⟨Session.Plain.signature r1.signingPackage.message,
      ⟨(Session.Plain.signature r1.signingPackage.message).toArray, by simpa using hlength⟩,
      if_pos (by rw [heq]), if_pos rfl, ?_⟩
    exact dif_pos hlength

end Cli.Plain
