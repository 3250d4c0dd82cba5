-- SUMMARY: A plain instance of the key generation, the encodings and the encryption, in which nothing is secret, that meets every assumption made of them.
import Cheget.Crypto.Outcome
import Cheget.Store.Assumptions
import Cheget.Store.Effects

/-!
# The plain instance

The randomness of a ceremony is one byte, which is also the key that every seat
ends up with. Ciphertext is plaintext behind the byte of its passphrase, and a
structure is encoded as the bytes of its fields behind their lengths.
-/

namespace Store.Plain

open Cli Crypto

@[reducible] def keyCodec : KeyCodec where
  KeyPackage := UInt8 × UInt8
  PublicKeyPackage := UInt8
  VerifyingKey := UInt8
  seatKey kp := kp.2
  groupKey group := group
  seatIntoEvenY kp := kp
  groupIntoEvenY group := group
  Rng := UInt8
  Error := Unit
  R1Secret := UInt8 × UInt8
  R1Package := Unit
  R2Secret := UInt8 × UInt8
  R2Package := Unit
  part1 id _ _ rng := .ok ((UInt8.ofNat id.scalar, rng), (), rng)
  part2 secret _ := .ok (secret, ∅)
  part3 secret _ _ := .ok (secret, secret.2)
  serializeKeyPackage kp := .ok [kp.1, kp.2]
  deserializeKeyPackage
    | [seat, key] => .ok (seat, key)
    | _ => .error ()
  serializePublic group := .ok [group]
  deserializePublic
    | [group] => .ok group
    | _ => .error ()
  malformedIdentifier _ := ()

/-! ## Encodings -/

/-- A string of ASCII characters behind its length. -/
def text (s : String) : Bytes :=
  UInt8.ofNat s.toList.length :: s.toList.map (fun c => UInt8.ofNat c.toNat)

def takeText : Bytes → Option (String × Bytes)
  | [] => none
  | n :: rest =>
      some (String.ofList ((rest.take n.toNat).map (fun b => Char.ofNat b.toNat)), rest.drop n.toNat)

def ofState : ShareState → UInt8
  | .active => 0
  | .standby => 1
  | .retired => 2

def toState (b : UInt8) : ShareState :=
  if b = 0 then .active else if b = 1 then .standby else .retired

def ofEntry (e : ShareEntry) : Bytes :=
  text e.keyId ++ text e.seat ++ [UInt8.ofNat e.epoch.toNat, ofState e.state, UInt8.ofNat e.createdAt.toNat]

def toEntries : Nat → Bytes → Option (List ShareEntry)
  | 0, _ => none
  | _ + 1, [] => some []
  | fuel + 1, bytes => do
      let (keyId, bytes) ← takeText bytes
      let (seat, bytes) ← takeText bytes
      match bytes with
      | epoch :: state :: createdAt :: bytes => do
          let entries ← toEntries fuel bytes
          pure (⟨keyId, epoch.toUInt64, seat, toState state, createdAt.toUInt64⟩ :: entries)
      | _ => none

def toManifest : Bytes → Option Manifest
  | version :: bytes => (toEntries (bytes.length + 1) bytes).map (⟨version.toUInt32, ·⟩)
  | [] => none

def toEnvelope (bytes : Bytes) : Option PubkeyEnvelope := do
  let (keyId, bytes) ← takeText bytes
  let (package, bytes) ← takeText bytes
  match bytes with
  | [epoch] => pure ⟨keyId, epoch.toUInt64, package⟩
  | _ => none

/-- The encoding of what it decodes to; what does not fit is refused. -/
def encode {α : Type} [DecidableEq α] (decode : Bytes → Option α) (a : α) (bytes : Bytes) :
    Except Unit Bytes :=
  if decode bytes = some a then .ok bytes else .error ()

theorem decode_of_encode {α : Type} [DecidableEq α] {decode : Bytes → Option α} {a : α}
    {bytes bytes' : Bytes} (h : encode decode a bytes = .ok bytes') : decode bytes' = some a := by
  unfold encode at h
  split at h
  · next hdecode =>
      cases h
      exact hdecode
  · cases h

@[reducible] def json : Json where
  Error := Unit
  manifestToVec m :=
    encode toManifest m (UInt8.ofNat m.schemaVersion.toNat :: m.shares.flatMap ofEntry)
  manifestFromSlice bytes := (toManifest bytes).okOr ()
  envelopeToVec e :=
    encode toEnvelope e (text e.keyId ++ text e.pubkeyPackageHex ++ [UInt8.ofNat e.epoch.toNat])
  envelopeFromSlice bytes := (toEnvelope bytes).okOr ()

@[reducible] def age : Age where
  Passphrase := UInt8
  encrypt secret _ _ plaintext := .ok (secret :: plaintext)
  decrypt secret
    | b :: plaintext => if b = secret then .ok plaintext else .error "decryption failed"
    | [] => .error "decryption failed"

scoped instance plainKeyCodec : KeyCodec := keyCodec
scoped instance plainJson : Json := json
scoped instance plainAge : Age := age
scoped instance decidableEqVerifyingKey : DecidableEq VerifyingKey :=
  inferInstanceAs (DecidableEq UInt8)
scoped instance decidableEqPassphrase : DecidableEq Passphrase :=
  inferInstanceAs (DecidableEq UInt8)
scoped instance decidableEqKeyPackage : DecidableEq KeyPackage :=
  inferInstanceAs (DecidableEq (UInt8 × UInt8))
scoped instance decidableEqPublicKeyPackage : DecidableEq PublicKeyPackage :=
  inferInstanceAs (DecidableEq UInt8)

/-- The passphrase of the examples. -/
def secret : Passphrase := (9 : UInt8)

/-- The tag of the first seat. -/
def firstTag : ShareTag := ⟨.active, .genesis, ⟨1, by decide, by decide +kernel⟩⟩

/-- The tag of the second seat. -/
def secondTag : ShareTag := ⟨.active, .genesis, ⟨2, by decide, by decide +kernel⟩⟩

/-- Two calls, for the shares of one key. -/
def bothSeats (second : Bool) : Put :=
  if second then ⟨.ok secret, secondTag, ((2, 7) : UInt8 × UInt8), (7 : UInt8), .active⟩
  else ⟨.ok secret, firstTag, ((1, 7) : UInt8 × UInt8), (7 : UInt8), .active⟩

/-! ## The assumptions hold -/

theorem roundTrips : RoundTrips where
  decrypt := by
    intro secret secret' logN entropy plaintext plaintext' bytes henc hdec
    cases henc
    have hcases : Age.decrypt secret' (secret :: plaintext) =
        if secret = secret' then .ok plaintext else .error "decryption failed" := rfl
    rw [hcases] at hdec
    split at hdec
    · cases hdec
      rfl
    · cases hdec
  keyPackage := by
    intro kp bytes h
    cases h
    rfl
  publicPackage := by
    intro group bytes h
    cases h
    rfl
  manifest := by
    intro manifest bytes h
    exact Option.okOr_eq_ok.mpr (decode_of_encode h)
  envelope := by
    intro envelope bytes h
    exact Option.okOr_eq_ok.mpr (decode_of_encode h)

theorem decrypts : Decrypts := by
  intro secret logN entropy plaintext bytes h
  cases h
  exact if_pos rfl

theorem packagesAgree : PackagesAgree := by
  intro secret others inbox kp pubkeys h
  cases h
  rfl

end Store.Plain
