-- SUMMARY: What is assumed of the encodings and of the encryption where a result needs more than their interfaces, and what follows for the files of a store.
import Cheget.Store.Participant

namespace Store

open Cli Crypto

/-- What is encoded decodes to itself, and what is decrypted is what was
    encrypted. A wrong passphrase may be refused, but yields nothing else. -/
structure RoundTrips [KeyCodec] [Json] [Age] : Prop where
  decrypt : ∀ (secret secret' : Passphrase) (logN : Nat) (entropy plaintext plaintext' bytes : Bytes),
    Age.encrypt secret logN entropy plaintext = .ok bytes →
      Age.decrypt secret' bytes = .ok plaintext' → plaintext' = plaintext
  keyPackage : ∀ (kp : KeyPackage) (bytes : Bytes),
    KeyCodec.serializeKeyPackage kp = .ok bytes → KeyCodec.deserializeKeyPackage bytes = .ok kp
  publicPackage : ∀ (group : PublicKeyPackage) (bytes : Bytes),
    KeyCodec.serializePublic group = .ok bytes → KeyCodec.deserializePublic bytes = .ok group
  manifest : ∀ (manifest : Manifest) (bytes : Bytes),
    Json.manifestToVec manifest = .ok bytes → Json.manifestFromSlice bytes = .ok manifest
  envelope : ∀ (envelope : PubkeyEnvelope) (bytes : Bytes),
    Json.envelopeToVec envelope = .ok bytes → Json.envelopeFromSlice bytes = .ok envelope

variable [KeyCodec] [Json]

/-- What is encrypted to a passphrase can be decrypted with it. -/
def Decrypts [Age] : Prop :=
  ∀ (secret : Passphrase) (logN : Nat) (entropy plaintext bytes : Bytes),
    Age.encrypt secret logN entropy plaintext = .ok bytes → Age.decrypt secret bytes = .ok plaintext

theorem Decrypts.decryptSecret [Age] (h : Decrypts) {secret : Passphrase}
    {entropy plaintext bytes : Bytes} (hencrypt : encryptSecret secret entropy plaintext = .ok bytes) :
    decryptSecret secret bytes = .ok plaintext := by
  rw [Store.decryptSecret, h _ _ _ _ _ (Except.mapError_eq_ok.mp hencrypt), Except.mapError_ok]

/-! ## Manifests -/

/-- The version of a manifest that is read is a known one. -/
def Manifest.Known (self : Manifest) : Prop :=
  ¬ (self.schemaVersion = 0 ∨ self.schemaVersion > currentSchemaVersion)

omit [KeyCodec] [Json] in
theorem known_new : Manifest.new.Known := by
  unfold Manifest.Known
  decide

theorem known_of_fromJsonBytes {bytes : Bytes} {manifest : Manifest}
    (h : Manifest.fromJsonBytes bytes = .ok manifest) : manifest.Known := by
  obtain ⟨manifest', -, hcheck⟩ := Except.bind_eq_ok.mp h
  split at hcheck
  · cases hcheck
  · next hversion =>
      cases hcheck
      exact hversion

/-- A manifest that is written is the one that is parsed. -/
theorem fromJsonBytes_eq [Age] (hlaws : RoundTrips) {manifest manifest' : Manifest} {json : Bytes}
    (hjson : manifest.toJsonBytes = .ok json) (hparse : Manifest.fromJsonBytes json = .ok manifest') :
    manifest' = manifest := by
  rw [Manifest.fromJsonBytes, hlaws.manifest manifest json (Except.mapError_eq_ok.mp hjson),
    Except.mapError_ok, Except.ok_bind] at hparse
  split at hparse
  · cases hparse
  · cases hparse
    rfl

/-- An updated manifest that is written can be read. -/
theorem fromJsonBytes_addEntry [Age] (hlaws : RoundTrips) {manifest : Manifest} {entry : ShareEntry}
    {json : Bytes} (hknown : manifest.Known) (hjson : (manifest.addEntry entry).toJsonBytes = .ok json) :
    Manifest.fromJsonBytes json = .ok (manifest.addEntry entry) := by
  rw [Manifest.fromJsonBytes, hlaws.manifest _ json (Except.mapError_eq_ok.mp hjson),
    Except.mapError_ok, Except.ok_bind]
  exact if_neg hknown

/-! ## Envelopes -/

theorem decodePackage_fromPackage [Age] (hlaws : RoundTrips) {keyId : String} {epoch : UInt64}
    {group : PublicKeyPackage} {envelope : PubkeyEnvelope}
    (h : PubkeyEnvelope.fromPackage keyId epoch group = .ok envelope) :
    envelope.decodePackage = .ok group := by
  obtain ⟨bytes, hbytes, henvelope⟩ := Except.bind_eq_ok.mp h
  cases henvelope
  rw [PubkeyEnvelope.decodePackage, hexDecode_hexEncode]
  exact Except.mapError_eq_ok.mpr (hlaws.publicPackage group bytes (Except.mapError_eq_ok.mp hbytes))

end Store
