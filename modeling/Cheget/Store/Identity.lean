-- SUMMARY: The transport identity of a store: one encrypted secret, checked when it is loaded.
import Cheget.Store.Participant

namespace Store

open Crypto

/-- The name of the file that holds the secret. -/
def identityFile : String := "identity.age"

/-- The big-endian bytes of a nonzero scalar of the curve. -/
def SecretBytes (bytes : Bytes) : Prop :=
  bytes.length = 32 ∧ 0 < Bytes.ofBigEndian bytes ∧ Bytes.ofBigEndian bytes < secp256k1Order

instance decidableSecretBytes (bytes : Bytes) : Decidable (SecretBytes bytes) :=
  inferInstanceAs (Decidable (_ ∧ _ ∧ _))

/-- A transport key pair, given by its secret. -/
structure IdentityKeypair where
  secret : Bytes
  valid : SecretBytes secret

def identityPath (root : FilePath) : FilePath := root ++ [identityFile]

variable [KeyCodec] [Json] [Age]

namespace IdentityKeypair

/-- Encrypt and write the secret. -/
def persist (self : IdentityKeypair) (root : FilePath) (passphrase : Except StoreError Passphrase) :
    StoreM Unit := do
  createDirSecure root
  let pass ← Program.ofExcept passphrase
  let entropy ← sys SysOp.entropy
  let ciphertext ← Program.ofExcept (encryptSecret pass entropy self.secret)
  writeAtomic (identityPath root) ciphertext

/-- The key pair of a decrypted secret. -/
def ofPlaintext (plaintext : Bytes) : Except StoreError IdentityKeypair :=
  if plaintext.length ≠ 32 then .error (.identity (.length plaintext.length))
  else if h : SecretBytes plaintext then .ok ⟨plaintext, h⟩
  else .error (.identity .notASecret)

/-- Read and decrypt the secret. -/
def load (root : FilePath) (passphrase : Except StoreError Passphrase) : StoreM IdentityKeypair := do
  let pass ← Program.ofExcept passphrase
  let ciphertext ← io (sys (SysOp.read (identityPath root)))
  let plaintext ← Program.ofExcept (decryptSecret pass ciphertext)
  .ofExcept (ofPlaintext plaintext)

omit [Age] in
theorem ofPlaintext_secret (self : IdentityKeypair) : ofPlaintext self.secret = .ok self := by
  rw [ofPlaintext, if_neg (not_not.mpr self.valid.1), dif_pos self.valid]

end IdentityKeypair

end Store
