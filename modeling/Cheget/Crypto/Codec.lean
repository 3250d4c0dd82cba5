-- SUMMARY: The byte encodings of key material and of identifiers.
import Cheget.Base.Hex
import Cheget.Crypto.Keygen

namespace Crypto

/-- FROST's encodings of key packages. -/
class KeyCodec extends Dkg where
  serializeKeyPackage : KeyPackage → Except Error Bytes
  deserializeKeyPackage : Bytes → Except Error KeyPackage
  serializePublic : PublicKeyPackage → Except Error Bytes
  deserializePublic : Bytes → Except Error PublicKeyPackage
  /-- The error for bytes that are no identifier. -/
  malformedIdentifier : Bytes → Error

namespace Identifier

/-- `Identifier::serialize`: the scalar, big-endian. -/
def serialize (id : Identifier) : Bytes := Bytes.bigEndian 32 id.scalar

/-- `Identifier::deserialize`: 32 bytes of a nonzero scalar below the order. -/
def deserialize (bytes : Bytes) : Option Identifier :=
  if h : bytes.length = 32 ∧ 0 < Bytes.ofBigEndian bytes ∧
      Bytes.ofBigEndian bytes < secp256k1Order then
    some ⟨Bytes.ofBigEndian bytes, h.2.1, h.2.2⟩
  else none

theorem deserialize_eq_some {bytes : Bytes} {id : Identifier} (hlength : bytes.length = 32)
    (hvalue : Bytes.ofBigEndian bytes = id.scalar) : deserialize bytes = some id := by
  obtain ⟨n, hpos, hlt⟩ := id
  subst hvalue
  rw [deserialize, dif_pos ⟨hlength, hpos, hlt⟩]

theorem deserialize_serialize (id : Identifier) : deserialize id.serialize = some id := by
  have hdrop : Bytes.dropBytes 32 id.scalar = 0 :=
    Nat.le_zero.mp ((Bytes.dropBytes_mono 32 id.lt_order.le).trans (by decide +kernel))
  exact deserialize_eq_some (Bytes.length_bigEndian 32 id.scalar)
    (Bytes.ofBigEndian_bigEndian hdrop)

end Identifier

end Crypto
