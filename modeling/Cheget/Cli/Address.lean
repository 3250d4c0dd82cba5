-- SUMMARY: The public envelope that carries a group's public key package as text.
import Cheget.Crypto.Codec

/-!
# The public envelope

The group's public package is stored as hexadecimal digits. The decoder slices
the text at even byte offsets, which panics inside a character.
-/

namespace Cli

open Crypto

/-! ## Hexadecimal text -/

/-- A byte inside the encoding of a character. -/
def isContinuation (b : UInt8) : Bool := 128 ≤ b.toNat && b.toNat < 192

/-- Decode pair by pair; the outer `none` is a slice that ends inside a
    character, the inner one a pair that is not a number. -/
def decodePairs : Bytes → Option (Option Bytes)
  | a :: b :: rest =>
      if rest.head?.any isContinuation then none
      else
        match Bytes.hexPair a b with
        | none => some none
        | some x => (decodePairs rest).map (fun decoded => decoded.map (x :: ·))
  | _ => some (some [])

def hexEncode (bytes : Bytes) : String := Bytes.hex bytes

def hexDecode (s : String) : Option (Option Bytes) :=
  if (Bytes.utf8 s).length % 2 ≠ 0 then some none else decodePairs (Bytes.utf8 s)

theorem decodePairs_hexBytes (bytes : Bytes) :
    decodePairs (Bytes.hexBytes bytes) = some (some bytes) := by
  induction bytes with
  | nil => rfl
  | cons b bytes ih =>
      have hdigit : ∀ n < 16, isContinuation (Bytes.hexDigit n) = false := by decide
      have hhead : (Bytes.hexBytes bytes).head?.any isContinuation = false := by
        cases bytes with
        | nil => rfl
        | cons c bytes =>
            have hlt := c.toNat_lt
            exact hdigit (c.toNat / 16) (by omega)
      have hcons : Bytes.hexBytes (b :: bytes) =
          Bytes.hexDigit (b.toNat / 16) :: Bytes.hexDigit (b.toNat % 16) ::
            Bytes.hexBytes bytes := rfl
      rw [hcons, decodePairs, hhead, Bytes.hexPair_hexDigit, ih]
      rfl

theorem hexDecode_hexEncode (bytes : Bytes) : hexDecode (hexEncode bytes) = some (some bytes) := by
  rw [hexDecode, hexEncode, Bytes.utf8_hex, if_neg (by rw [Bytes.length_hexBytes]; simp),
    decodePairs_hexBytes]

/-! ## The envelope -/

structure PubkeyEnvelope where
  keyId : String
  epoch : UInt64
  pubkeyPackageHex : String
  deriving DecidableEq

section Codec

variable [KeyCodec]

inductive EnvelopeError where
  | hex
  | package (e : Dkg.Error)
  | serialize (e : Dkg.Error)

namespace PubkeyEnvelope

def fromPackage (keyId : String) (epoch : UInt64) (pkg : PublicKeyPackage) :
    Except EnvelopeError PubkeyEnvelope := do
  let bytes ← (KeyCodec.serializePublic pkg).mapError .serialize
  pure ⟨keyId, epoch, hexEncode bytes⟩

def decodePackage (self : PubkeyEnvelope) : Except (Abort EnvelopeError) PublicKeyPackage :=
  match hexDecode self.pubkeyPackageHex with
  | none => .error .panic
  | some none => .error (.error .hex)
  | some (some bytes) =>
      (KeyCodec.deserializePublic bytes).mapError (fun e => .error (.package e))

end PubkeyEnvelope

end Codec

end Cli
