-- SUMMARY: Participant identifiers and the labels of stored key material.
import Cheget.Base.Except
import Mathlib.Data.List.Sort

/-!
# Tagging types

`Identifier` is a FROST participant identifier: a nonzero scalar of the
secp256k1 group, ordered by its value. `KeyId` and `Epoch` label stored
artefacts; a `KeyId` is a single safe path component by construction.
-/

namespace Crypto

/-! ## Identifiers -/

/-- The order of the secp256k1 group. -/
def secp256k1Order : Nat :=
  0xFFFFFFFFFFFFFFFFFFFFFFFFFFFFFFFEBAAEDCE6AF48A03BBFD25E8CD0364141

/-- A FROST participant identifier. -/
structure Identifier where
  scalar : Nat
  pos : 0 < scalar
  lt_order : scalar < secp256k1Order
  deriving DecidableEq, Repr

namespace Identifier

theorem scalar_injective : Function.Injective Identifier.scalar := by
  rintro ⟨a, _, _⟩ ⟨b, _, _⟩ h
  cases h
  rfl

instance : LinearOrder Identifier := LinearOrder.lift' Identifier.scalar scalar_injective

theorem lt_iff {a b : Identifier} : a < b ↔ a.scalar < b.scalar := Iff.rfl

/-- Every nonzero `u16` is below the group order. -/
theorem uint16_lt_order (i : UInt16) : i.toNat < secp256k1Order := by
  have h := i.toNat_lt
  unfold secp256k1Order
  omega

/-- `Identifier::try_from(u16)`: zero is the only index that is not one. -/
def ofU16 (i : UInt16) : Option Identifier :=
  if h : 0 < i.toNat then some ⟨i.toNat, h, uint16_lt_order i⟩ else none

end Identifier

/-- A participant identifier: one seat of the group. -/
abbrev SeatId := Identifier

/-! ## Key labels and epochs -/

/-- The characters a key label may hold: ASCII alphanumerics, `-` and `_`. -/
def safeChar (c : Char) : Bool :=
  c.isAlphanum || c == '-' || c == '_'

/-- A non-empty string of safe characters. -/
def safeComponent (s : String) : Bool :=
  !s.isEmpty && s.toList.all safeChar

/-- The label of a group key, a single safe path component. -/
structure KeyId where
  label : String
  safe : safeComponent label = true
  deriving DecidableEq

/-- A label that is not a safe path component, kept for diagnostics. -/
structure KeyIdError where
  label : String
  deriving DecidableEq, Repr

namespace KeyId

theorem label_injective : Function.Injective KeyId.label := by
  rintro ⟨a, _⟩ ⟨b, _⟩ h
  cases h
  rfl

/-- The conventional label of the primary group key. -/
def active : KeyId := ⟨"active", by decide⟩

/-- Validate a label. -/
def new (id : String) : Except KeyIdError KeyId :=
  if h : safeComponent id = true then .ok ⟨id, h⟩ else .error ⟨id⟩

theorem new_eq_ok {id : String} {key : KeyId} : new id = .ok key ↔ id = key.label := by
  unfold new
  constructor
  · intro h
    split at h
    · cases h; rfl
    · cases h
  · rintro rfl
    rw [dif_pos key.safe]

end KeyId

/-- The refresh epoch of a share. -/
structure Epoch where
  number : UInt64
  deriving DecidableEq, Repr

/-- The epoch of the initial key generation. -/
def Epoch.genesis : Epoch := ⟨0⟩

end Crypto
