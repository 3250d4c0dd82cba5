-- SUMMARY: The message unit of the transport seam and its content-derived id.
import Cheget.Base.Bytes
import Mathlib.Data.List.Sort

namespace Transport

/-! ## Seats and ids -/

/-- A seat, addressed by its integer index. -/
structure Seat where
  idx : UInt16
  deriving DecidableEq, Repr

theorem Seat.idx_injective : Function.Injective (fun s : Seat => s.idx.toNat) := by
  rintro ⟨a⟩ ⟨b⟩ h
  exact congrArg Seat.mk (UInt16.toNat_inj.mp h)

instance : LinearOrder Seat := LinearOrder.lift' (fun s => s.idx.toNat) Seat.idx_injective

/-- A content-derived envelope identity. -/
structure EnvelopeId where
  digest : UInt64
  deriving DecidableEq, Repr

theorem EnvelopeId.digest_injective :
    Function.Injective (fun i : EnvelopeId => i.digest.toNat) := by
  rintro ⟨a⟩ ⟨b⟩ h
  exact congrArg EnvelopeId.mk (UInt64.toNat_inj.mp h)

instance : LinearOrder EnvelopeId :=
  LinearOrder.lift' (fun i => i.digest.toNat) EnvelopeId.digest_injective

/-! ## Envelopes -/

inductive MessageClass where
  | ceremonyOpen
  | round1Package
  | round2Bundle
  | commitments
  | signatureShare
  | confirmation
  | sessionControl
  deriving DecidableEq, Repr

/-- The discriminant that enters the envelope id. -/
def MessageClass.tag : MessageClass → UInt8
  | .ceremonyOpen => 1
  | .round1Package => 2
  | .round2Bundle => 3
  | .commitments => 4
  | .signatureShare => 5
  | .confirmation => 6
  | .sessionControl => 7

/-- A message. No recipient means that it is broadcast. -/
structure Envelope where
  messageClass : MessageClass
  ceremonyOrSessionId : String
  round : UInt32
  seat : Seat
  recipient : Option Seat
  payload : Bytes
  deriving DecidableEq, Repr

namespace Envelope

def broadcast (messageClass : MessageClass) (ceremonyOrSessionId : String) (round : UInt32)
    (seat : Seat) (payload : Bytes) : Envelope :=
  { messageClass, ceremonyOrSessionId, round, seat, recipient := none, payload }

def directed (messageClass : MessageClass) (ceremonyOrSessionId : String) (round : UInt32)
    (seat recipient : Seat) (payload : Bytes) : Envelope :=
  { messageClass, ceremonyOrSessionId, round, seat, recipient := some recipient, payload }

/-- The id of an envelope: every field mixed in order into an FNV-1a state,
    the two variable-length ones after their length. -/
def id (env : Envelope) : EnvelopeId :=
  let h := Bytes.fnvMix Bytes.fnvOffset [env.messageClass.tag]
  let idBytes := Bytes.utf8 env.ceremonyOrSessionId
  let h := Bytes.fnvMix h (Bytes.le64 (UInt64.ofNat idBytes.length))
  let h := Bytes.fnvMix h idBytes
  let h := Bytes.fnvMix h (Bytes.le32 env.round)
  let h := Bytes.fnvMix h (Bytes.le16 env.seat.idx)
  let h := match env.recipient with
    | some r => Bytes.fnvMix (Bytes.fnvMix h [1]) (Bytes.le16 r.idx)
    | none => Bytes.fnvMix h [0]
  let h := Bytes.fnvMix h (Bytes.le64 (UInt64.ofNat env.payload.length))
  let h := Bytes.fnvMix h env.payload
  ⟨h⟩

end Envelope

/-! ## Collisions

The id is a 64-bit digest, so it identifies an envelope only among envelopes
whose digests differ. -/

/-- No two distinct envelopes of the set share an id. -/
def CollisionFree (envs : Set Envelope) : Prop :=
  Set.InjOn Envelope.id envs

theorem CollisionFree.mono {A B : Set Envelope} (h : CollisionFree B) (hAB : A ⊆ B) :
    CollisionFree A :=
  Set.InjOn.mono hAB h

theorem collisionFree_list {envs : List Envelope}
    (h : ∀ a ∈ envs, ∀ b ∈ envs, a.id = b.id → a = b) : CollisionFree {e | e ∈ envs} :=
  fun a ha b hb hid => h a ha b hb hid

end Transport
