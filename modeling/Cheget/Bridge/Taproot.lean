-- SUMMARY: The bridge from FROST group keys to the addresses that pay to them.
import Cheget.Crypto.Frost
import Cheget.Session.Display

/-!
# The Taproot bridge

A group's verifying key is the internal key of its address. The curve types of
`bitcoin` and the derivation of the address belong to that library; they are the
`Taproot` parameter here.
-/

namespace Bridge

open Chain Crypto Session

/-- The networks that an address can be rendered for. -/
inductive KnownHrp where
  | mainnet
  | testnets
  | regtest
  deriving DecidableEq

/-- The parts of `bitcoin` and of the verifying key that the bridge calls. -/
class Taproot [FrostKeys] where
  XOnlyPublicKey : Type
  Address : Type
  SecpError : Type
  hasEvenY : VerifyingKey → Bool
  /-- `VerifyingKey::serialize`; what its error says is not kept. -/
  serialize : VerifyingKey → Option Bytes
  fromSlice : Bytes → Except SecpError XOnlyPublicKey
  /-- `Address::p2tr` with no merkle root. -/
  p2tr : XOnlyPublicKey → KnownHrp → Address
  scriptPubkey : Address → ScriptBuf

export Taproot (XOnlyPublicKey Address)

variable [FrostKeys] [Taproot]

inductive BridgeError where
  | oddY
  | len (n : Nat)
  | secp (e : Taproot.SecpError)
  | serialize

/-- The internal key of a group in its x-only form. -/
def internalKeyXonly [Build] (vk : VerifyingKey) : Except (Abort BridgeError) XOnlyPublicKey :=
  if Taproot.hasEvenY vk = false then
    .error (.error .oddY)
  else do
    let sec1 ← (Taproot.serialize vk).okOr (.error .serialize)
    if sec1.length ≠ 33 then
      .error (.error (.len sec1.length))
    -- the debug profile asserts the leading byte
    else if Build.overflowChecks ∧ sec1.head? ≠ some 2 then
      .error .panic
    else
      (Taproot.fromSlice sec1.tail).mapError (fun e => .error (.secp e))

/-- The address that pays to a group. -/
def addressFromGroupKey [Build] (vk : VerifyingKey) (hrp : KnownHrp) :
    Except (Abort BridgeError) Address := do
  let xonly ← internalKeyXonly vk
  pure (Taproot.p2tr xonly hrp)

end Bridge
