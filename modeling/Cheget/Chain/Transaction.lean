-- SUMMARY: Bitcoin transactions and PSBTs as the signing session reads them, and the key-spend sighash.
import Cheget.Base.Bytes
import Cheget.Base.Except

/-!
# Chain data

The transaction types of `bitcoin`, and the one helper that computes the
message a key-path signature commits to. The BIP341 hash and the address
decoder belong to `bitcoin`; they are the `Bitcoin` parameter here.
-/

namespace Chain

/-- A 32-byte transaction id. -/
abbrev Txid := Vector UInt8 32

/-- A BIP341 signature hash. -/
abbrev TapSighash := Vector UInt8 32

abbrev ScriptBuf := Bytes

/-- An amount in satoshis. -/
abbrev Amount := UInt64

structure OutPoint where
  txid : Txid
  vout : UInt32
  deriving DecidableEq

structure TxIn where
  previousOutput : OutPoint
  scriptSig : ScriptBuf
  sequence : UInt32
  witness : List Bytes
  deriving DecidableEq

structure TxOut where
  value : Amount
  scriptPubkey : ScriptBuf
  deriving DecidableEq

structure Transaction where
  version : Int32
  lockTime : UInt32
  input : List TxIn
  output : List TxOut
  deriving DecidableEq

/-- The part of a PSBT input the session reads. -/
structure PsbtInput where
  witnessUtxo : Option TxOut
  deriving DecidableEq

structure Psbt where
  unsignedTx : Transaction
  inputs : List PsbtInput
  deriving DecidableEq

inductive Network where
  | bitcoin
  | testnet
  | signet
  | regtest
  deriving DecidableEq

inductive ChainError where
  | rpc (msg : String)
  | esplora (msg : String)
  | sighash (msg : String)
  | descriptor (msg : String)
  | unsupported (op : String)
  deriving DecidableEq

/-- The parts of `bitcoin` the crate calls and does not define. -/
class Bitcoin where
  /-- The BIP341 key-spend hash with `Prevouts::All` and the default sighash
      type, or the text of its error. -/
  taprootKeySpendSignatureHash : Transaction → Nat → List TxOut → Except String TapSighash
  /-- The address a script pays to on a network, if it is a standard one. -/
  addressFromScript : ScriptBuf → Network → Option String

/-- The BIP341 key-spend sighash of `inputIndex`. -/
def keySpendSighash [Bitcoin] (tx : Transaction) (inputIndex : Nat) (prevouts : List TxOut) :
    Except ChainError TapSighash :=
  (Bitcoin.taprootKeySpendSignatureHash tx inputIndex prevouts).mapError .sighash

/-! ## Witnesses -/

/-- The transaction with every witness removed. -/
def Transaction.stripWitnesses (tx : Transaction) : Transaction :=
  { tx with input := tx.input.map (fun i => { i with witness := [] }) }

/-- `tx.input[i].witness = w`. -/
def Transaction.setWitness (tx : Transaction) (i : Nat) (w : List Bytes) : Transaction :=
  { tx with input := tx.input.modify i (fun txin => { txin with witness := w }) }

/-- Two transactions that agree in every field except the input witnesses. -/
def Transaction.SameUpToWitnesses (a b : Transaction) : Prop :=
  a.stripWitnesses = b.stripWitnesses

@[simp] theorem Transaction.setWitness_input_length (tx : Transaction) (i : Nat) (w : List Bytes) :
    (tx.setWitness i w).input.length = tx.input.length := by
  simp [setWitness]

theorem Transaction.getElem?_setWitness (tx : Transaction) (i j : Nat) (w : List Bytes) :
    (tx.setWitness i w).input[j]? =
      if i = j then tx.input[j]?.map (fun txin => { txin with witness := w }) else tx.input[j]? := by
  rw [setWitness, List.getElem?_modify]
  split <;> simp_all

theorem Transaction.stripWitnesses_setWitness (tx : Transaction) (i : Nat) (w : List Bytes) :
    (tx.setWitness i w).stripWitnesses = tx.stripWitnesses := by
  have hmap : (tx.input.modify i (fun txin => { txin with witness := w })).map
      (fun txin => { txin with witness := [] }) =
      tx.input.map (fun txin => { txin with witness := [] }) := by
    apply List.ext_getElem
    · simp
    · intro k h₁ h₂
      rw [List.getElem_map, List.getElem_map, List.getElem_modify]
      split <;> rfl
  simp only [stripWitnesses, setWitness, hmap]

end Chain
