-- SUMMARY: The display-before-sign gate: the spend summary, and the recompute check that precedes every signature share.
import Cheget.Chain.Transaction

namespace Session

open Chain

/-! ## The spend summary -/

/-- How the crate was built: whether integer overflow is checked, as in the
    debug profile, or wraps, as in the release profile. -/
class Build where
  overflowChecks : Bool

structure OutputLine where
  address : Option String
  value : Amount
  deriving DecidableEq

structure SpendSummary where
  inputTotal : Amount
  outputs : List OutputLine
  fee : Amount
  deriving DecidableEq

/-- Addition of two amounts. With overflow checks an overflow is a panic. -/
def addAmount [Build] (a b : Amount) : Option Amount :=
  if a.toNat + b.toNat < UInt64.size then some (a + b)
  else if Build.overflowChecks then none
  else some (a + b)

/-- `Sum for Amount`. -/
def sumAmounts [Build] (amounts : List Amount) : Option Amount :=
  amounts.foldlM addAmount 0

/-- The total as a number, which need not fit in 64 bits. -/
def total (amounts : List Amount) : Nat := amounts.foldr (fun a rest => a.toNat + rest) 0

/-- What `tx` spends. The fee is zero where the outputs exceed the inputs. -/
def summarize [Bitcoin] [Build] (tx : Transaction) (prevouts : List TxOut) (network : Network) :
    Option SpendSummary := do
  let inputTotal ← sumAmounts (prevouts.map TxOut.value)
  let outputTotal ← sumAmounts (tx.output.map TxOut.value)
  let fee := if outputTotal ≤ inputTotal then inputTotal - outputTotal else 0
  let outputs := tx.output.map (fun o =>
    { address := Bitcoin.addressFromScript o.scriptPubkey network, value := o.value : OutputLine })
  some { inputTotal, outputs, fee }

/-! ## The gate -/

inductive DisplayError where
  | blindSignMismatch (inputIndex : Nat)
  | ackRequired
  | sighash (e : ChainError)
  deriving DecidableEq

/-- Recompute the sighash, refuse a message that differs from it, render the
    summary, and require an ack. -/
def displayAndAck [Bitcoin] [Build] (tx : Transaction) (prevouts : List TxOut) (inputIndex : Nat)
    (coordinatorMessage : Bytes) (yes : Bool) (network : Network) :
    Except (Abort DisplayError) SpendSummary :=
  match keySpendSighash tx inputIndex prevouts with
  | .error e => .error (.error (.sighash e))
  | .ok recomputed =>
      if recomputed.toList ≠ coordinatorMessage then
        .error (.error (.blindSignMismatch inputIndex))
      else
        match summarize tx prevouts network with
        | none => .error .panic
        | some summary =>
            if yes then .ok summary else .error (.error .ackRequired)

variable [Bitcoin] [Build]

/-- The gate opens only for an acknowledged spend whose message is the sighash. -/
theorem displayAndAck_eq_ok {tx : Transaction} {prevouts : List TxOut} {inputIndex : Nat}
    {message : Bytes} {yes : Bool} {network : Network} {summary : SpendSummary} :
    displayAndAck tx prevouts inputIndex message yes network = .ok summary ↔
      yes = true ∧ summarize tx prevouts network = some summary ∧
      ∃ sighash, keySpendSighash tx inputIndex prevouts = .ok sighash ∧
        message = sighash.toList := by
  unfold displayAndAck
  cases hhash : keySpendSighash tx inputIndex prevouts with
  | error e => simp
  | ok sighash =>
      by_cases hmsg : sighash.toList = message
      · cases hsum : summarize tx prevouts network <;> cases yes <;> simp [hmsg]
      · have hmsg' : message ≠ sighash.toList := fun h => hmsg h.symm
        simp [hmsg, hmsg']

omit [Bitcoin] in
/-- Amounts whose total fits in 64 bits are summed exactly, without a panic. -/
theorem sumAmounts_of_lt (amounts : List Amount) (h : total amounts < UInt64.size) :
    ∃ sum, sumAmounts amounts = some sum ∧ sum.toNat = total amounts := by
  have general : ∀ (amounts : List Amount) (acc : Amount),
      acc.toNat + total amounts < UInt64.size →
      ∃ sum, amounts.foldlM addAmount acc = some sum ∧
        sum.toNat = acc.toNat + total amounts := by
    intro amounts
    induction amounts with
    | nil => intro acc _; exact ⟨acc, rfl, rfl⟩
    | cons a amounts ih =>
        intro acc hlt
        have hcons : total (a :: amounts) = a.toNat + total amounts := rfl
        rw [hcons] at hlt
        have hadd : acc.toNat + a.toNat < UInt64.size := by omega
        have hval : (acc + a).toNat = acc.toNat + a.toNat := by
          rw [UInt64.toNat_add]
          exact Nat.mod_eq_of_lt hadd
        obtain ⟨sum, hsum, heq⟩ := ih (acc + a) (by rw [hval]; omega)
        refine ⟨sum, ?_, ?_⟩
        · rw [List.foldlM_cons, addAmount, if_pos hadd]
          exact hsum
        · rw [heq, hval, hcons]
          omega
  obtain ⟨sum, hsum, heq⟩ := general amounts 0 (by simpa using h)
  exact ⟨sum, hsum, by simpa using heq⟩

/-- A spend whose totals fit in 64 bits can be summarized. -/
theorem summarize_of_lt {tx : Transaction} {prevouts : List TxOut} (network : Network)
    (hin : total (prevouts.map TxOut.value) < UInt64.size)
    (hout : total (tx.output.map TxOut.value) < UInt64.size) :
    ∃ summary, summarize tx prevouts network = some summary := by
  obtain ⟨inputTotal, hinput, -⟩ := sumAmounts_of_lt (prevouts.map TxOut.value) hin
  obtain ⟨outputTotal, houtput, -⟩ := sumAmounts_of_lt (tx.output.map TxOut.value) hout
  simp [summarize, hinput, houtput]

end Session
