-- SUMMARY: When the spend summary is exact: the totals that the display adds up have to fit in 64 bits.
import Cheget.Session.Plain

/-!
# Exact totals

The display guards the subtraction of the totals but not their addition. With
overflow checks a total that does not fit is a panic, without them it wraps.
-/

namespace Session

open Chain

section Summaries

/-! ## Sums -/

theorem foldlM_addAmount_wraps [Build] (hchecks : Build.overflowChecks = false) (amounts : List Amount)
    (acc : Amount) :
    ∃ sum, amounts.foldlM addAmount acc = some sum ∧
      sum.toNat = (acc.toNat + total amounts) % UInt64.size := by
  induction amounts generalizing acc with
  | nil => exact ⟨acc, rfl, (Nat.mod_eq_of_lt acc.toNat_lt).symm⟩
  | cons a amounts ih =>
      have hadd : addAmount acc a = some (acc + a) := by simp [addAmount, hchecks]
      obtain ⟨sum, hsum, hvalue⟩ := ih (acc + a)
      have hcons : total (a :: amounts) = a.toNat + total amounts := rfl
      refine ⟨sum, ?_, ?_⟩
      · rw [List.foldlM_cons, hadd]
        exact hsum
      · rw [hvalue, hcons, UInt64.toNat_add, ← Nat.add_assoc]
        exact Nat.mod_add_mod _ _ _

/-- Without overflow checks a sum is what is left of the total. -/
theorem sumAmounts_wraps [Build] (hchecks : Build.overflowChecks = false) (amounts : List Amount) :
    ∃ sum, sumAmounts amounts = some sum ∧ sum.toNat = total amounts % UInt64.size := by
  obtain ⟨sum, hsum, hvalue⟩ := foldlM_addAmount_wraps hchecks amounts 0
  exact ⟨sum, hsum, by simpa using hvalue⟩

theorem foldlM_addAmount_panics [Build] (hchecks : Build.overflowChecks = true) (amounts : List Amount)
    (acc : Amount) (h : UInt64.size ≤ acc.toNat + total amounts) : amounts.foldlM addAmount acc = none := by
  induction amounts generalizing acc with
  | nil => exact absurd acc.toNat_lt (Nat.not_lt.mpr h)
  | cons a amounts ih =>
      have hcons : total (a :: amounts) = a.toNat + total amounts := rfl
      rw [List.foldlM_cons]
      by_cases hlt : acc.toNat + a.toNat < UInt64.size
      · have hvalue : (acc + a).toNat = acc.toNat + a.toNat := by
          rw [UInt64.toNat_add]
          exact Nat.mod_eq_of_lt hlt
        rw [addAmount, if_pos hlt]
        exact ih (acc + a) (by rw [hvalue]; omega)
      · have hadd : addAmount acc a = none := by simp [addAmount, hlt, hchecks]
        rw [hadd]
        rfl

/-- With overflow checks a total that does not fit is a panic. -/
theorem sumAmounts_panics [Build] (hchecks : Build.overflowChecks = true) {amounts : List Amount}
    (h : UInt64.size ≤ total amounts) : sumAmounts amounts = none :=
  foldlM_addAmount_panics hchecks amounts 0 (by simpa using h)

/-! ## Summaries -/

variable [Bitcoin]

/-- A summary that gives the true total and fee, and every output with its
    amount. -/
structure SpendSummary.Exact (summary : SpendSummary) (tx : Transaction) (prevouts : List TxOut) : Prop where
  inputTotal : summary.inputTotal.toNat = total (prevouts.map TxOut.value)
  fee : total (tx.output.map TxOut.value) ≤ total (prevouts.map TxOut.value) →
    summary.fee.toNat + total (tx.output.map TxOut.value) = summary.inputTotal.toNat
  feeZero : total (prevouts.map TxOut.value) < total (tx.output.map TxOut.value) → summary.fee = 0
  outputs : summary.outputs.map OutputLine.value = tx.output.map TxOut.value

/-- Summarizing does not panic, and is exact. -/
def SummarizesExactly [Build] (tx : Transaction) (prevouts : List TxOut) (network : Network) : Prop :=
  ∃ summary, summarize tx prevouts network = some summary ∧ summary.Exact tx prevouts

/-- What is made of the two sums. -/
theorem summarize_of_sums [Build] {tx : Transaction} {prevouts : List TxOut} (network : Network)
    {inputTotal outputTotal : Amount} (hinput : sumAmounts (prevouts.map TxOut.value) = some inputTotal)
    (houtput : sumAmounts (tx.output.map TxOut.value) = some outputTotal) :
    summarize tx prevouts network = some
      { inputTotal
        outputs := tx.output.map (fun o =>
          { address := Bitcoin.addressFromScript o.scriptPubkey network, value := o.value })
        fee := if outputTotal ≤ inputTotal then inputTotal - outputTotal else 0 } := by
  rw [summarize, hinput, houtput]
  rfl

theorem summarizesExactly_of_lt [Build] {tx : Transaction} {prevouts : List TxOut} (network : Network)
    (hin : total (prevouts.map TxOut.value) < UInt64.size)
    (hout : total (tx.output.map TxOut.value) < UInt64.size) : SummarizesExactly tx prevouts network := by
  obtain ⟨inputTotal, hinput, hinputValue⟩ := sumAmounts_of_lt (prevouts.map TxOut.value) hin
  obtain ⟨outputTotal, houtput, houtputValue⟩ := sumAmounts_of_lt (tx.output.map TxOut.value) hout
  refine ⟨_, summarize_of_sums network hinput houtput, hinputValue, ?_, ?_, ?_⟩
  · intro hle
    have hle' : outputTotal ≤ inputTotal := by
      rw [UInt64.le_iff_toNat_le, hinputValue, houtputValue]
      exact hle
    dsimp only
    rw [if_pos hle', UInt64.toNat_sub_of_le _ _ hle', hinputValue, houtputValue]
    omega
  · intro hlt
    refine if_neg ?_
    rw [UInt64.le_iff_toNat_le, hinputValue, houtputValue]
    omega
  · rw [List.map_map]
    rfl

/-- The summary is exact in every build exactly if both totals fit in 64 bits. -/
theorem summarizesExactly_iff (tx : Transaction) (prevouts : List TxOut) (network : Network) :
    (∀ build : Build, @SummarizesExactly _ build tx prevouts network) ↔
      total (prevouts.map TxOut.value) < UInt64.size ∧
        total (tx.output.map TxOut.value) < UInt64.size := by
  constructor
  · intro h
    let debug : Build := ⟨true⟩
    obtain ⟨summary, hsummary, -⟩ := h debug
    by_contra hfit
    rcases not_and_or.mp hfit with hin | hout
    · rw [summarize, sumAmounts_panics rfl (Nat.not_lt.mp hin)] at hsummary
      cases hsummary
    · have hpanic := sumAmounts_panics (rfl : debug.overflowChecks = true) (Nat.not_lt.mp hout)
      rw [summarize, hpanic] at hsummary
      cases hsum : sumAmounts (prevouts.map TxOut.value) with
      | none => simp [hsum] at hsummary
      | some inputTotal => simp [hsum] at hsummary
  · rintro ⟨hin, hout⟩ build
    exact summarizesExactly_of_lt network hin hout

/-- Without overflow checks the outputs may also overflow, as long as what is left
    of their total is not below the inputs. -/
theorem summarizesExactly_release_iff [Build] (hchecks : Build.overflowChecks = false) (tx : Transaction)
    (prevouts : List TxOut) (network : Network) :
    SummarizesExactly tx prevouts network ↔
      total (prevouts.map TxOut.value) < UInt64.size ∧
        (total (tx.output.map TxOut.value) < UInt64.size ∨
          total (prevouts.map TxOut.value) ≤ total (tx.output.map TxOut.value) % UInt64.size) := by
  obtain ⟨inputTotal, hinput, hinputValue⟩ := sumAmounts_wraps hchecks (prevouts.map TxOut.value)
  obtain ⟨outputTotal, houtput, houtputValue⟩ := sumAmounts_wraps hchecks (tx.output.map TxOut.value)
  have hsummary := summarize_of_sums network hinput houtput
  have hsize : 0 < UInt64.size := by decide
  constructor
  · rintro ⟨summary, hsome, hexact⟩
    obtain rfl := Option.some.inj (hsummary.symm.trans hsome)
    have hin : total (prevouts.map TxOut.value) < UInt64.size := by
      rw [← hexact.inputTotal]
      exact inputTotal.toNat_lt
    refine ⟨hin, Classical.or_iff_not_imp_left.mpr (fun hout => ?_)⟩
    have hzero := hexact.feeZero (by omega)
    dsimp only at hzero
    rw [Nat.mod_eq_of_lt hin] at hinputValue
    rw [← houtputValue, ← hinputValue]
    split at hzero
    · next hle =>
        have hvalue := UInt64.toNat_sub_of_le _ _ hle
        rw [hzero] at hvalue
        exact Nat.sub_eq_zero_iff_le.mp hvalue.symm
    · next hle =>
        rw [UInt64.le_iff_toNat_le] at hle
        omega
  · rintro ⟨hin, hout | hleft⟩
    · exact summarizesExactly_of_lt network hin hout
    · rw [Nat.mod_eq_of_lt hin] at hinputValue
      by_cases hout : total (tx.output.map TxOut.value) < UInt64.size
      · exact summarizesExactly_of_lt network hin hout
      · have hle : inputTotal ≤ outputTotal := by
          rw [UInt64.le_iff_toNat_le, hinputValue, houtputValue]
          exact hleft
        refine ⟨_, hsummary, hinputValue, fun hbad => absurd hbad (by omega), fun _ => ?_, ?_⟩
        · dsimp only
          split
          · next hge =>
              apply UInt64.toNat_inj.mp
              rw [UInt64.toNat_sub_of_le _ _ hge]
              exact Nat.sub_eq_zero_of_le (UInt64.le_iff_toNat_le.mp hle)
          · rfl
        · rw [List.map_map]
          rfl

end Summaries

/-! ## Two large inputs -/

open Session.Plain

/-- Inputs that are worth more than 64 bits can hold. -/
def largeInputs : List TxOut := [⟨9223372036854775808, []⟩, ⟨9223372036854775808, []⟩]

/-- They are a panic with overflow checks, and worth nothing without. -/
theorem large_inputs_overflow :
    @summarize _ ⟨true⟩ ⟨2, 0, [], []⟩ largeInputs .regtest = none ∧
      @summarize _ ⟨false⟩ ⟨2, 0, [], []⟩ largeInputs .regtest = some ⟨0, [], 0⟩ ∧
      ¬ ∀ (build : Build) (tx : Transaction) (prevouts : List TxOut) (network : Network),
        @SummarizesExactly _ build tx prevouts network := by
  have hpanic : @summarize _ ⟨true⟩ ⟨2, 0, [], []⟩ largeInputs .regtest = none := by decide +kernel
  refine ⟨hpanic, by decide +kernel, fun h => ?_⟩
  obtain ⟨summary, hsome, -⟩ := h ⟨true⟩ ⟨2, 0, [], []⟩ largeInputs .regtest
  cases hpanic.symm.trans hsome

end Session
