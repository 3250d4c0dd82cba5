-- SUMMARY: On which texts the decoding of a public envelope neither panics nor accepts what is not hexadecimal.
import Cheget.Cli.Address
import Cheget.Store.Plain

/-!
# Bad hexadecimal text

The decoder slices the text at even byte offsets and hands each slice to the
integer parser. A slice that ends inside a character is a panic, and the parser
takes a plus sign for part of a number.
-/

namespace Cli

open Crypto

/-- An even number of hexadecimal digits. -/
def EvenHex (s : String) : Prop :=
  (Bytes.utf8 s).length % 2 = 0 ∧ ∀ b ∈ Bytes.utf8 s, (Bytes.hexValue b).isSome = true

/-- What follows the first pair of bytes that is no number, or ends inside a
    character. -/
def afterFault : Bytes → Option Bytes
  | a :: b :: rest =>
      if Bytes.hexPair a b = none ∨ rest.head?.any isContinuation = true then some rest
      else afterFault rest
  | _ => none

/-- The first pair that is no number comes before any that ends inside a
    character. -/
def StopsCleanly (s : String) : Prop :=
  ∃ rest, afterFault (Bytes.utf8 s) = some rest ∧ rest.head?.any isContinuation = false

theorem decodePairs_of_faultless {ds : Bytes} (h : afterFault ds = none) :
    ∃ bytes, decodePairs ds = some (some bytes) := by
  induction ds using decodePairs.induct with
  | case1 a b rest hcont => simp [afterFault, hcont] at h
  | case2 a b rest hcont hpair => simp [afterFault, hpair] at h
  | case3 a b rest hcont x hpair ih =>
      have hrest : afterFault rest = none := by simpa [afterFault, hcont, hpair] using h
      obtain ⟨bytes, hbytes⟩ := ih hrest
      exact ⟨x :: bytes, by simp [decodePairs, hcont, hpair, hbytes]⟩
  | case4 ds hshort => exact ⟨[], by rw [decodePairs]; exact hshort⟩

theorem decodePairs_of_fault {ds rest : Bytes} (h : afterFault ds = some rest) :
    decodePairs ds = if rest.head?.any isContinuation = true then none else some none := by
  induction ds using decodePairs.induct with
  | case1 a b rest' hcont =>
      obtain rfl : rest' = rest := by simpa [afterFault, hcont] using h
      simp [decodePairs, hcont]
  | case2 a b rest' hcont hpair =>
      obtain rfl : rest' = rest := by simpa [afterFault, hpair] using h
      simp [decodePairs, hcont, hpair]
  | case3 a b rest' hcont x hpair ih =>
      have hrest : afterFault rest' = some rest := by simpa [afterFault, hcont, hpair] using h
      rw [decodePairs, if_neg hcont, hpair]
      simp only [ih hrest]
      split <;> rfl
  | case4 ds hshort =>
      rw [afterFault] at h
      · cases h
      · exact hshort

/-- Digits are not inside a character. -/
theorem not_isContinuation_of_hexValue {b : UInt8} (h : (Bytes.hexValue b).isSome = true) :
    isContinuation b = false := by
  unfold Bytes.hexValue at h
  unfold isContinuation
  rw [Bool.and_eq_false_iff, decide_eq_false_iff_not, decide_eq_false_iff_not]
  split at h
  · omega
  · split at h
    · omega
    · split at h
      · omega
      · cases h

theorem hexPair_of_digits {a b : UInt8} (ha : (Bytes.hexValue a).isSome = true)
    (hb : (Bytes.hexValue b).isSome = true) : Bytes.hexPair a b ≠ none := by
  obtain ⟨hi, hhi⟩ := Option.isSome_iff_exists.mp ha
  obtain ⟨lo, hlo⟩ := Option.isSome_iff_exists.mp hb
  unfold Bytes.hexPair
  split
  · simp [hlo]
  · simp [hhi, hlo]

theorem afterFault_of_digits {ds : Bytes} (h : ∀ b ∈ ds, (Bytes.hexValue b).isSome = true) :
    afterFault ds = none := by
  induction ds using afterFault.induct with
  | case1 a b rest hfault =>
      rcases hfault with hpair | hcont
      · exact absurd hpair (hexPair_of_digits (h a (by simp)) (h b (by simp)))
      · cases rest with
        | nil => cases hcont
        | cons c rest =>
            have hc := not_isContinuation_of_hexValue (h c (by simp))
            exact absurd hcont (by simp [hc])
  | case2 a b rest hfault ih =>
      rw [afterFault, if_neg hfault]
      exact ih (fun c hc => h c (by simp [hc]))
  | case3 ds hshort =>
      rw [afterFault]
      exact hshort

section Envelopes

variable [KeyCodec]

namespace PubkeyEnvelope

/-- Decoding does not panic, and refuses as bad hex all that is not hex. -/
def DecodesSafely (self : PubkeyEnvelope) : Prop :=
  self.decodePackage ≠ .error .panic ∧
    (¬ EvenHex self.pubkeyPackageHex → self.decodePackage = .error (.error .hex))

theorem decodesSafely_of_hex {self : PubkeyEnvelope} (h : hexDecode self.pubkeyPackageHex = some none) :
    self.DecodesSafely := by
  unfold DecodesSafely decodePackage
  rw [h]
  constructor
  · intro hpanic
    cases hpanic
  · exact fun _ => rfl

/-- Bytes that were decoded go on to the package decoder, whatever it says. -/
theorem decodePackage_of_bytes {self : PubkeyEnvelope} {bytes : Bytes}
    (h : hexDecode self.pubkeyPackageHex = some (some bytes)) :
    self.decodePackage ≠ .error .panic ∧ self.decodePackage ≠ .error (.error .hex) := by
  unfold decodePackage
  rw [h]
  dsimp only
  cases KeyCodec.deserializePublic bytes with
  | ok pkg => constructor <;> exact fun hbad => nomatch hbad
  | error e => constructor <;> exact fun hbad => nomatch hbad

/-- Decoding is safe exactly on hexadecimal text, on text of odd length, and on
    text whose first pair that is no number comes before any that ends inside a
    character. What was encoded always decodes to itself. -/
theorem decodesSafely_iff (self : PubkeyEnvelope) :
    (self.DecodesSafely ↔
      EvenHex self.pubkeyPackageHex ∨ (Bytes.utf8 self.pubkeyPackageHex).length % 2 = 1 ∨
        StopsCleanly self.pubkeyPackageHex) ∧
      ∀ bytes, hexDecode (hexEncode bytes) = some (some bytes) := by
  refine ⟨?_, hexDecode_hexEncode⟩
  by_cases hodd : (Bytes.utf8 self.pubkeyPackageHex).length % 2 = 1
  · have hdecode : hexDecode self.pubkeyPackageHex = some none := by
      rw [hexDecode, if_pos (by omega)]
    exact iff_of_true (decodesSafely_of_hex hdecode) (Or.inr (Or.inl hodd))
  · have hdecode : hexDecode self.pubkeyPackageHex = decodePairs (Bytes.utf8 self.pubkeyPackageHex) := by
      rw [hexDecode, if_neg (by omega)]
    cases hfault : afterFault (Bytes.utf8 self.pubkeyPackageHex) with
    | none =>
        obtain ⟨bytes, hbytes⟩ := decodePairs_of_faultless hfault
        obtain ⟨hpanic, hhex⟩ := decodePackage_of_bytes (hdecode.trans hbytes)
        constructor
        · exact fun hsafe => Or.inl (by_contra (fun hbad => hhex (hsafe.2 hbad)))
        · rintro (heven | hbad | ⟨rest, hrest, -⟩)
          · exact ⟨hpanic, fun hbad => absurd heven hbad⟩
          · exact absurd hbad hodd
          · cases hfault.symm.trans hrest
    | some rest =>
        have hpairs := decodePairs_of_fault hfault
        cases hcont : rest.head?.any isContinuation with
        | true =>
            rw [if_pos hcont] at hpairs
            refine iff_of_false (fun hsafe => hsafe.1 ?_) ?_
            · unfold decodePackage
              rw [hdecode, hpairs]
            · rintro (heven | hbad | ⟨rest', hrest', hclean⟩)
              · cases (afterFault_of_digits heven.2).symm.trans hfault
              · exact hodd hbad
              · cases hfault.symm.trans hrest'
                cases hcont.symm.trans hclean
        | false =>
            rw [if_neg (by simp [hcont])] at hpairs
            exact iff_of_true (decodesSafely_of_hex (hdecode.trans hpairs))
              (Or.inr (Or.inr ⟨rest, hfault, hcont⟩))

end PubkeyEnvelope

end Envelopes

/-! ## Texts that are not hexadecimal -/

open Store.Plain

/-- A slice of the first text ends inside a character; the second one is a number
    with a sign. -/
theorem bad_hex_panics :
    (⟨"active", 0, "aéa"⟩ : PubkeyEnvelope).decodePackage = .error .panic ∧
      ¬ EvenHex "+1" ∧ (⟨"active", 0, "+1"⟩ : PubkeyEnvelope).decodePackage = .ok (1 : UInt8) ∧
      ¬ ∀ self : PubkeyEnvelope, self.DecodesSafely := by
  have hslice : hexDecode "aéa" = none := by decide +kernel
  have hsign : hexDecode "+1" = some (some [1]) := by decide +kernel
  have hpanic : (⟨"active", 0, "aéa"⟩ : PubkeyEnvelope).decodePackage = .error .panic := by
    unfold PubkeyEnvelope.decodePackage
    rw [hslice]
  refine ⟨hpanic, ?_, ?_, fun h => (h _).1 hpanic⟩
  · unfold EvenHex
    decide +kernel
  · unfold PubkeyEnvelope.decodePackage
    rw [hsign]
    rfl

end Cli
